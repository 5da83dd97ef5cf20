import ConvergioMesh.Peers.Written
import ConvergioMesh.Sync.Loop
import ConvergioMesh.Sync.Plans
import ConvergioMesh.Transport.Address

/-!
# The visits of a round

Which peers a round visits, at which addresses, and where the requests that it makes there go.
-/

namespace ConvergioMesh

open Library (HostParser Text Url parseHttpUrl)

variable {e : Engine} {connects : Text → Bool} {p : PeerConfig}

/-! ### Addresses -/

/-- The addresses of a peer in the order in which they are tried. -/
def PeerConfig.addresses (p : PeerConfig) : List Text :=
  ((p.thunderboltIp.toList ++ p.lanIp.toList ++ [p.tailscaleIp]).filter (· ≠ [])).map (· ++ ":8420".toList)

/-- The fields from which an address is resolved, in the order in which `peer_to_fields` takes them. -/
def PeerConfig.addressFields (p : PeerConfig) : List (String × Option Text) :=
  [("thunderbolt_ip", p.thunderboltIp), ("lan_ip", p.lanIp),
    ("tailscale_ip", if p.tailscaleIp = [] then none else some p.tailscaleIp)]

theorem insertAll_written_cons (kv : Kv) (key : String) (v : Option Text) (fs : List (String × Option Text)) :
    insertAll kv (written ((key, v) :: fs)) = insertAll (v.elim kv (kv.insert key.toList)) (written fs) := by
  cases v <;> rfl

theorem insertAll_written_nil (kv : Kv) : insertAll kv (written []) = kv := rfl

theorem peerToFields_eq (p : PeerConfig) : peerToFields p = insertAll ∅ (written p.addressFields) := by
  simp only [peerToFields, PeerConfig.addressFields, insertAll_written_cons, insertAll_written_nil]
  split <;> rfl

/-- Two maps with the same entries but for an empty address resolve alike. -/
theorem resolveBestAddr_eq {fields : Kv} (thunderbolt : fields["thunderbolt_ip".toList]? = p.thunderboltIp)
    (lan : fields["lan_ip".toList]? = p.lanIp)
    (tailscale : (fields["tailscale_ip".toList]?).filter (· ≠ []) = (some p.tailscaleIp).filter (· ≠ [])) :
    resolveBestAddr connects fields = p.addresses.find? connects := by
  have candidates : (["thunderbolt_ip", "lan_ip", "tailscale_ip"].filterMap fun key =>
      fields[key.toList]?.filter (· ≠ [])) = (p.thunderboltIp.toList ++ p.lanIp.toList ++ [p.tailscaleIp]).filter (· ≠ []) := by
    have next (f : String → Option Text) (key : String) (rest : List String) :
        (key :: rest).filterMap f = (f key).toList ++ rest.filterMap f := by
      rw [List.filterMap_cons]
      cases f key <;> rfl
    rw [next, next, next, thunderbolt, lan, tailscale]
    simp [Option.toList_filter]
  rw [resolveBestAddr, candidates]
  rfl

theorem resolve_peerToFields (connects : Text → Bool) (p : PeerConfig) :
    resolveBestAddr connects (peerToFields p) = p.addresses.find? connects := by
  have distinct : (p.addressFields.map Prod.fst).Nodup := by
    rw [show p.addressFields.map Prod.fst = ["thunderbolt_ip", "lan_ip", "tailscale_ip"] from rfl]
    decide
  have get (key : String) : (peerToFields p)[key.toList]? = (p.addressFields.lookup key).join := by
    rw [peerToFields_eq, getElem?_insertAll distinct, Std.ExtTreeMap.getElem?_empty, Option.or_none]
  refine resolveBestAddr_eq (get _) (get _) ?_
  rw [get]
  change Option.filter _ (if p.tailscaleIp = [] then none else some p.tailscaleIp) = _
  split
  · rename_i empty
    rw [empty]
    rfl
  · rfl

/-! ### Requests to an address -/

/-- The characters of the socket addresses that the standard library parses. -/
def SocketText (addr : Text) : Prop := ∀ c ∈ addr, c.isAlphanum = true ∨ c ∈ ['.', ':', '[', ']', '%']

instance (addr : Text) : Decidable (SocketText addr) := List.decidableBAll _ addr

theorem SocketText.ne {addr : Text} (socket : SocketText addr) {c d : Char} (member : c ∈ addr)
    (letter : d.isAlphanum = false) (other : d ∉ ['.', ':', '[', ']', '%']) : c ≠ d := by
  rintro rfl
  rcases socket c member with alphanum | listed
  · rw [letter] at alphanum
    cases alphanum
  · exact other listed

theorem reverse_port (ip : Text) : (ip ++ ":8420".toList).reverse = ['0', '2', '4', '8'] ++ ':' :: ip.reverse := by
  rw [List.reverse_append]
  rfl

theorem addrHost_port (ip : Text) : addrHost (String.ofList (ip ++ ":8420".toList)) = ip := by
  rw [addrHost, String.toList_ofList, reverse_port, List.dropWhile_append_of_pos (by simp)]
  simp

theorem addrPort_port (ip : Text) : addrPort (String.ofList (ip ++ ":8420".toList)) = "8420".toList := by
  rw [addrPort, String.toList_ofList, reverse_port, List.takeWhile_append_of_pos (by simp)]
  simp

/-- A socket address with this port passes the check of a request. -/
theorem validatePeerAddr_socket {ip : Text} (socket : SocketText (ip ++ ":8420".toList)) :
    validatePeerAddr (String.ofList (ip ++ ":8420".toList)) = .ok () := by
  have colon : ':' ∈ (String.ofList (ip ++ ":8420".toList)).toList := by simp
  have port := addrPort_port ip
  have host := addrHost_port ip
  unfold addrPort at port
  unfold addrHost at host
  have number : isU16 "8420".toList = true := by decide
  have plain : (ip.any fun c => c = '/' || c = '@' || c = '?' || c = '#') = false := by
    rw [List.any_eq_false]
    intro c member
    have inside : c ∈ ip ++ ":8420".toList := List.mem_append_left _ member
    simp [socket.ne inside (d := '/') (by decide) (by decide), socket.ne inside (d := '@') (by decide) (by decide),
      socket.ne inside (d := '?') (by decide) (by decide), socket.ne inside (d := '#') (by decide) (by decide)]
  unfold validatePeerAddr
  dsimp only
  rw [if_neg (not_not.mpr colon), port, host, number, plain]
  rfl

theorem noDelimiter_socket {ip : Text} (socket : SocketText (ip ++ ":8420".toList)) : NoDelimiter ip := by
  intro c member
  have inside : c ∈ ip ++ ":8420".toList := List.mem_append_left _ member
  refine ⟨socket.ne inside (by decide) (by decide), ?_⟩
  simp only [Library.isTabOrNewline, Bool.or_eq_false_iff, decide_eq_false_iff_not]
  exact ⟨⟨socket.ne inside (by decide) (by decide), socket.ne inside (by decide) (by decide)⟩,
    socket.ne inside (by decide) (by decide)⟩

/-! ### Visits -/

theorem visits_peers (env : RoundEnv) (peers : List (Text × PeerConfig)) (s : LoopState) :
    (visits e env peers s).map (fun v => (v.peer, v.addr)) =
      peers.filterMap fun p => (env.visitedAt p.1 p.2).map fun addr => (p.1, addr) := by
  induction peers generalizing s with
  | nil => rfl
  | cons p rest ih =>
    rw [visits, List.filterMap_cons]
    cases env.visitedAt p.1 p.2 with
    | none => exact ih s
    | some addr => exact congrArg (List.cons (p.1, addr)) (ih _)

theorem tableCalls_tables (io : PeerIo) (addr : String) (tables : List String) (db : Database) :
    (tableCalls e io addr tables db).map (fun c => (c.addr, c.table)) = tables.map fun table => (addr, table) := by
  induction tables generalizing db with
  | nil => rfl
  | cons table rest ih => exact congrArg (List.cons (addr, table)) (ih _)

theorem visitedAt_eq_some {env : RoundEnv} {name : Text} {addr : String} :
    env.visitedAt name p = some addr ↔
      env.localTailscaleIp ≠ some p.tailscaleIp ∧
        p.addresses.find? (env.peers name).connects = some addr.toList := by
  unfold RoundEnv.visitedAt
  rw [resolve_peerToFields]
  by_cases own : env.localTailscaleIp = some p.tailscaleIp
  · simp [own]
  · rw [if_neg own, Option.map_eq_some_iff, and_iff_right own]
    constructor
    · rintro ⟨found, at_addr, rfl⟩
      rw [at_addr, String.toList_ofList]
    · intro found
      exact ⟨_, found, String.ofList_toList⟩

theorem mem_activePeers {env : RoundEnv} {name : Text} :
    (name, p) ∈ env.activePeers ↔ ∃ registry, PeersRegistry.load env.conf = .ok registry ∧ env.poolFault = false ∧
      registry.peers[name]? = some p ∧ p.status = "active".toList := by
  unfold RoundEnv.activePeers PeersRegistry.listActive
  cases PeersRegistry.load env.conf with
  | error => simp
  | ok registry => cases env.poolFault <;> simp [Std.ExtTreeMap.mem_toList_iff_getElem?_eq_some]

theorem activePeers_sorted (env : RoundEnv) : env.activePeers.Pairwise fun p q => compare p.1 q.1 = .lt := by
  unfold RoundEnv.activePeers PeersRegistry.listActive
  cases PeersRegistry.load env.conf with
  | error => exact List.Pairwise.nil
  | ok registry =>
    dsimp only
    split
    · exact List.Pairwise.nil
    · exact Std.ExtTreeMap.ordered_keys_toList.filter _

/-- A round visits each active peer but the node itself that can be reached, once and in the order of the names, at the
first of its addresses that takes a connection. A visit makes one call for each table, in their order. -/
theorem round_visits (e : Engine) (env : RoundEnv) (s : LoopState) :
    (visits e env env.activePeers s).Pairwise (fun v w => compare v.peer w.peer = .lt) ∧
    (∀ name addr, (∃ v ∈ visits e env env.activePeers s, v.peer = name ∧ v.addr = addr) ↔
      ∃ registry cfg, PeersRegistry.load env.conf = .ok registry ∧ env.poolFault = false ∧
        registry.peers[name]? = some cfg ∧ cfg.status = "active".toList ∧
        env.localTailscaleIp ≠ some cfg.tailscaleIp ∧
        cfg.addresses.find? (env.peers name).connects = some addr.toList) ∧
    ∀ v ∈ visits e env env.activePeers s, (v.calls e).map (fun c => (c.addr, c.table)) = syncTables.map (v.addr, ·) := by
  have made := visits_peers (e := e) env env.activePeers s
  refine ⟨?_, fun name addr => ?_, fun v _ => tableCalls_tables ..⟩
  · have pairs : ((visits e env env.activePeers s).map fun v => (v.peer, v.addr)).Pairwise
        fun v w => compare v.1 w.1 = .lt := by
      rw [made]
      refine List.Pairwise.filterMap _ (fun p q less v first w second => ?_) (activePeers_sorted env)
      obtain ⟨_, _, rfl⟩ := Option.map_eq_some_iff.mp first
      obtain ⟨_, _, rfl⟩ := Option.map_eq_some_iff.mp second
      exact less
    exact List.pairwise_map.mp pairs
  · have listed : (∃ v ∈ visits e env env.activePeers s, v.peer = name ∧ v.addr = addr) ↔
        (name, addr) ∈ (visits e env env.activePeers s).map fun v => (v.peer, v.addr) := by
      simp [List.mem_map]
    rw [listed, made, List.mem_filterMap]
    constructor
    · rintro ⟨⟨peer, cfg⟩, member, visited⟩
      obtain ⟨at_addr, resolved, same⟩ := Option.map_eq_some_iff.mp visited
      obtain ⟨rfl, rfl⟩ := Prod.mk.inj same
      obtain ⟨registry, loaded, pool, held, active⟩ := mem_activePeers.mp member
      obtain ⟨remote, found⟩ := visitedAt_eq_some.mp resolved
      exact ⟨registry, cfg, loaded, pool, held, active, remote, found⟩
    · rintro ⟨registry, cfg, loaded, pool, held, active, remote, found⟩
      refine ⟨(name, cfg), mem_activePeers.mpr ⟨registry, loaded, pool, held, active⟩, ?_⟩
      rw [visitedAt_eq_some.mpr ⟨remote, found⟩]
      rfl

theorem mem_runVisits {envs : List RoundEnv} {s : LoopState} {v : Visit} (visited : v ∈ runVisits e envs s) :
    ∃ env ∈ envs, ∃ cfg, (v.peer, cfg) ∈ env.activePeers ∧ env.visitedAt v.peer cfg = some v.addr := by
  induction envs generalizing s with
  | nil => cases visited
  | cons env rest ih =>
    rcases List.mem_append.mp visited with now | later
    · have pair : (v.peer, v.addr) ∈ (visits e env env.activePeers s).map fun v => (v.peer, v.addr) :=
        List.mem_map_of_mem now
      rw [visits_peers] at pair
      obtain ⟨⟨name, cfg⟩, active, resolved⟩ := List.mem_filterMap.mp pair
      obtain ⟨addr, at_addr, same⟩ := Option.map_eq_some_iff.mp resolved
      obtain ⟨rfl, rfl⟩ := Prod.mk.inj same
      exact ⟨env, List.mem_cons_self, cfg, active, at_addr⟩
    · obtain ⟨env', member, cfg, found⟩ := ih later
      exact ⟨env', List.mem_cons_of_mem _ member, cfg, found⟩

/-- The address of a peer as `ip` with the port of the mesh, and where the requests to it go. -/
structure LeadsTo (p : PeerConfig) (ip : Text) (addr : String) : Prop where
  configured : p.thunderboltIp = some ip ∨ p.lanIp = some ip ∨ p.tailscaleIp = ip
  withPort : addr = String.ofList (ip ++ ":8420".toList)
  accepted : validatePeerAddr addr = .ok ()
  sent : ∀ (hosts : HostParser) (endpoint : SyncEndpoint) (u : Url),
    parseHttpUrl hosts (endpoint.url addr).toList = some u →
      hosts.parse ip = some u.host ∧ u.port = 8420 ∧ u.path = endpoint.path.toList

theorem leadsTo_of_socket {addr : Text} (resolved : addr ∈ p.addresses) (socket : SocketText addr) :
    ∃ ip, LeadsTo p ip (String.ofList addr) := by
  obtain ⟨ip, listed, rfl⟩ := List.mem_map.mp resolved
  have configured : p.thunderboltIp = some ip ∨ p.lanIp = some ip ∨ p.tailscaleIp = ip := by
    have one := (List.mem_filter.mp listed).1
    simpa [or_assoc, eq_comm] using one
  have accepted := validatePeerAddr_socket socket
  refine ⟨ip, configured, rfl, accepted, fun hosts endpoint u parsed => ?_⟩
  have plain : NoDelimiter (addrHost (String.ofList (ip ++ ":8420".toList))) := by
    rw [addrHost_port]
    exact noDelimiter_socket socket
  obtain ⟨host, port, path⟩ := parsed_of_noDelimiter (acceptedAddr_of_ok accepted) plain parsed
  rw [addrHost_port] at host
  rw [addrPort_port, show portNumber "8420".toList = some 8420 by decide] at port
  have port := Option.some.inj port
  exact ⟨host, by omega, path⟩

/-- The addresses that the rounds visit pass the check that each request makes, and the requests go to the host that
the registry has for the peer and to the port of the mesh. -/
theorem visits_reach {envs : List RoundEnv}
    (sockets : ∀ env ∈ envs, ∀ name addr, (env.peers name).connects addr = true → SocketText addr) (e : Engine)
    (s : LoopState) :
    ∀ v ∈ runVisits e envs s, ∃ env ∈ envs, ∃ registry cfg ip, PeersRegistry.load env.conf = .ok registry ∧
      registry.peers[v.peer]? = some cfg ∧ LeadsTo cfg ip v.addr := by
  intro v visited
  obtain ⟨env, member, cfg, active, at_addr⟩ := mem_runVisits visited
  obtain ⟨registry, loaded, _, held, _⟩ := mem_activePeers.mp active
  obtain ⟨_, found⟩ := visitedAt_eq_some.mp at_addr
  have socket := sockets env member v.peer v.addr.toList (List.find?_some found)
  obtain ⟨ip, leads⟩ := leadsTo_of_socket (List.mem_of_find?_eq_some found) socket
  rw [String.ofList_toList] at leads
  exact ⟨env, member, registry, cfg, ip, loaded, held, leads⟩

def m5Socket : RoundEnv where
  conf := some (peerText "m5")
  peers _ := {
    connects := fun addr => addr = "100.0.0.5:8420".toList
    tables := fun _ => { roundStartAt := "2026-04-21 10:00:00", send := fun _ => .ok (), fetch := fun _ => .ok [] }
    health := ⟨false, .ok (), .error "no health endpoint"⟩ }

set_option maxRecDepth 4000 in
theorem m5_reached :
    (runVisits sampleEngine [m5Socket] ⟨plansDb noPlans, .empty⟩).map (·.addr) = ["100.0.0.5:8420"] ∧
      ∀ v ∈ runVisits sampleEngine [m5Socket] ⟨plansDb noPlans, .empty⟩, ∃ env ∈ [m5Socket], ∃ registry cfg ip,
        PeersRegistry.load env.conf = .ok registry ∧ registry.peers[v.peer]? = some cfg ∧ LeadsTo cfg ip v.addr := by
  refine ⟨by decide, visits_reach (fun env member name addr connects => ?_) _ _⟩
  obtain rfl := List.mem_singleton.mp member
  obtain rfl : addr = "100.0.0.5:8420".toList := of_decide_eq_true connects
  decide

end ConvergioMesh
