import ConvergioMesh.Peers.Sections

/-!
# Identities in the registry

`load` keys each peer by its canonical name, and the calls that change a registry use the names
they are given.
-/

namespace ConvergioMesh

open Library

/-- `load`, given what reading the file returns. -/
def PeersRegistry.load (file : Option Text) : Except Stop PeersRegistry :=
  match file with
  | none => .error (.error .io)
  | some text => do
    let (sharedSecret, peers) ← parseIni text
    return { sharedSecret, peers }

namespace PeersRegistry

def listActive (r : PeersRegistry) : List (Text × PeerConfig) :=
  r.peers.toList.filter fun p => p.2.status = "active".toList

def addPeer (r : PeersRegistry) (name : Text) (config : PeerConfig) : PeersRegistry :=
  { r with peers := r.peers.insert name config }

def removePeer (r : PeersRegistry) (name : Text) : Option PeerConfig × PeersRegistry :=
  (r.peers[name]?, { r with peers := r.peers.erase name })

def updateRole (r : PeersRegistry) (name role : Text) : Except PeersError Unit × PeersRegistry :=
  match r.peers[name]? with
  | none => (.error (.notFound name), r)
  | some p => (.ok (), { r with peers := r.peers.insert name { p with role } })

end PeersRegistry

inductive RegistryCall where
  | add (name : Text) (config : PeerConfig)
  | remove (name : Text)
  | role (name newRole : Text)

def RegistryCall.run (r : PeersRegistry) : RegistryCall → PeersRegistry
  | .add name config => r.addPeer name config
  | .remove name => (r.removePeer name).2
  | .role name newRole => (r.updateRole name newRole).2

/-- No two keys have the same canonical name. -/
def OneEntryPerHost (r : PeersRegistry) : Prop :=
  ∀ k ∈ r.peers, ∀ k' ∈ r.peers, ∀ c, canonicalPeerName k = some c → canonicalPeerName k' = some c → k = k'

/-- Peer sections with different canonical names keep different ones when these are canonicalised
in turn. -/
def DistinctHosts (text : Text) : Prop :=
  ∀ s ∈ sections text, ∀ s' ∈ sections text, ¬s.IsMesh → ¬s'.IsMesh →
    ∀ k k' c, canonicalPeerName s.name = some k → canonicalPeerName s'.name = some k' →
      canonicalPeerName k = some c → canonicalPeerName k' = some c → k = k'

/-- An added name is a key already, or shares its canonical name with none. -/
def RegistryCall.Separate (r : PeersRegistry) : RegistryCall → Prop
  | .add name _ =>
    name ∈ r.peers ∨ ∀ k ∈ r.peers, ∀ c, canonicalPeerName name = some c → canonicalPeerName k ≠ some c
  | _ => True

theorem parseIni_of_load {text : Text} {r : PeersRegistry} (h : PeersRegistry.load (some text) = .ok r) :
    parseIni text = .ok (r.sharedSecret, r.peers) := by
  unfold PeersRegistry.load at h
  dsimp only at h
  cases parsed : parseIni text with
  | error stop =>
    rw [parsed] at h
    cases h
  | ok p =>
    rw [parsed] at h
    cases h
    rfl

theorem load_oneEntryPerHost_iff {text : Text} {r : PeersRegistry} (h : PeersRegistry.load (some text) = .ok r) :
    OneEntryPerHost r ↔ DistinctHosts text := by
  have parsed := parseIni_of_load h
  constructor
  · intro one s listed s' listed' peer peer' k k' c canon canon' same same'
    have key := (parseIni_keys parsed).mpr ⟨s, listed, peer, canon⟩
    have key' := (parseIni_keys parsed).mpr ⟨s', listed', peer', canon'⟩
    exact one k key k' key' c same same'
  · intro distinct k key k' key' c same same'
    obtain ⟨s, listed, peer, canon⟩ := (parseIni_keys parsed).mp key
    obtain ⟨s', listed', peer', canon'⟩ := (parseIni_keys parsed).mp key'
    exact distinct s listed s' listed' peer peer' k k' c canon canon' same same'

theorem mem_addPeer {r : PeersRegistry} {name k : Text} {config : PeerConfig} :
    k ∈ (r.addPeer name config).peers ↔ k = name ∨ k ∈ r.peers := by
  simp only [PeersRegistry.addPeer, Std.ExtTreeMap.mem_insert, Std.compare_eq_iff_eq]
  rw [@eq_comm _ name]

theorem mem_removePeer {r : PeersRegistry} {name k : Text} (h : k ∈ (r.removePeer name).2.peers) : k ∈ r.peers := by
  simp only [PeersRegistry.removePeer, Std.ExtTreeMap.mem_erase] at h
  exact h.2

theorem mem_updateRole {r : PeersRegistry} {name role k : Text} :
    k ∈ (r.updateRole name role).2.peers ↔ k ∈ r.peers := by
  unfold PeersRegistry.updateRole
  split
  · rfl
  · rename_i p held
    have key : name ∈ r.peers := mem_peers.mpr ⟨p, held⟩
    simp only [Std.ExtTreeMap.mem_insert, Std.compare_eq_iff_eq]
    constructor
    · rintro (rfl | member)
      · exact key
      · exact member
    · exact .inr

/-- A call keeps one entry per host exactly if it adds no second name of a host. -/
theorem run_oneEntryPerHost_iff {r : PeersRegistry} (before : OneEntryPerHost r) (call : RegistryCall) :
    OneEntryPerHost (call.run r) ↔ call.Separate r := by
  cases call with
  | add name config =>
    simp only [RegistryCall.run, RegistryCall.Separate]
    constructor
    · intro after
      by_cases key : name ∈ r.peers
      · exact .inl key
      · right
        intro k member c canon canon'
        have same := after name (mem_addPeer.mpr (.inl rfl)) k (mem_addPeer.mpr (.inr member)) c canon canon'
        exact key (same ▸ member)
    · intro separate k member k' member' c canon canon'
      have same_or : ∀ x ∈ r.peers, canonicalPeerName x = some c → canonicalPeerName name = some c → x = name := by
        intro x held canon canon'
        rcases separate with key | other
        · exact before x held name key c canon canon'
        · exact absurd canon (other x held c canon')
      rcases mem_addPeer.mp member with rfl | held
      · rcases mem_addPeer.mp member' with rfl | held'
        · rfl
        · exact (same_or k' held' canon' canon).symm
      · rcases mem_addPeer.mp member' with rfl | held'
        · exact same_or k held canon canon'
        · exact before k held k' held' c canon canon'
  | remove name =>
    refine iff_of_true ?_ trivial
    simp only [RegistryCall.run]
    intro k member k' member' c canon canon'
    exact before k (mem_removePeer member) k' (mem_removePeer member') c canon canon'
  | role name newRole =>
    refine iff_of_true ?_ trivial
    simp only [RegistryCall.run]
    intro k member k' member' c canon canon'
    exact before k (mem_updateRole.mp member) k' (mem_updateRole.mp member') c canon canon'

/-- One entry per host in the loaded registry and after each call, exactly if neither the text nor a
call brings a second name of a host. -/
theorem oneEntryPerHost_iff {text : Text} {r : PeersRegistry} (h : PeersRegistry.load (some text) = .ok r)
    (calls : List RegistryCall) :
    (∀ made later, calls = made ++ later → OneEntryPerHost (made.foldl RegistryCall.run r)) ↔
      DistinctHosts text ∧
        ∀ made call later, calls = made ++ call :: later → call.Separate (made.foldl RegistryCall.run r) := by
  constructor
  · intro always
    refine ⟨(load_oneEntryPerHost_iff h).mp (always [] calls rfl), ?_⟩
    rintro made call later rfl
    have before := always made (call :: later) rfl
    have after := always (made ++ [call]) later (by simp)
    rw [List.foldl_append] at after
    exact (run_oneEntryPerHost_iff before call).mp after
  · rintro ⟨distinct, separate⟩ made
    induction made using List.reverseRecOn with
    | nil =>
      intro _ _
      exact (load_oneEntryPerHost_iff h).mpr distinct
    | append_singleton made call ih =>
      intro later whole
      rw [List.append_assoc] at whole
      have before := ih _ whole
      rw [List.foldl_append]
      exact (run_oneEntryPerHost_iff before call).mpr (separate made call later whole)

def twoPeers : Text := peerText "m5max" ++ peerText "A100.local"

set_option maxRecDepth 8000 in
theorem twoPeers_names {s : Section} (listed : s ∈ sections twoPeers) :
    canonicalPeerName s.name = some "m5max".toList ∨ canonicalPeerName s.name = some "a100".toList := by
  have both : sections twoPeers = [_, _] := rfl
  rw [both, List.mem_pair] at listed
  rcases listed with rfl | rfl
  · exact .inl (by decide)
  · exact .inr (by decide)

set_option maxRecDepth 8000 in
theorem m5max_oneEntryPerHost :
    ∃ r, PeersRegistry.load (some twoPeers) = .ok r ∧ "m5max".toList ∈ r.peers ∧ "a100".toList ∈ r.peers ∧
      ∀ made later, [.add "studio".toList samplePeer, .role "m5max".toList "coordinator".toList,
          .remove "a100".toList] = made ++ later → OneEntryPerHost (made.foldl RegistryCall.run r) := by
  obtain ⟨r, loaded, first, second⟩ : ∃ r, PeersRegistry.load (some twoPeers) = .ok r ∧ "m5max".toList ∈ r.peers ∧
      "a100".toList ∈ r.peers := ⟨_, rfl, by decide, by decide⟩
  refine ⟨r, loaded, first, second, (oneEntryPerHost_iff loaded _).mpr ⟨?_, ?_⟩⟩
  · intro s listed s' listed' _ _ k k' c canon canon' same same'
    rcases twoPeers_names listed with name | name <;> rcases twoPeers_names listed' with name' | name' <;>
      obtain rfl := Option.some.inj (canon.symm.trans name) <;>
      obtain rfl := Option.some.inj (canon'.symm.trans name')
    · rfl
    · exact absurd (same.trans same'.symm) (by decide)
    · exact absurd (same.trans same'.symm) (by decide)
    · rfl
  · intro made call later whole
    cases made with
    | nil =>
      obtain ⟨rfl, _⟩ := List.cons.inj whole
      right
      intro k key c canon canon'
      obtain ⟨s, listed, _, named⟩ := (parseIni_keys (parseIni_of_load loaded)).mp key
      rcases twoPeers_names listed with name | name <;> obtain rfl := Option.some.inj (named.symm.trans name) <;>
        exact absurd (canon.trans canon'.symm) (by decide)
    | cons head made =>
      have rest : [.role "m5max".toList "coordinator".toList, .remove "a100".toList] = made ++ call :: later :=
        (List.cons.inj whole).2
      have listed : call ∈ made ++ call :: later := by simp
      rw [← rest, List.mem_pair] at listed
      rcases listed with rfl | rfl <;> trivial

set_option maxRecDepth 4000 in
/-- `add_peer` stores a name as it is, and the canonical form of a name need not be canonical. -/
theorem second_name_of_host :
    (∃ r, PeersRegistry.load (some (peerText "m5max")) = .ok r ∧
      ¬OneEntryPerHost (RegistryCall.run r (.add "M5Max".toList samplePeer))) ∧
    ∃ r, PeersRegistry.load (some (peerText "x.local.local" ++ peerText "x")) = .ok r ∧ ¬OneEntryPerHost r := by
  constructor
  · refine ⟨_, rfl, fun one => ?_⟩
    have same := one "M5Max".toList (by decide) "m5max".toList (by decide) "m5max".toList (by decide) (by decide)
    exact absurd same (by decide)
  · refine ⟨_, rfl, fun one => ?_⟩
    have same := one "x.local".toList (by decide) "x".toList (by decide) "x".toList (by decide) (by decide)
    exact absurd same (by decide)

end ConvergioMesh
