import ConvergioMesh.Peers.Lookup
import ConvergioMesh.Sync.Visits
import ConvergioMesh.Transport.Fetch

/-!
# Cross polling

The plan summary of this node, or of the peer that a query names. The peer is looked up in the
registry and asked without `via`, so it answers for itself.
-/

namespace ConvergioMesh

open Library

/-! ### The local summary -/

/-- The connection and the two queries. -/
structure SummaryIo where
  pool : Except String Unit := .ok ()
  countFault : Bool := false
  latestFault : Bool := false

/-- `SELECT count(*) FROM plans`. -/
def planCount (fault : Bool) (db : Database) : Nat :=
  if fault then 0 else (db.tables "plans").elim 0 (·.rows.length)

/-- `SELECT id FROM plans ORDER BY id DESC LIMIT 1`, if it is an integer. -/
def latestPlanId (fault : Bool) (db : Database) : Option Int64 :=
  if fault then none
  else
    (db.tables "plans").bind fun t =>
      if "id" ∈ t.schema.names then
        (t.rows.insertionSort (idOrder t.schema)).getLast?.bind fun r =>
          match r.cell "id" with
          | .integer i => some i
          | _ => none
      else none

def localPlansSummary (io : SummaryIo) (db : Database) : Json :=
  match io.pool with
  | .error why => errorBody why
  | .ok () =>
    .object [
      ("latest_plan_id", (latestPlanId io.latestFault db).elim .null fun i => .number (.ofInt64 i)),
      ("plan_count", .number (.posInt (.ofNat (planCount io.countFault db)))),
      ("source", .string "local")]

/-! ### The proxy -/

/-- The texts of the errors, where `io` has one of the system. -/
def PeersError.text (ioText : Text) : PeersError → Text
  | .io => "I/O error: ".toList ++ ioText
  | .missingField peer field =>
    "missing required field '".toList ++ field ++ "' in peer '".toList ++ peer ++ "'".toList
  | .notFound name => "peer '".toList ++ name ++ "' not found".toList
  | .parse line msg => "parse error at line ".toList ++ (toString line).toList ++ ": ".toList ++ msg

def peerConfigToFields (cfg : PeerConfig) : Kv :=
  let f : Kv := (∅ : Kv).insert "tailscale_ip".toList cfg.tailscaleIp
  let f := cfg.lanIp.elim f (f.insert "lan_ip".toList)
  cfg.thunderboltIp.elim f (f.insert "thunderbolt_ip".toList)

/-- `peers.conf`, the sockets and the request of a proxied poll. -/
structure ProxyIo where
  conf : Option Text
  ioText : Text := []
  connects : Text → Bool
  client : Except String Unit := .ok ()
  /-- `CONVERGIO_AUTH_TOKEN`. -/
  token : Option String := none
  /-- What the task join error says. -/
  joinText : String := ""
  get : (url : Text) → (authorization : Option String) → Except String FetchResponse

def resolvePeerAddr (io : ProxyIo) (peerName : Text) : Except Stop (Except Text (Text × Text)) :=
  match PeersRegistry.load io.conf with
  | .error .panicked => .error .panicked
  | .error (.error e) => .ok (.error ("load peers.conf: ".toList ++ e.text io.ioText))
  | .ok registry =>
    match registry.getPeer peerName with
    | none => .ok (.error ("peer '".toList ++ peerName ++ "' not found".toList))
    | some (canonical, cfg) =>
      match resolveBestAddr io.connects (peerConfigToFields cfg) with
      | none => .ok (.error ("peer '".toList ++ canonical ++ "' unreachable".toList))
      | some addr => .ok (.ok (canonical, addr))

/-- An answer with status 200, a bad gateway, or a handler that panics. -/
inductive SummaryAnswer where
  | ok (body : Json)
  | badGateway (message : String)
  | panicked

/-- `body[key] = value` on a map; it panics on any other value but null. -/
def Json.setEntry (body : Json) (key : String) (value : Json) : Option Json :=
  match body with
  | .object entries => some (.object (entries.filter (·.1 < key) ++ (key, value) :: entries.filter (key < ·.1)))
  | .null => some (.object [(key, value)])
  | _ => none

def summaryUrl (addr : Text) : Text := "http://".toList ++ addr ++ "/api/mesh/plans/summary".toList

def proxyToPeer (io : ProxyIo) (peerName : Text) : SummaryAnswer :=
  match resolvePeerAddr io peerName with
  | .error _ => .ok (errorBody ("task join: " ++ io.joinText))
  | .ok (.error msg) => .badGateway (String.ofList msg)
  | .ok (.ok (canonical, addr)) =>
    match io.client with
    | .error e => .ok (errorBody ("http client: " ++ e))
    | .ok () =>
      match io.get (summaryUrl addr) (io.token.bind bearerFromToken) with
      | .error e => .badGateway ("peer request failed: " ++ e)
      | .ok response =>
        if !response.status.isSuccess then .badGateway ("peer returned " ++ response.status.text)
        else
          match response.json with
          | .error e => .badGateway ("parse peer response: " ++ e)
          | .ok body =>
            match body.setEntry "source" (.string (String.ofList canonical)) with
            | some named => .ok named
            | none => .panicked

def handlePlansSummary (io : SummaryIo) (proxy : ProxyIo) (db : Database) : Option Text → SummaryAnswer
  | some peerName => proxyToPeer proxy peerName
  | none => .ok (localPlansSummary io db)

/-! ### Addresses -/

/-- The fields that are resolved, in the order in which `peer_config_to_fields` takes them. -/
def PeerConfig.pollFields (p : PeerConfig) : List (String × Option Text) :=
  [("tailscale_ip", some p.tailscaleIp), ("lan_ip", p.lanIp), ("thunderbolt_ip", p.thunderboltIp)]

theorem peerConfigToFields_eq (p : PeerConfig) : peerConfigToFields p = insertAll ∅ (written p.pollFields) := by
  simp only [PeerConfig.pollFields, insertAll_written_cons, insertAll_written_nil]
  rfl

/-- The cross poll asks a peer where a round visits it. -/
theorem resolve_peerConfigToFields (connects : Text → Bool) (p : PeerConfig) :
    resolveBestAddr connects (peerConfigToFields p) = p.addresses.find? connects := by
  have distinct : (p.pollFields.map Prod.fst).Nodup := by
    rw [show p.pollFields.map Prod.fst = ["tailscale_ip", "lan_ip", "thunderbolt_ip"] from rfl]
    decide
  have get (key : String) : (peerConfigToFields p)[key.toList]? = (p.pollFields.lookup key).join := by
    rw [peerConfigToFields_eq, getElem?_insertAll distinct, Std.ExtTreeMap.getElem?_empty, Option.or_none]
  exact resolveBestAddr_eq (get _) (get _) (congrArg _ (get _))

/-! ### Who answers -/

/-- The answer of a node with these plans, under this source. -/
def summaryBody (latest : Option Int64) (count : Nat) (source : String) : Json :=
  .object [("latest_plan_id", latest.elim .null fun i => .number (.ofInt64 i)),
    ("plan_count", .number (.posInt (.ofNat count))), ("source", .string source)]

def sourceOf (body : Json) : Option String := (body.asObject.bind (·.lookup "source")).bind Json.asStr

/-- A node that listens: its connection, and its database. -/
structure Listener where
  io : SummaryIo
  db : Database

/-- What a listener is asked without `via`. -/
def Listener.answer (n : Listener) (source : String) : Json :=
  match n.io.pool with
  | .ok () => summaryBody (latestPlanId n.io.latestFault n.db) (planCount n.io.countFault n.db) source
  | .error why => .object [("error", .string why), ("source", .string source)]

/-- Requests reach the nodes that listen at their URLs, and their answers are read as they were written. -/
def ProxyIo.to (io : ProxyIo) (refused : String) (listens : Text → Option Listener) : ProxyIo :=
  { io with
    get := fun url _ =>
      match listens url with
      | some n =>
        match handlePlansSummary n.io io n.db none with
        | .ok body => .ok ⟨.ok, .ok body⟩
        | .badGateway _ | .panicked => .error refused
      | none => .error refused }

theorem setEntry_summary (n : Listener) (source : String) :
    (localPlansSummary n.io n.db).setEntry "source" (.string source) = some (n.answer source) := by
  have error : "error" < "source" ∧ ¬"source" < "error" := by decide
  have latest : "latest_plan_id" < "source" ∧ ¬"source" < "latest_plan_id" := by decide
  have count : "plan_count" < "source" ∧ ¬"source" < "plan_count" := by decide
  have self : ¬"source" < "source" := by decide
  unfold localPlansSummary Listener.answer
  cases n.io.pool with
  | error why => simp only [Json.setEntry, errorBody, List.filter_cons, List.filter_nil, error, decide_true, decide_false,
      if_true, Bool.false_eq_true, if_false, List.singleton_append]
  | ok => simp only [Json.setEntry, summaryBody, List.filter_cons, List.filter_nil, latest, count, self, decide_true,
      decide_false, if_true, Bool.false_eq_true, if_false, List.cons_append, List.nil_append]

theorem sourceOf_answer (n : Listener) (source : String) : sourceOf (n.answer source) = some source := by
  unfold Listener.answer
  cases n.io.pool <;> rfl

theorem resolvePeerAddr_ok_iff {io : ProxyIo} {name k addr : Text} :
    resolvePeerAddr io name = .ok (.ok (k, addr)) ↔
      ∃ registry cfg, PeersRegistry.load io.conf = .ok registry ∧ registry.getPeer name = some (k, cfg) ∧
        cfg.addresses.find? io.connects = some addr := by
  unfold resolvePeerAddr
  cases PeersRegistry.load io.conf with
  | error stop => cases stop <;> simp
  | ok registry =>
    dsimp only
    cases named : registry.getPeer name with
    | none => simp [named]
    | some found =>
      obtain ⟨canonical, cfg⟩ := found
      dsimp only
      rw [resolve_peerConfigToFields]
      cases reached : cfg.addresses.find? io.connects with
      | none =>
        simp only [Except.ok.injEq, reduceCtorEq, false_iff]
        rintro ⟨registry, cfg, ⟨rfl⟩, known, found⟩
        rw [named] at known
        cases known
        rw [reached] at found
        cases found
      | some at_addr =>
        constructor
        · rintro ⟨⟩
          exact ⟨registry, cfg, rfl, named, reached⟩
        · rintro ⟨registry, cfg, ⟨rfl⟩, known, found⟩
          rw [named] at known
          cases known
          rw [reached] at found
          cases found
          rfl

/-- An answer that names a source comes from the peer that the registry has under this name or alias, asked at its
first reachable address, and is that peer's own. -/
theorem proxied_iff (io : ProxyIo) (refused : String) (listens : Text → Option Listener) (own : SummaryIo) (db : Database)
    (name : Text) (body : Json) (source : String) :
    handlePlansSummary own (io.to refused listens) db (some name) = .ok body ∧ sourceOf body = some source ↔
      ∃ registry k cfg addr n, PeersRegistry.load io.conf = .ok registry ∧ registry.getPeer name = some (k, cfg) ∧
        cfg.addresses.find? io.connects = some addr ∧ io.client = .ok () ∧ listens (summaryUrl addr) = some n ∧
        body = n.answer source ∧ source = String.ofList k := by
  have resolved : resolvePeerAddr (io.to refused listens) name = resolvePeerAddr io name := rfl
  have unnamed (why : String) : sourceOf (errorBody why) = none := rfl
  constructor
  · rintro ⟨answered, named⟩
    unfold handlePlansSummary proxyToPeer at answered
    dsimp only at answered
    rw [resolved] at answered
    -- A handler that could not ask anyone answers 200 with an error, in which no source is named.
    split at answered
    · cases answered
      cases (unnamed _).symm.trans named
    · cases answered
    rename_i k addr found
    obtain ⟨registry, cfg, loaded, known, reached⟩ := resolvePeerAddr_ok_iff.mp found
    split at answered
    · cases answered
      cases (unnamed _).symm.trans named
    rename_i client
    cases listening : listens (summaryUrl addr) with
    | none =>
      simp only [ProxyIo.to, listening] at answered
      cases answered
    | some n =>
      simp only [ProxyIo.to, listening, handlePlansSummary, Status.isSuccess, Bool.not_true, Bool.false_eq_true, if_false,
        setEntry_summary] at answered
      cases answered
      rw [sourceOf_answer] at named
      obtain rfl := Option.some.inj named
      exact ⟨registry, k, cfg, addr, n, loaded, known, reached, client, listening, rfl, rfl⟩
  · rintro ⟨registry, k, cfg, addr, n, loaded, known, reached, client, listening, rfl, rfl⟩
    have found := resolvePeerAddr_ok_iff.mpr ⟨registry, cfg, loaded, known, reached⟩
    refine ⟨?_, sourceOf_answer n _⟩
    unfold handlePlansSummary proxyToPeer
    dsimp only
    rw [resolved, found]
    dsimp only
    rw [show (io.to refused listens).client = .ok () from client]
    simp only [ProxyIo.to, listening, handlePlansSummary, Status.isSuccess, Bool.not_true, Bool.false_eq_true, if_false,
      setEntry_summary]

end ConvergioMesh
