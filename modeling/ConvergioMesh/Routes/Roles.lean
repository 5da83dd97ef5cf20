import ConvergioMesh.Routes.Heartbeats

/-!
# Role assignments

The role routes over runs of requests: what is assigned, what the node finds for itself, and the
topology, which joins the assignments with the heartbeats.
-/

namespace ConvergioMesh

open Library

/-- A row of `mesh_role_assignments`. -/
structure RoleAssignment where
  peerName : String
  role : String
  updatedAt : String

/-- The table, with its PRIMARY KEY. -/
abbrev RoleAssignments := KeyedRows RoleAssignment.peerName

def validRoles : List String := ["all", "orchestrator", "kernel", "voice", "worker", "nightagent"]

structure RoleInfo where
  id : String
  description : String

def handleAvailableRoles : List RoleInfo :=
  [⟨"all", "All extensions loaded (single-node default)"⟩,
    ⟨"orchestrator", "Plans DB, platform services, worker coordination"⟩,
    ⟨"kernel", "Local AI kernel, Telegram, voice"⟩,
    ⟨"voice", "Voice I/O only"⟩,
    ⟨"worker", "Receives delegated tasks, runs agents"⟩,
    ⟨"nightagent", "Night agent workloads (knowledge sync, nightly jobs)"⟩]

structure SetRoleRequest where
  peerName : String
  role : String

/-- The connection, the statement, and `datetime('now')`. -/
structure RoleIo where
  pool : Except String Unit := .ok ()
  upsert : Except String Unit := .ok ()
  now : String := ""

def invalidRole (role : String) : String :=
  "invalid role '" ++ role ++ "'; valid: " ++ ", ".intercalate validRoles

/-- The upsert of `handle_set_role`. -/
def assignRole (now : String) (t : RoleAssignments) (body : SetRoleRequest) : RoleAssignments :=
  t.upsert ⟨body.peerName, body.role, now⟩ (fun r => { r with role := body.role, updatedAt := now }) fun _ same => same

/-- `handle_set_role`: the table, and the error or the assignment in the answer. -/
def handleSetRole (io : RoleIo) (t : RoleAssignments) (body : SetRoleRequest) :
    RoleAssignments × Except String SetRoleRequest :=
  if body.role ∉ validRoles then (t, .error (invalidRole body.role))
  else
    match io.pool with
    | .error why => (t, .error why)
    | .ok () =>
      match io.upsert with
      | .ok () => (assignRole io.now t body, .ok body)
      | .error why => (t, .error why)

structure NodeRole where
  peerName : String
  role : String

/-- `handle_get_role`; a query that fails is answered like a missing row. -/
def handleGetRole (pool : Except String Unit) (queryFault : Bool) (l : LocalNode) (t : RoleAssignments) :
    Except String NodeRole :=
  match pool with
  | .error why => .error why
  | .ok () => .ok ⟨l.name, if queryFault then "all" else ((t.find l.name).map (·.role)).getD "all"⟩

structure TopologyNode where
  peerName : String
  assignedRole : String
  assignedAt : String
  lastSeen : Option Int64
  status : String
  heartbeatRole : Option String
  deriving DecidableEq

/-- A row of the LEFT JOIN; without a heartbeat the comparison is NULL, and the status the ELSE. -/
def topologyNode (now : Int64) (heartbeats : Heartbeats) (r : RoleAssignment) : TopologyNode :=
  let heartbeat := heartbeats.find r.peerName
  { peerName := r.peerName
    assignedRole := r.role
    assignedAt := r.updatedAt
    lastSeen := heartbeat.map (·.lastSeen)
    status := if heartbeat.any (isOnline now) then "online" else "offline"
    heartbeatRole := heartbeat.bind (·.role) }

/-- `handle_topology`: the nodes ordered by name, and their number. -/
def handleTopology (io : QueryIo) (now : Int64) (heartbeats : Heartbeats) (t : RoleAssignments) :
    Except String (List TopologyNode × Nat) :=
  io.ready.map fun _ =>
    let nodes := if io.queryFault then []
      else (t.rows.insertionSort fun r s => r.peerName ≤ s.peerName).map (topologyNode now heartbeats)
    (nodes, nodes.length)

/-! ### Runs -/

/-- A request to set a role, and what it meets. -/
structure RolePost where
  io : RoleIo
  body : SetRoleRequest

/-- The row that the request writes, if it is answered with an assignment. -/
def RolePost.assigned (p : RolePost) : Option RoleAssignment :=
  if p.body.role ∉ validRoles then none
  else
    match p.io.pool, p.io.upsert with
    | .ok (), .ok () => some ⟨p.body.peerName, p.body.role, p.io.now⟩
    | _, _ => none

def setRoles (posts : List RolePost) : RoleAssignments :=
  posts.foldl (fun t p => (handleSetRole p.io t p.body).1) .empty

/-- The last assignment of a peer. -/
def lastAssigned (posts : List RolePost) (peer : String) : Option RoleAssignment :=
  KeyedRows.lastOf RoleAssignment.peerName peer (posts.filterMap (·.assigned))

theorem handleSetRole_cases (t : RoleAssignments) (p : RolePost) :
    (∃ why, p.assigned = none ∧ handleSetRole p.io t p.body = (t, .error why)) ∨
      p.body.role ∈ validRoles ∧ p.assigned = some ⟨p.body.peerName, p.body.role, p.io.now⟩ ∧
        handleSetRole p.io t p.body = (assignRole p.io.now t p.body, .ok p.body) := by
  unfold handleSetRole RolePost.assigned
  by_cases invalid : p.body.role ∉ validRoles
  · exact .inl ⟨_, if_pos invalid, if_pos invalid⟩
  · rw [if_neg invalid, if_neg invalid]
    cases p.io.pool with
    | error why => exact .inl ⟨why, rfl, rfl⟩
    | ok =>
      cases p.io.upsert with
      | error why => exact .inl ⟨why, rfl, rfl⟩
      | ok => exact .inr ⟨not_not.mp invalid, rfl, rfl⟩

theorem find_assignRole_same (now : String) (t : RoleAssignments) (body : SetRoleRequest) :
    (assignRole now t body).find body.peerName = some ⟨body.peerName, body.role, now⟩ := by
  refine KeyedRows.find_upsert_same.trans ?_
  cases held : t.find body.peerName with
  | none => rfl
  | some old =>
    obtain ⟨_, same⟩ := KeyedRows.find_eq_some.mp held
    simp [same]

theorem find_assignRole_other {now : String} {t : RoleAssignments} {body : SetRoleRequest} {peer : String}
    (other : peer ≠ body.peerName) : (assignRole now t body).find peer = t.find peer :=
  KeyedRows.find_upsert_other other

/-- The table holds the last assignment of each peer. -/
theorem setRoles_find (posts : List RolePost) (peer : String) :
    (setRoles posts).find peer = lastAssigned posts peer := by
  refine (KeyedRows.find_foldl_overwrite (fun t (p : RolePost) => (handleSetRole p.io t p.body).1) (·.assigned)
    ?_ ?_ ?_ posts peer).trans Option.or_none
  · intro t p r assigned
    rcases handleSetRole_cases t p with ⟨why, none, _⟩ | ⟨_, some, done⟩
    · rw [assigned] at none
      cases none
    · obtain rfl := Option.some.inj (some.symm.trans assigned)
      rw [done]
      exact find_assignRole_same ..
  · intro t p r assigned k other
    rcases handleSetRole_cases t p with ⟨why, none, _⟩ | ⟨_, some, done⟩
    · rw [assigned] at none
      cases none
    · obtain rfl := Option.some.inj (some.symm.trans assigned)
      rw [done]
      exact find_assignRole_other other
  · intro t p none
    rcases handleSetRole_cases t p with ⟨why, _, done⟩ | ⟨_, some, _⟩
    · exact congrArg Prod.fst done
    · rw [some] at none
      cases none

theorem lastAssigned_valid {posts : List RolePost} {peer : String} {r : RoleAssignment}
    (last : lastAssigned posts peer = some r) : r.role ∈ validRoles := by
  obtain ⟨p, _, assigned⟩ := List.mem_filterMap.mp (KeyedRows.lastOf_eq_some last).1
  rcases handleSetRole_cases .empty p with ⟨why, none, _⟩ | ⟨valid, some, _⟩
  · rw [assigned] at none
    cases none
  · obtain rfl := Option.some.inj (some.symm.trans assigned)
    exact valid

/-- After any requests the node's role is its last assignment, or `all`. The roles that are stored and answered are
among those that are offered. -/
theorem roles_after (posts : List RolePost) (l : LocalNode) :
    (∀ r ∈ (setRoles posts).rows, ∃ info ∈ handleAvailableRoles, info.id = r.role) ∧
    ∃ role, handleGetRole (.ok ()) false l (setRoles posts) = .ok ⟨l.name, role⟩ ∧
      role = ((lastAssigned posts l.name).map (·.role)).getD "all" ∧ ∃ info ∈ handleAvailableRoles, info.id = role := by
  have offered {role : String} : role ∈ validRoles → ∃ info ∈ handleAvailableRoles, info.id = role := by
    rw [show validRoles = handleAvailableRoles.map RoleInfo.id from rfl, List.mem_map]
    exact id
  refine ⟨fun r member => ?_, _, rfl, by rw [setRoles_find, if_neg Bool.false_ne_true], ?_⟩
  · have found := KeyedRows.find_eq_some.mpr ⟨member, rfl⟩
    rw [setRoles_find] at found
    exact offered (lastAssigned_valid found)
  · rw [setRoles_find]
    cases last : lastAssigned posts l.name with
    | none => exact offered (by decide)
    | some r => exact offered (lastAssigned_valid last)

/-! ### The topology -/

/-- The node of an assignment, after these heartbeats. -/
def assignedNode (c : Crypto) (secret : Option Bytes) (heard : List HeartbeatPost) (now : Int64) (r : RoleAssignment) :
    TopologyNode where
  peerName := r.peerName
  assignedRole := r.role
  assignedAt := r.updatedAt
  lastSeen := (lastHeard c secret heard r.peerName).map (·.lastSeen)
  status := if r.peerName ∈ onlinePeers c secret heard now then "online" else "offline"
  heartbeatRole := (lastHeard c secret heard r.peerName).bind (·.role)

theorem topologyNode_after {c : Crypto} {secret : Option Bytes} {heard : List HeartbeatPost} {now : Int64} :
    topologyNode now (receiveHeartbeats c secret heard) = assignedNode c secret heard now := by
  funext r
  have online : (lastHeard c secret heard r.peerName).any (isOnline now) = true ↔
      r.peerName ∈ onlinePeers c secret heard now := by
    rw [mem_onlinePeers, Option.any_eq_true]
  simp only [topologyNode, assignedNode, receiveHeartbeats_find, online]

/-- After any requests the topology has one node for each peer with an assignment, in the order of the names,
with its last assignment and its last accepted heartbeat. -/
theorem topology_after (c : Crypto) (secret : Option Bytes) (heard : List HeartbeatPost) (posts : List RolePost)
    (now : Int64) :
    ∃ nodes, handleTopology {} now (receiveHeartbeats c secret heard) (setRoles posts) = .ok (nodes, nodes.length) ∧
      nodes.Pairwise (·.peerName < ·.peerName) ∧
      ∀ node, node ∈ nodes ↔ (lastAssigned posts node.peerName).map (assignedNode c secret heard now) = some node := by
  have perm := List.perm_insertionSort (fun r s : RoleAssignment => r.peerName ≤ s.peerName) (setRoles posts).rows
  refine ⟨_, rfl, ?_, fun node => ?_⟩
  · rw [if_neg Bool.false_ne_true]
    exact List.pairwise_map.mpr (setRoles posts).sorted_rows
  · rw [if_neg Bool.false_ne_true, topologyNode_after, (perm.map _).mem_iff, List.mem_map, Option.map_eq_some_iff]
    constructor
    · rintro ⟨r, member, rfl⟩
      refine ⟨r, ?_, rfl⟩
      rw [← setRoles_find]
      exact KeyedRows.find_eq_some.mpr ⟨member, rfl⟩
    · rintro ⟨r, last, same⟩
      rw [← setRoles_find] at last
      exact ⟨r, (KeyedRows.find_eq_some.mp last).1, same⟩

end ConvergioMesh
