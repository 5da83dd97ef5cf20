import ConvergioMesh.Peers.Lookup

/-!
# The coordinator

What `get_coordinator` and `list_active` find after any edits. A role is no office: several peers may
be coordinators, and the one with the first name is taken.
-/

namespace ConvergioMesh

open Library

def coordinatorRole : Text := "coordinator".toList

def PeersRegistry.getCoordinator (r : PeersRegistry) : Option (Text × PeerConfig) :=
  r.peers.toList.find? fun p => p.2.role = coordinatorRole

/-- The name that a call edits. -/
def RegistryCall.name : RegistryCall → Text
  | .add name _ => name
  | .remove name => name
  | .role name _ => name

/-- What a call makes of the entry of its name. -/
def RegistryCall.edit (held : Option PeerConfig) : RegistryCall → Option PeerConfig
  | .add _ config => some config
  | .remove _ => none
  | .role _ newRole => held.map fun p => { p with role := newRole }

/-- The entry of a name after these calls, of which only those that edit it count. -/
def entryAfter (r : PeersRegistry) (calls : List RegistryCall) (k : Text) : Option PeerConfig :=
  (calls.filter fun call => call.name = k).foldl RegistryCall.edit r.peers[k]?

variable {r : PeersRegistry} {k : Text} {cfg : PeerConfig}

theorem find_updateRole (name role : Text) :
    (r.updateRole name role).2.peers[k]? =
      if name = k then r.peers[k]?.map fun p => { p with role } else r.peers[k]? := by
  unfold PeersRegistry.updateRole
  by_cases same : name = k
  · subst same
    rw [if_pos rfl]
    cases held : r.peers[name]? with
    | none => exact held
    | some p => exact Std.ExtTreeMap.getElem?_insert_self
  · rw [if_neg same]
    split
    · rfl
    · exact Std.ExtTreeMap.getElem?_insert.trans (if_neg (mt Std.compare_eq_iff_eq.mp same))

theorem RegistryCall.run_find (call : RegistryCall) :
    (call.run r).peers[k]? = if call.name = k then call.edit r.peers[k]? else r.peers[k]? := by
  cases call with
  | add name config =>
    simp only [run, PeersRegistry.addPeer, Std.ExtTreeMap.getElem?_insert, Std.compare_eq_iff_eq]
    rfl
  | remove name =>
    simp only [run, PeersRegistry.removePeer, Std.ExtTreeMap.getElem?_erase, Std.compare_eq_iff_eq]
    rfl
  | role name newRole => exact find_updateRole name newRole

theorem runs_find (calls : List RegistryCall) (k : Text) :
    (calls.foldl RegistryCall.run r).peers[k]? = entryAfter r calls k := by
  unfold entryAfter
  induction calls generalizing r with
  | nil => rfl
  | cons call rest ih =>
    rw [List.foldl_cons, ih, call.run_find, List.filter_cons]
    by_cases same : call.name = k
    · simp only [same, if_true, decide_true, List.foldl_cons]
    · simp only [same, if_false, decide_false, Bool.false_eq_true]

theorem getCoordinator_iff : r.getCoordinator = some (k, cfg) ↔
    r.peers[k]? = some cfg ∧ cfg.role = coordinatorRole ∧
      ∀ k' cfg', r.peers[k']? = some cfg' → compare k' k = .lt → cfg'.role ≠ coordinatorRole := by
  have asymm : ∀ a b : Text × PeerConfig, compare a.1 b.1 = .lt → ¬compare b.1 a.1 = .lt :=
    fun a b less => Std.OrientedCmp.not_lt_of_lt less
  rw [PeersRegistry.getCoordinator, find?_ordered_iff Std.ExtTreeMap.ordered_keys_toList asymm]
  simp only [Prod.forall, Std.ExtTreeMap.mem_toList_iff_getElem?_eq_some, decide_eq_true_eq, decide_eq_false_iff_not, ne_eq]

theorem getCoordinator_eq_none_iff : r.getCoordinator = none ↔
    ∀ (k : Text) (cfg : PeerConfig), r.peers[k]? = some cfg → cfg.role ≠ coordinatorRole := by
  rw [PeersRegistry.getCoordinator, List.find?_eq_none]
  simp only [Prod.forall, Std.ExtTreeMap.mem_toList_iff_getElem?_eq_some, decide_eq_true_eq, ne_eq]

/-- After any edits each name has what its own edits make of it. The coordinator is the peer with the first name among
those that have the role then, and the active peers are those that are active then, in the order of the names. -/
theorem coordinator_after (r : PeersRegistry) (calls : List RegistryCall) :
    (∀ k : Text, (calls.foldl RegistryCall.run r).peers[k]? = entryAfter r calls k) ∧
    (∀ (k : Text) (cfg : PeerConfig), (calls.foldl RegistryCall.run r).getCoordinator = some (k, cfg) ↔
      entryAfter r calls k = some cfg ∧ cfg.role = coordinatorRole ∧
        ∀ k' cfg', entryAfter r calls k' = some cfg' → compare k' k = .lt → cfg'.role ≠ coordinatorRole) ∧
    (∀ k cfg, (k, cfg) ∈ (calls.foldl RegistryCall.run r).listActive ↔
      entryAfter r calls k = some cfg ∧ cfg.status = "active".toList) ∧
    (calls.foldl RegistryCall.run r).listActive.Pairwise fun p q => compare p.1 q.1 = .lt := by
  refine ⟨runs_find calls, fun k cfg => ?_, fun k cfg => ?_, Std.ExtTreeMap.ordered_keys_toList.filter _⟩
  · simp only [getCoordinator_iff, runs_find]
  · rw [PeersRegistry.listActive, List.mem_filter, Std.ExtTreeMap.mem_toList_iff_getElem?_eq_some, runs_find,
      decide_eq_true_eq]

/-- A peer that is made a coordinator is then found if it is known and no coordinator has an earlier name. Otherwise
`get_coordinator` answers as before. -/
theorem getCoordinator_promoted (r : PeersRegistry) (name : Text) :
    (r.updateRole name coordinatorRole).2.getCoordinator =
      match r.peers[name]?, r.getCoordinator with
      | none, found => found
      | some p, none => some (name, { p with role := coordinatorRole })
      | some p, some (k, cfg) =>
        if compare k name = .lt then some (k, cfg) else some (name, { p with role := coordinatorRole }) := by
  cases held : r.peers[name]? with
  | none => simp only [PeersRegistry.updateRole, held]
  | some p =>
    have own : (r.updateRole name coordinatorRole).2.peers[name]? = some { p with role := coordinatorRole } := by
      rw [find_updateRole, if_pos rfl, held]
      rfl
    have earlier {k : Text} (less : compare k name = .lt) :
        (r.updateRole name coordinatorRole).2.peers[k]? = r.peers[k]? := by
      refine (find_updateRole name coordinatorRole).trans (if_neg ?_)
      rintro rfl
      rw [Std.compare_eq_iff_eq.mpr rfl] at less
      cases less
    have takes (least : ∀ k cfg, r.peers[k]? = some cfg → compare k name = .lt → cfg.role ≠ coordinatorRole) :
        (r.updateRole name coordinatorRole).2.getCoordinator = some (name, { p with role := coordinatorRole }) :=
      getCoordinator_iff.mpr ⟨own, rfl, fun k cfg found less => least k cfg (earlier less ▸ found) less⟩
    cases before : r.getCoordinator with
    | none => exact takes fun k cfg found _ => getCoordinator_eq_none_iff.mp before k cfg found
    | some first =>
      obtain ⟨k, cfg⟩ := first
      obtain ⟨found, role, least⟩ := getCoordinator_iff.mp before
      dsimp only
      split
      · rename_i less
        refine getCoordinator_iff.mpr ⟨(earlier less).trans found, role, fun k' cfg' found' less' => ?_⟩
        exact least k' cfg' (earlier (Std.TransCmp.lt_trans less' less) ▸ found') less'
      -- Whoever has a name before this one has a name before the coordinator so far.
      · rename_i notLess
        refine takes fun k' cfg' found' less' => least k' cfg' found' ?_
        exact Std.TransCmp.lt_of_lt_of_isLE less' (not_imp_comm.mp Std.OrientedCmp.lt_of_not_isLE notLess)

end ConvergioMesh
