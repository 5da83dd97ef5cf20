import Mathlib.Order.Lattice
import ConvergioMesh.Capability.Refinement

/-!
# The order of the listing

The query of `list_all_capabilities` orders its rows by peer and name. The order inside each group is
kept, and the order of the groups is that of the map they are collected in.
-/

namespace ConvergioMesh

open Library

/-- A group for each peer of the table, with its rows in ascending order of their names and its newest time. -/
structure Grouped (c : CapabilityCodec) (t : CapabilityTable) (gs : List NodeCapabilities) : Prop where
  named : ∀ p, (∃ g ∈ gs, g.peerName = p) ↔ ∃ r ∈ t.rows, r.peerName = p
  once : (gs.map (·.peerName)).Nodup
  capabilities : ∀ g ∈ gs, ∃ rows : List CapabilityRow, rows.Perm (t.rows.filter fun r => r.peerName = g.peerName) ∧
    (rows.Pairwise fun r s => r.capabilityName < s.capabilityName) ∧ g.capabilities = rows.map (·.decode c)
  lastUpdated : ∀ g ∈ gs, (∃ r ∈ t.rows, r.peerName = g.peerName ∧ r.updatedAt = g.lastUpdated) ∧
    ∀ r ∈ t.rows, r.peerName = g.peerName → r.updatedAt ≤ g.lastUpdated

/-- The order that the query asks for. -/
def Ascending (gs : List NodeCapabilities) : Prop := gs.Pairwise fun g g' => g.peerName < g'.peerName

instance : Std.Total listOrder where
  total r s := by
    rcases lt_trichotomy r.peerName s.peerName with below | same | above
    · exact .inl (.inl below)
    · rcases le_total r.capabilityName s.capabilityName with le | le
      · exact .inl (.inr ⟨same, le⟩)
      · exact .inr (.inr ⟨same.symm, le⟩)
    · exact .inr (.inl above)

instance : IsTrans CapabilityRow listOrder where
  trans r s u first second := by
    rcases first with below | ⟨same, le⟩
    · rcases second with below' | ⟨same', _⟩
      · exact .inl (below.trans below')
      · exact .inl (same' ▸ below)
    · rcases second with below' | ⟨same', le'⟩
      · exact .inl (same ▸ below')
      · exact .inr ⟨same.trans same', le.trans le'⟩

variable {c : CapabilityCodec}

theorem max?_concat (l : List String) (s : String) : (l ++ [s]).max? = some (l.max?.elim s (max · s)) := by
  cases l with
  | nil => rfl
  | cons a l =>
    rw [List.cons_append, List.max?_cons', List.max?_cons', List.foldl_append]
    rfl

theorem lastUpdated_push (cap : NodeCapability) (updated : String) (g : NodeCapabilities) :
    (g.push cap updated).lastUpdated = max g.lastUpdated updated := by
  change (if g.lastUpdated < updated then updated else g.lastUpdated) = _
  rw [max_def_lt]

/-- The time of a group is the newest of its rows. -/
theorem lastUpdated_groups (rows : List CapabilityRow) (p : String) :
    ((rows.foldl (groupRow c) KeyedRows.empty).find p).map (·.lastUpdated) =
      ((rows.filter fun r => r.peerName = p).map (·.updatedAt)).max? := by
  apply find_groups_inv (c := c) fun rs g => g.map (·.lastUpdated) = (rs.map (·.updatedAt)).max?
  · rfl
  · intro rs g r newest
    rw [List.map_append, List.map_singleton, max?_concat, ← newest]
    cases g with
    | none => rfl
    | some g => exact congrArg some (lastUpdated_push _ _ g)

theorem peerRows_ascending (t : CapabilityTable) (p : String) :
    ((t.rows.insertionSort listOrder).filter fun r => r.peerName = p).Pairwise
      fun r s => r.capabilityName < s.capabilityName := by
  have distinct : (t.rows.insertionSort listOrder).Pairwise fun r s => r.key ≠ s.key := by
    rw [← List.pairwise_map (R := (· ≠ ·))]
    exact ((List.perm_insertionSort _ _).map _).nodup_iff.mpr t.distinct
  have ordered := ((List.pairwise_insertionSort listOrder t.rows).and distinct).filter fun r => decide (r.peerName = p)
  refine ordered.imp_of_mem fun {r s} here here' ⟨order, different⟩ => ?_
  have same : r.peerName = s.peerName := (of_decide_eq_true (List.mem_filter.mp here).2).trans
    (of_decide_eq_true (List.mem_filter.mp here').2).symm
  rcases order with below | ⟨_, le⟩
  · exact absurd (same ▸ below) (lt_irrefl _)
  · exact lt_of_le_of_ne le fun named => different (Prod.ext same named)

section

variable {iterate : List NodeCapabilities → List NodeCapabilities} (permutes : ∀ gs, (iterate gs).Perm gs)
  (t : CapabilityTable)

include permutes

theorem listing_grouped : Grouped c t (listAllCapabilities c iterate t) := by
  have sorted : (t.rows.insertionSort listOrder).Perm t.rows := List.perm_insertionSort _ _
  let groups := (t.rows.insertionSort listOrder).foldl (groupRow c) KeyedRows.empty
  have listed : (listAllCapabilities c iterate t).Perm groups.rows := permutes _
  have lists : Lists (listAllCapabilities c iterate t) (getPeerCapabilities c id t) :=
    lists_all (fun rows => .refl rows) permutes t
  have found {g : NodeCapabilities} (member : g ∈ listAllCapabilities c iterate t) : groups.find g.peerName = some g :=
    KeyedRows.find_eq_some.mpr ⟨listed.mem_iff.mp member, rfl⟩
  constructor
  · intro p
    rw [lists.listed_iff, getPeerCapabilities, id, Ne, List.map_eq_nil_iff, List.filter_eq_nil_iff]
    simp only [decide_eq_true_eq, not_forall, not_not, exists_prop]
  · exact lists.distinct
  · intro g member
    refine ⟨_, sorted.filter _, peerRows_ascending t g.peerName, ?_⟩
    have collected := find_groups (c := c) (t.rows.insertionSort listOrder) g.peerName
    rw [found member] at collected
    split at collected
    · cases collected
    · exact Option.some.inj collected
  · intro g member
    have newest := lastUpdated_groups (c := c) (t.rows.insertionSort listOrder) g.peerName
    rw [found member] at newest
    obtain ⟨attained, bound⟩ := List.max?_eq_some_iff.mp newest.symm
    constructor
    · obtain ⟨r, selected, dated⟩ := List.mem_map.mp attained
      obtain ⟨stored, here⟩ := List.mem_filter.mp ((sorted.filter _).mem_iff.mp selected)
      exact ⟨r, stored, of_decide_eq_true here, dated⟩
    · intro r stored here
      refine bound _ (List.mem_map_of_mem (List.mem_filter.mpr ⟨sorted.mem_iff.mpr stored, decide_eq_true here⟩))

end

theorem apart_of_ascending_reverse {gs : List NodeCapabilities} (up : Ascending gs) (down : Ascending gs.reverse) :
    gs.Pairwise fun _ _ => False :=
  (up.and (List.pairwise_reverse.mp down)).imp fun both => lt_asymm both.1 both.2

theorem at_most_one {gs : List NodeCapabilities} (separate : gs.Pairwise fun _ _ => False) {g g' : NodeCapabilities}
    (member : g ∈ gs) (member' : g' ∈ gs) : g = g' := by
  cases separate with
  | nil => cases member
  | cons apart rest =>
    rename_i l
    cases l with
    | nil => rw [List.mem_singleton.mp member, List.mem_singleton.mp member']
    | cons h l => exact (apart h List.mem_cons_self).elim

/-- Whatever the order of the map, the groups are right. They come in ascending order under every order of the map
exactly if there is at most one peer. -/
theorem listing_ascends_iff (t : CapabilityTable) :
    (∀ iterate : List NodeCapabilities → List NodeCapabilities, (∀ gs, (iterate gs).Perm gs) →
      Grouped c t (listAllCapabilities c iterate t)) ∧
    ((∀ iterate : List NodeCapabilities → List NodeCapabilities, (∀ gs, (iterate gs).Perm gs) →
        Grouped c t (listAllCapabilities c iterate t) ∧ Ascending (listAllCapabilities c iterate t)) ↔
      ∀ r ∈ t.rows, ∀ s ∈ t.rows, r.peerName = s.peerName) := by
  refine ⟨fun iterate permutes => listing_grouped permutes t, fun claimed r stored s stored' => ?_,
    fun single iterate permutes => ⟨listing_grouped permutes t, ?_⟩⟩
  · obtain ⟨grouped, up⟩ := claimed id fun gs => .refl gs
    obtain ⟨_, down⟩ := claimed List.reverse fun gs => List.reverse_perm gs
    obtain ⟨g, member, named⟩ := (grouped.named r.peerName).mpr ⟨r, stored, rfl⟩
    obtain ⟨g', member', named'⟩ := (grouped.named s.peerName).mpr ⟨s, stored', rfl⟩
    rw [← named, ← named', at_most_one (apart_of_ascending_reverse up down) member member']
  · have grouped := listing_grouped (c := c) permutes t
    have distinct := grouped.once
    rw [List.nodup_iff_pairwise_ne, List.pairwise_map] at distinct
    refine distinct.imp_of_mem fun {g g'} member member' different => ?_
    obtain ⟨r, stored, here⟩ := (grouped.named g.peerName).mp ⟨g, member, rfl⟩
    obtain ⟨s, stored', here'⟩ := (grouped.named g'.peerName).mp ⟨g', member', rfl⟩
    exact absurd (here.symm.trans ((single r stored s stored').trans here')) different

def pairTable : CapabilityTable where
  rows := [⟨"a100", "llm", "1.0.0", "[\"gpu\"]", "\x7b\x7d", "2026-01-01 00:00:00"⟩,
    ⟨"m4", "llm", "1.0.0", "[\"gpu\"]", "\x7b\x7d", "2026-01-01 00:00:00"⟩]
  distinct := by decide

/-- A map of two peers that is iterated from the second to the first. -/
theorem pairTable_unordered :
    (∀ gs : List NodeCapabilities, gs.reverse.Perm gs) ∧
    (listAllCapabilities gpuCodec List.reverse pairTable).map (·.peerName) = ["m4", "a100"] ∧
    ¬(Grouped gpuCodec pairTable (listAllCapabilities gpuCodec List.reverse pairTable) ∧
      Ascending (listAllCapabilities gpuCodec List.reverse pairTable)) := by
  have names : (listAllCapabilities gpuCodec List.reverse pairTable).map (·.peerName) = ["m4", "a100"] := by decide
  refine ⟨fun gs => List.reverse_perm gs, names, fun claimed => ?_⟩
  have ordered := List.pairwise_map.mpr claimed.2
  rw [names] at ordered
  exact absurd ordered (by decide)

end ConvergioMesh
