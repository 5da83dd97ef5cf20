import Mathlib.Order.Lattice
import Mathlib.Logic.Function.Basic

/-!
# Last writer wins

Replicas that keep one version for each key. A replica that is offered a version takes it if it
holds none for the key or if the offered one has the larger stamp; on a tie it keeps its own.
-/

namespace ConvergioMesh.Library

variable {K V T : Type} [DecidableEq K] [LinearOrder T]

/-- What a replica holds for a key after it is offered what another holds. -/
def merge (stamp : V → T) : Option V → Option V → Option V
  | held, none => held
  | none, offered => offered
  | some v, some w => if stamp w ≤ stamp v then some v else some w

def offer (stamp : V → T) (m : K → Option V) (k : K) (v : V) : K → Option V :=
  Function.update m k (merge stamp (m k) (some v))

def offers (stamp : V → T) (m : K → Option V) (batch : List (K × V)) : K → Option V :=
  batch.foldl (fun m kv => offer stamp m kv.1 kv.2) m

variable {stamp : V → T} {m n : K → Option V}

@[simp] theorem merge_none (held : Option V) : merge stamp held none = held := by cases held <;> rfl

@[simp] theorem none_merge (offered : Option V) : merge stamp none offered = offered := by
  cases offered <;> rfl

theorem merge_some (v w : V) :
    merge stamp (some v) (some w) = if stamp w ≤ stamp v then some v else some w := rfl

theorem merge_tie {v w : V} (h : stamp v = stamp w) : merge stamp (some v) (some w) = some v := by
  rw [merge_some, if_pos h.ge]

/-- What one side keeps the other keeps too, unless each keeps its own version of a tie. -/
theorem merge_swap {held offered : Option V} {v : V} (h : merge stamp held offered = some v) :
    ∃ w, merge stamp offered held = some w ∧ (v = w ∨ stamp v = stamp w ∧ held = some v ∧ offered = some w) := by
  cases held with
  | none => exact ⟨v, by rw [merge_none, ← h, none_merge], .inl rfl⟩
  | some x =>
    cases offered with
    | none => exact ⟨v, by rw [none_merge, ← h, merge_none], .inl rfl⟩
    | some y =>
      rcases lt_trichotomy (stamp x) (stamp y) with older | tie | newer
      · rw [merge_some, if_neg (not_le.mpr older)] at h
        exact ⟨v, by rw [merge_some, if_pos older.le, h], .inl rfl⟩
      · rw [merge_tie tie] at h
        obtain rfl := Option.some.inj h
        exact ⟨y, merge_tie tie.symm, .inr ⟨tie, rfl, rfl⟩⟩
      · rw [merge_some, if_pos newer.le] at h
        exact ⟨v, by rw [merge_some, if_neg (not_le.mpr newer), h], .inl rfl⟩

theorem merge_merge (v w : Option V) : merge stamp v (merge stamp w v) = merge stamp v w := by
  cases v with
  | none => simp
  | some x =>
    cases w with
    | none => simp [merge_some]
    | some y =>
      rw [merge_some y x]
      split
      · rfl
      · rename_i newer
        rw [merge_some, merge_some, if_pos le_rfl, if_pos (le_of_not_ge newer)]

theorem offer_same (k : K) (v : V) : offer stamp m k v k = merge stamp (m k) (some v) :=
  Function.update_self ..

theorem offer_other {k l : K} (v : V) (h : l ≠ k) : offer stamp m k v l = m l :=
  Function.update_of_ne h ..

theorem offers_absent {batch : List (K × V)} {k : K} (absent : ∀ v, (k, v) ∉ batch) :
    offers stamp m batch k = m k := by
  induction batch generalizing m with
  | nil => rfl
  | cons kv rest ih =>
    have different : k ≠ kv.1 := by
      rintro rfl
      exact absent kv.2 List.mem_cons_self
    rw [offers, List.foldl_cons]
    exact (ih fun v member => absent v (List.mem_cons_of_mem _ member)).trans (offer_other _ different)

theorem offers_present {batch : List (K × V)} (distinct : (batch.map (·.1)).Nodup) {k : K} {v : V}
    (present : (k, v) ∈ batch) : offers stamp m batch k = merge stamp (m k) (some v) := by
  induction batch generalizing m with
  | nil => cases present
  | cons kv rest ih =>
    obtain ⟨fresh, distinct⟩ := List.nodup_cons.mp distinct
    rw [offers, List.foldl_cons]
    rcases List.mem_cons.mp present with rfl | later
    · have absent : ∀ w, (k, w) ∉ rest := fun w member => fresh (List.mem_map.mpr ⟨_, member, rfl⟩)
      exact (offers_absent absent).trans (offer_same k v)
    · have different : k ≠ kv.1 := by
        rintro rfl
        exact fresh (List.mem_map.mpr ⟨_, later, rfl⟩)
      exact (ih distinct later).trans (by rw [offer_other _ different])

/-- A batch that lists everything another replica holds, each key once. -/
structure Lists (batch : List (K × V)) (n : K → Option V) : Prop where
  distinct : (batch.map (·.1)).Nodup
  mem_iff : ∀ k v, (k, v) ∈ batch ↔ n k = some v

theorem Lists.offers_eq {batch : List (K × V)} (h : Lists batch n) :
    offers stamp m batch = fun k => merge stamp (m k) (n k) := by
  funext k
  cases held : n k with
  | none =>
    rw [merge_none]
    refine offers_absent fun v member => ?_
    rw [(h.mem_iff k v).mp member] at held
    cases held
  | some v => exact offers_present h.distinct ((h.mem_iff k v).mpr held)

/-! ### Delivery in any order -/

/-- Versions of one key with one stamp are the same version. -/
def Consistent (stamp : V → T) (batch : List (K × V)) : Prop :=
  ∀ k v w, (k, v) ∈ batch → (k, w) ∈ batch → stamp v = stamp w → v = w

omit [DecidableEq K] [LinearOrder T] in
theorem Consistent.tail {kv : K × V} {batch : List (K × V)} (h : Consistent stamp (kv :: batch)) :
    Consistent stamp batch := fun k v w first second =>
  h k v w (List.mem_cons_of_mem _ first) (List.mem_cons_of_mem _ second)

/-- The newest of what was held and what was offered, and on a tie what was held. -/
def Newest (stamp : V → T) (held : Option V) (offered : V → Prop) (v : V) : Prop :=
  (held = some v ∨ offered v) ∧ (∀ h, held = some h → h = v ∨ stamp h < stamp v) ∧
    ∀ w, offered w → stamp w ≤ stamp v

theorem newest_of_newer {held : Option V} {w v : V} {later : V → Prop}
    (consistent : ∀ x, later x → stamp w = stamp x → w = x) (newer : ∀ h, held = some h → stamp h < stamp w) :
    Newest stamp (some w) later v ↔ Newest stamp held (fun x => x = w ∨ later x) v := by
  constructor
  · rintro ⟨source, above, rest⟩
    have upper : stamp w ≤ stamp v := (above w rfl).elim (fun same => same ▸ le_rfl) le_of_lt
    refine ⟨.inr (source.imp_left fun same => (Option.some.inj same).symm), fun h same => ?_, ?_⟩
    · exact .inr ((newer h same).trans_le upper)
    · rintro x (rfl | member)
      · exact upper
      · exact rest x member
  · rintro ⟨source, above, rest⟩
    have upper := rest w (.inl rfl)
    have source : v = w ∨ later v := source.resolve_left fun same => not_lt.mpr upper (newer v same)
    refine ⟨source.imp_left fun same => congrArg some same.symm, ?_, fun x member => rest x (.inr member)⟩
    intro x same
    obtain rfl := Option.some.inj same
    rcases upper.eq_or_lt with tie | below
    · exact .inl (source.elim Eq.symm fun member => consistent v member tie)
    · exact .inr below

theorem newest_offer {held : Option V} {w v : V} {later : V → Prop}
    (consistent : ∀ x, later x → stamp w = stamp x → w = x) :
    Newest stamp (merge stamp held (some w)) later v ↔ Newest stamp held (fun x => x = w ∨ later x) v := by
  cases held with
  | none =>
    rw [none_merge]
    exact newest_of_newer consistent fun h none => nomatch none
  | some h =>
    rw [merge_some]
    split
    · rename_i older
      constructor
      · rintro ⟨source, newer, rest⟩
        refine ⟨source.imp_right .inr, newer, ?_⟩
        rintro x (rfl | member)
        · exact (newer h rfl).elim (fun same => same ▸ older) fun less => older.trans less.le
        · exact rest x member
      · rintro ⟨source, newer, rest⟩
        refine ⟨?_, newer, fun x member => rest x (.inr member)⟩
        rcases source with same | rfl | member
        · exact .inl same
        · exact .inl (congrArg some ((newer h rfl).resolve_right older.not_gt))
        · exact .inr member
    · rename_i newest
      refine newest_of_newer consistent fun x same => ?_
      rw [← Option.some.inj same]
      exact not_le.mp newest

/-- What a replica ends up with depends only on which versions it was offered. -/
theorem offers_eq_some_iff {batch : List (K × V)} (consistent : Consistent stamp batch) {k : K} {v : V} :
    offers stamp m batch k = some v ↔ Newest stamp (m k) (fun w => (k, w) ∈ batch) v := by
  induction batch generalizing m with
  | nil =>
    constructor
    · intro held
      refine ⟨.inl held, fun h same => .inl ?_, fun w none => (nomatch none)⟩
      exact Option.some.inj (same.symm.trans held)
    · exact fun newest => newest.1.resolve_right fun none => nomatch none
  | cons kv rest ih =>
    rw [offers, List.foldl_cons]
    refine (ih consistent.tail).trans ?_
    by_cases here : k = kv.1
    · subst k
      have members : (fun w => (kv.1, w) ∈ kv :: rest) = fun w => w = kv.2 ∨ (kv.1, w) ∈ rest := by
        funext w
        rw [List.mem_cons, Prod.ext_iff, eq_iff_iff]
        exact or_congr_left ⟨fun same => same.2, fun same => ⟨rfl, same⟩⟩
      rw [offer_same, members]
      exact newest_offer fun x member =>
        consistent kv.1 kv.2 x List.mem_cons_self (List.mem_cons_of_mem _ member)
    · have members : (fun w => (k, w) ∈ kv :: rest) = fun w => (k, w) ∈ rest := by
        funext w
        rw [List.mem_cons, Prod.ext_iff, eq_iff_iff]
        exact or_iff_right fun same => here same.1
      rw [offer_other _ here, members]

/-- Nothing held or offered is lost except to a version that is not older. -/
theorem offers_covers {batch : List (K × V)} {k : K} {v : V} (source : m k = some v ∨ (k, v) ∈ batch) :
    ∃ w, offers stamp m batch k = some w ∧ stamp v ≤ stamp w := by
  induction batch generalizing m v with
  | nil => exact ⟨v, source.resolve_right fun none => (nomatch none), le_rfl⟩
  | cons kv rest ih =>
    obtain ⟨l, y⟩ := kv
    rw [offers, List.foldl_cons]
    by_cases here : k = l
    · subst l
      have first : ∃ w, offer stamp m k y k = some w ∧ stamp y ≤ stamp w ∧ ∀ x, m k = some x → stamp x ≤ stamp w := by
        rw [offer_same]
        cases held : m k with
        | none => exact ⟨y, none_merge _, le_rfl, fun x none => (nomatch none)⟩
        | some x =>
          rw [merge_some]
          split
          · rename_i older
            exact ⟨x, rfl, older, fun z same => Option.some.inj same ▸ le_rfl⟩
          · rename_i newer
            exact ⟨y, rfl, le_rfl, fun z same => Option.some.inj same ▸ (not_le.mp newer).le⟩
      obtain ⟨w, taken, offered, kept⟩ := first
      rcases source with held | listed
      · obtain ⟨x, ends, newer⟩ := ih (.inl taken)
        exact ⟨x, ends, (kept v held).trans newer⟩
      · rcases List.mem_cons.mp listed with same | later
        · obtain ⟨_, rfl⟩ := Prod.mk.inj same
          obtain ⟨x, ends, newer⟩ := ih (.inl taken)
          exact ⟨x, ends, offered.trans newer⟩
        · exact ih (.inr later)
    · refine ih (source.imp (fun held => ?_) fun listed => ?_)
      · rw [offer_other _ here, held]
      · rcases List.mem_cons.mp listed with same | later
        · exact absurd (Prod.mk.inj same).1 here
        · exact later

/-! ### Replicas that heard of everything -/

/-- What a replica holds was authored, and it holds nothing older than what was authored. -/
structure UpToDate (stamp : V → T) (authored : K → V → Prop) (m : K → Option V) : Prop where
  source : ∀ k v, m k = some v → authored k v
  covers : ∀ k v, authored k v → ∃ w, m k = some w ∧ stamp v ≤ stamp w

omit [DecidableEq K] in
theorem UpToDate.eq_some_iff {authored : K → V → Prop} (h : UpToDate stamp authored m)
    (consistent : ∀ k v w, authored k v → authored k w → stamp v = stamp w → v = w) {k : K} {v : V} :
    m k = some v ↔ Newest stamp none (authored k) v := by
  constructor
  · intro held
    refine ⟨.inr (h.source k v held), fun x none => (nomatch none), fun x listed => ?_⟩
    obtain ⟨w, held', newer⟩ := h.covers k x listed
    obtain rfl := Option.some.inj (held.symm.trans held')
    exact newer
  · rintro ⟨source, _, newest⟩
    have listed := source.resolve_left fun none => nomatch none
    obtain ⟨w, held, newer⟩ := h.covers k v listed
    have known := h.source k w held
    rw [held, consistent k v w listed known (newer.antisymm (newest w known))]

end ConvergioMesh.Library
