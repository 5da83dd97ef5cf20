/-!
# Outbox

A sender hands its items over to a receiver in rounds. A round reads the cursor, takes a batch of
the items above it, delivers the batch and then moves the cursor. Items that appear after the batch
was taken are late. An item is covered when it is done or still above the cursor.
-/

namespace ConvergioMesh.Library

/-- No cursor, or one strictly below the stamp. -/
def Below {T : Type} [LT T] (cursor : Option T) (u : T) : Prop := ∀ c, cursor = some c → c < u

@[simp] theorem below_none {T : Type} [LT T] (u : T) : Below none u := fun _ h => nomatch h

@[simp] theorem below_some {T : Type} [LT T] {c u : T} : Below (some c) u ↔ c < u := by
  simp [Below]

instance {T : Type} [LT T] [DecidableLT T] (cursor : Option T) (u : T) : Decidable (Below cursor u) :=
  match cursor with
  | none => .isTrue (below_none u)
  | some _ => decidable_of_iff _ below_some.symm

/-- How far the current round has got. -/
inductive Stage (I T : Type) where
  | idle
  | opened (since : Option T)
  | taken (since : Option T) (batch : I → Prop)
  | delivered (since : Option T)

structure Outbox (I T : Type) where
  cursor : Option T
  item : I → Prop
  done : I → Prop
  /-- What appeared since the batch was taken. -/
  late : I → Prop
  stage : Stage I T

namespace Outbox

variable {I T : Type} [LT T]

/-- The cursor a round works with: the stored one, or none. -/
def Reads (o : Outbox I T) (since : Option T) : Prop := since = none ∨ since = o.cursor

/-- What a round has not lost sight of. -/
def Staged (o : Outbox I T) : Stage I T → Prop
  | .idle => True
  | .opened since => o.Reads since
  | .taken since batch => o.Reads since ∧ ∀ i, o.item i → o.done i ∨ batch i ∨ o.late i
  | .delivered since => o.Reads since ∧ ∀ i, o.item i → o.done i ∨ o.late i

structure Sound (stamp : I → T) (o : Outbox I T) : Prop where
  covered : ∀ i, o.item i → o.done i ∨ Below o.cursor (stamp i)
  staged : o.Staged o.stage

variable {stamp : I → T} {o : Outbox I T} {since : Option T} {batch : I → Prop}

theorem Reads.below {u : T} (h : o.Reads since) (below : Below o.cursor u) : Below since u := by
  rcases h with rfl | rfl
  · exact below_none u
  · exact below

/-- Items may disappear or be done; new ones are late, and done or above the cursor. -/
theorem Sound.change (h : o.Sound stamp) {item done late : I → Prop}
    (items : ∀ i, item i → o.item i ∨ late i ∧ (done i ∨ Below o.cursor (stamp i)))
    (dones : ∀ i, o.done i → done i) (lates : ∀ i, o.late i → late i) :
    Sound stamp { o with item := item, done := done, late := late } where
  covered i here := by
    rcases items i here with old | ⟨_, new⟩
    · exact (h.covered i old).imp_left (dones i)
    · exact new
  staged := by
    have staged := h.staged
    have kept : ∀ i, item i → o.item i ∨ late i := fun i here => (items i here).imp_right And.left
    cases stage : o.stage with
    | idle => trivial
    | opened since =>
      rw [stage] at staged
      exact staged
    | taken since batch =>
      rw [stage] at staged
      refine ⟨staged.1, fun i here => ?_⟩
      rcases kept i here with old | new
      · exact (staged.2 i old).imp (dones i) (Or.imp_right (lates i))
      · exact .inr (.inr new)
    | delivered since =>
      rw [stage] at staged
      refine ⟨staged.1, fun i here => ?_⟩
      rcases kept i here with old | new
      · exact (staged.2 i old).imp (dones i) (lates i)
      · exact .inr new

theorem Sound.opened (h : o.Sound stamp) (reads : o.Reads since) : Sound stamp { o with stage := .opened since } :=
  ⟨h.covered, reads⟩

theorem Sound.take (h : o.Sound stamp) (opened : o.stage = .opened since)
    (all : ∀ i, o.item i → Below since (stamp i) → batch i) (late : I → Prop) :
    Sound stamp { o with late := late, stage := .taken since batch } := by
  have reads : o.Reads since := by
    have staged := h.staged
    rwa [opened] at staged
  refine ⟨h.covered, reads, fun i here => ?_⟩
  rcases h.covered i here with done | above
  · exact .inl done
  · exact .inr (.inl (all i here (reads.below above)))

theorem Sound.deliver (h : o.Sound stamp) (taken : o.stage = .taken since batch) {done : I → Prop}
    (dones : ∀ i, o.done i → done i) (delivered : ∀ i, o.item i → batch i → done i) :
    Sound stamp { o with done := done, stage := .delivered since } := by
  have staged := h.staged
  rw [taken] at staged
  refine ⟨fun i here => (h.covered i here).imp_left (dones i), staged.1, fun i here => ?_⟩
  rcases staged.2 i here with old | new | late
  · exact .inl (dones i old)
  · exact .inl (delivered i here new)
  · exact .inr late

/-- The cursor may move to anything below the late items that are not done. -/
theorem Sound.advance (h : o.Sound stamp) (delivered : o.stage = .delivered since) {cursor : Option T}
    (clear : ∀ i, o.item i → o.late i → ¬o.done i → Below since (stamp i) → Below cursor (stamp i)) :
    Sound stamp { o with cursor := cursor, stage := .idle } := by
  have staged := h.staged
  rw [delivered] at staged
  refine ⟨fun i here => ?_, trivial⟩
  by_cases done : o.done i
  · exact .inl done
  · have late := (staged.2 i here).resolve_left done
    have above := (h.covered i here).resolve_left done
    exact .inr (clear i here late done (staged.1.below above))

end Outbox

end ConvergioMesh.Library
