/-! Runs of a guarded step function, with the induction rules used for invariants. -/

namespace ConvergioMesh.Library

/-- A run all of whose steps meet `ok` in the state they start from. -/
inductive Run {σ ε : Type} (step : σ → ε → Option σ) (ok : σ → ε → Prop) : σ → σ → Prop where
  | refl (s : σ) : Run step ok s s
  | snoc {s t u : σ} {a : ε} : Run step ok s t → ok t a → step t a = some u → Run step ok s u

variable {σ ε : Type} {step : σ → ε → Option σ} {ok ok' : σ → ε → Prop} {s t u : σ}

theorem Run.single {a : ε} (allowed : ok s a) (h : step s a = some t) : Run step ok s t :=
  .snoc (.refl s) allowed h

theorem Run.trans (first : Run step ok s t) (second : Run step ok t u) : Run step ok s u := by
  induction second with
  | refl => exact first
  | snoc _ allowed h ih => exact .snoc ih allowed h

theorem Run.weaken (weaker : ∀ s a, ok s a → ok' s a) (run : Run step ok s t) : Run step ok' s t := by
  induction run with
  | refl => exact .refl _
  | snoc _ allowed h ih => exact .snoc ih (weaker _ _ allowed) h

/-- What every allowed step preserves holds at the end of a run. -/
theorem Run.invariant {inv : σ → Prop} (preserve : ∀ s a t, inv s → ok s a → step s a = some t → inv t)
    (run : Run step ok s t) (start : inv s) : inv t := by
  induction run with
  | refl => exact start
  | snoc _ allowed h ih => exact preserve _ _ _ ih allowed h

/-- A preorder that relates the two ends of every allowed step relates the two ends of a run. -/
theorem Run.relates {inv : σ → Prop} (rel : σ → σ → Prop) (refl : ∀ s, rel s s)
    (trans : ∀ s t u, rel s t → rel t u → rel s u)
    (preserve : ∀ s a t, inv s → ok s a → step s a = some t → inv t)
    (related : ∀ s a t, inv s → ok s a → step s a = some t → rel s t)
    (run : Run step ok s t) (start : inv s) : rel s t := by
  induction run with
  | refl => exact refl _
  | snoc before allowed h ih =>
    exact trans _ _ _ ih (related _ _ _ (before.invariant preserve start) allowed h)

def replay (step : σ → ε → Option σ) (ok : σ → ε → Bool) : σ → List ε → Option σ
  | s, [] => some s
  | s, a :: rest => if ok s a then (step s a).bind (replay step ok · rest) else none

/-- A replayed list is a run whose steps are events of the list that passed the check. -/
theorem replay_run {check : σ → ε → Bool} {events : List ε} (h : replay step check s events = some t) :
    Run step (fun s a => a ∈ events ∧ check s a = true) s t := by
  induction events generalizing s with
  | nil =>
    obtain rfl := Option.some.inj h
    exact .refl _
  | cons a rest ih =>
    unfold replay at h
    split at h
    · rename_i allowed
      obtain ⟨next, moved, rest⟩ := Option.bind_eq_some_iff.mp h
      exact (Run.single ⟨List.mem_cons_self, allowed⟩ moved).trans
        ((ih rest).weaken fun _ _ listed => ⟨List.mem_cons_of_mem _ listed.1, listed.2⟩)
    · cases h

end ConvergioMesh.Library
