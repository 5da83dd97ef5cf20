/-!
# Services

A service answers one request after another, each from the state that the last one left.
-/

namespace ConvergioMesh.Library

variable {S R A : Type} (handle : S → R → S × A)

def after (s : S) (rs : List R) : S := rs.foldl (fun s r => (handle s r).1) s

/-- The requests with their answers. -/
def transcript : S → List R → List (R × A)
  | _, [] => []
  | s, r :: rs => (r, (handle s r).2) :: transcript (handle s r).1 rs

variable {handle}

theorem mem_transcript {s : S} {rs : List R} {answered : R × A} (member : answered ∈ transcript handle s rs) :
    answered.1 ∈ rs ∧ ∃ s', answered.2 = (handle s' answered.1).2 := by
  induction rs generalizing s with
  | nil => cases member
  | cons r rs ih =>
    rcases List.mem_cons.mp member with rfl | later
    · exact ⟨List.mem_cons_self, s, rfl⟩
    · obtain ⟨asked, answer⟩ := ih later
      exact ⟨List.mem_cons_of_mem _ asked, answer⟩

/-- States that no request tells apart, and that stay so, are never told apart. -/
theorem transcript_congr {same : S → S → Prop}
    (unseen : ∀ s s' r, same s s' → (handle s r).2 = (handle s' r).2 ∧ same (handle s r).1 (handle s' r).1) {s s' : S}
    (start : same s s') (rs : List R) :
    transcript handle s rs = transcript handle s' rs ∧ same (after handle s rs) (after handle s' rs) := by
  induction rs generalizing s s' with
  | nil => exact ⟨rfl, start⟩
  | cons r rs ih =>
    obtain ⟨answer, next⟩ := unseen s s' r start
    obtain ⟨later, last⟩ := ih next
    exact ⟨by rw [transcript, transcript, answer, later], last⟩

/-- Requests that leave every state as it is can be left out: the others are answered as before. -/
theorem transcript_filter {kept : R → Bool} {rs : List R}
    (idle : ∀ s, ∀ r ∈ rs, kept r = false → (handle s r).1 = s) (s : S) :
    transcript handle s (rs.filter kept) = (transcript handle s rs).filter (fun answered => kept answered.1) ∧
      after handle s (rs.filter kept) = after handle s rs := by
  induction rs generalizing s with
  | nil => exact ⟨rfl, rfl⟩
  | cons r rs ih =>
    have later := ih fun s r member => idle s r (List.mem_cons_of_mem _ member)
    cases keep : kept r with
    | true =>
      rw [List.filter_cons_of_pos keep]
      have front := List.filter_cons_of_pos (p := fun answered : R × A => kept answered.1) (a := (r, (handle s r).2))
        (l := transcript handle (handle s r).1 rs) keep
      exact ⟨(congrArg (List.cons _) (later _).1).trans front.symm, (later _).2⟩
    | false =>
      have still := idle s r List.mem_cons_self keep
      have dropped : ¬kept r = true := by simp [keep]
      rw [List.filter_cons_of_neg dropped, transcript, still, after, after, List.foldl_cons, still]
      have front := List.filter_cons_of_neg (p := fun answered : R × A => kept answered.1) (a := (r, (handle s r).2))
        (l := transcript handle s rs) dropped
      exact ⟨(later s).1.trans front.symm, (later s).2⟩

end ConvergioMesh.Library
