import Mathlib.Data.List.Basic

/-!
# Answers that end with a sentinel

A delimited answer is a sequence of items that ask for more, followed by one
that does not. A reader that stops at the first item that does not ask for
more has read exactly the answer. Items and the test are arbitrary.
-/

namespace SentinelAnswers

universe u
variable {α : Type u} {more : α → Prop} {taken rest : List α} {a : α}

def Delimited (more : α → Prop) (whole : List α) : Prop :=
  ∃ front last, whole = front ++ [last] ∧ (∀ a ∈ front, more a) ∧ ¬ more last

/-- Nothing stands behind the item that ends the answer. -/
theorem Delimited.ends (h : Delimited more (taken ++ a :: rest)) (stop : ¬ more a) : rest = [] := by
  obtain ⟨front, last, split, asks, _⟩ := h
  rcases List.eq_nil_or_concat rest with rfl | ⟨middle, final, rfl⟩
  · rfl
  · rw [List.concat_eq_append, ← List.cons_append, ← List.append_assoc] at split
    have same : taken ++ a :: middle = front := (List.append_inj' split rfl).1
    exact absurd (asks a (same ▸ by simp)) stop

/-- Something stands behind an item that asks for more. -/
theorem Delimited.goes_on (h : Delimited more (taken ++ a :: rest)) (asks : more a) :
    rest ≠ [] := by
  rintro rfl
  obtain ⟨front, last, split, _, stop⟩ := h
  have same : [a] = [last] := (List.append_inj' split rfl).2
  exact stop (List.singleton_inj.mp same ▸ asks)

end SentinelAnswers
