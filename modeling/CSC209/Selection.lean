import Mathlib.Data.List.Perm.Basic
import Mathlib.Order.Lattice

/-!
# Selecting the highest elements

`Highest key k l r` says that `r` is a selection of `k` elements of `l`, or of
all of them if there are fewer, and that none of the others has a higher key.
The elements, their keys and the number are arbitrary, and ties are free.
-/

namespace Selection

universe u v
variable {α : Type u} {β : Type v} [LinearOrder β] {key : α → β} {k : Nat} {l r s others : List α}

def Highest (key : α → β) (k : Nat) (l r : List α) : Prop :=
  ∃ others, (r ++ others).Perm l ∧ r.length = min k l.length ∧ ∀ a ∈ r, ∀ b ∈ others, key b ≤ key a

/-- It is enough to look at the elements that were left out. -/
theorem highest_iff (split : (r ++ others).Perm l) :
    Highest key k l r ↔ r.length = min k l.length ∧ ∀ a ∈ r, ∀ b ∈ others, key b ≤ key a := by
  constructor
  · rintro ⟨rest, split', size, above⟩
    have same : rest.Perm others := (List.perm_append_left_iff r).mp (split'.trans split.symm)
    exact ⟨size, fun a ha b hb => above a ha b (same.mem_iff.mpr hb)⟩
  · rintro ⟨size, above⟩
    exact ⟨others, split, size, above⟩

theorem highest_congr (same : r.Perm s) : Highest key k l r ↔ Highest key k l s := by
  have one : ∀ {r s : List α}, r.Perm s → Highest key k l r → Highest key k l s := by
    rintro r s same ⟨rest, split, size, above⟩
    exact ⟨rest, (same.symm.append_right rest).trans split, same.length_eq ▸ size,
      fun a ha => above a (same.mem_iff.mpr ha)⟩
  exact ⟨one same, one same.symm⟩

/-- Either no element has the property, or there is a first one. -/
theorem none_or_first (p : α → Prop) [DecidablePred p] (l : List α) :
    (∀ a ∈ l, ¬ p a) ∨ ∃ front a back, l = front ++ a :: back ∧ (∀ b ∈ front, ¬ p b) ∧ p a := by
  cases found : l.find? fun a => p a with
  | none => exact .inl (by simpa using found)
  | some a =>
    obtain ⟨here, front, back, split, before⟩ := List.find?_eq_some_iff_append.mp found
    exact .inr ⟨front, a, back, split, by simpa using before, by simpa using here⟩

/-- The first element with a property, and what is around it, are determined by the list. -/
theorem first_unique {p : α → Prop} {front front' back back' : List α} {a a' : α}
    (same : front ++ a :: back = front' ++ a' :: back') (before : ∀ b ∈ front, ¬ p b) (here : p a)
    (before' : ∀ b ∈ front', ¬ p b) (here' : p a') : front = front' ∧ a = a' ∧ back = back' := by
  induction front generalizing front' with
  | nil =>
    cases front' with
    | nil => simpa using same
    | cons b front' =>
      obtain ⟨rfl, _⟩ : a = b ∧ _ := by simpa using same
      exact absurd here (before' a (by simp))
  | cons b front ih =>
    cases front' with
    | nil =>
      obtain ⟨rfl, _⟩ : b = a' ∧ _ := by simpa using same
      exact absurd here' (before b (by simp))
    | cons b' front' =>
      obtain ⟨rfl, rest⟩ : b = b' ∧ _ := by simpa using same
      obtain ⟨rfl, rfl, rfl⟩ := ih rest (fun c hc => before c (by simp [hc]))
        (fun c hc => before' c (by simp [hc]))
      exact ⟨rfl, rfl, rfl⟩

end Selection
