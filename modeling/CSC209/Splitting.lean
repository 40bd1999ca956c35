import Mathlib.Data.List.Basic

/-!
# Splitting twice

Splitting a list at the elements that satisfy one of two predicates is
splitting at the first one and then each part at the second. Both predicates
and the elements are arbitrary; a part may be empty. The second half is about
splitting at one element, and the list with that element behind each part.
-/

namespace Splitting

universe u v
variable {α : Type u} {β : Type v} {p q : α → Bool} {xs : List α}

theorem splitOnP_or (p q : α → Bool) (xs : List α) :
    xs.splitOnP (fun a => p a || q a) = (xs.splitOnP p).flatMap fun part => part.splitOnP q := by
  induction xs with
  | nil => simp
  | cons a rest ih =>
    obtain ⟨part, parts, split⟩ := List.exists_cons_of_ne_nil (List.splitOnP_ne_nil p rest)
    rw [List.splitOnP_cons_eq_if_modifyHead,
      List.splitOnP_cons_eq_if_modifyHead (p := p), ih, split]
    cases hp : p a with
    | true => simp
    | false =>
      obtain ⟨first, later, inner⟩ := List.exists_cons_of_ne_nil (List.splitOnP_ne_nil q part)
      cases hq : q a <;> simp [List.splitOnP_cons_eq_if_modifyHead, hq, inner]

theorem splitOnP_map (f : β → α) (p : α → Bool) (xs : List β) :
    (xs.map f).splitOnP p = (xs.splitOnP fun b => p (f b)).map (List.map f) := by
  induction xs with
  | nil => simp
  | cons b rest ih =>
    obtain ⟨part, parts, split⟩ :=
      List.exists_cons_of_ne_nil (List.splitOnP_ne_nil (fun b => p (f b)) rest)
    rw [List.map_cons, List.splitOnP_cons_eq_if_modifyHead,
      List.splitOnP_cons_eq_if_modifyHead, ih, split]
    cases p (f b) <;> simp

theorem splitOnP_congr (agree : ∀ a ∈ xs, p a = q a) : xs.splitOnP p = xs.splitOnP q := by
  induction xs with
  | nil => simp
  | cons a rest ih =>
    have here := agree a List.mem_cons_self
    have later := ih fun b hb => agree b (List.mem_cons_of_mem a hb)
    rw [List.splitOnP_cons_eq_if_modifyHead, List.splitOnP_cons_eq_if_modifyHead, here, later]

theorem mem_of_mem_splitOnP {part : List α} {a : α} (h : part ∈ xs.splitOnP p) (ha : a ∈ part) :
    a ∈ xs := by
  induction xs generalizing part with
  | nil =>
    obtain rfl : part = [] := by simpa using h
    exact ha
  | cons b rest ih =>
    obtain ⟨first, parts, split⟩ := List.exists_cons_of_ne_nil (List.splitOnP_ne_nil p rest)
    rw [List.splitOnP_cons_eq_if_modifyHead] at h
    cases hp : p b with
    | true =>
      rcases List.mem_cons.mp (by simpa [hp] using h) with rfl | h
      · cases ha
      · exact List.mem_cons_of_mem b (ih h ha)
    | false =>
      rcases List.mem_cons.mp (by simpa [hp, split] using h) with rfl | h
      · rcases List.mem_cons.mp ha with rfl | ha
        · exact List.mem_cons_self
        · exact List.mem_cons_of_mem b (ih (split ▸ List.mem_cons_self) ha)
      · exact List.mem_cons_of_mem b (ih (split ▸ List.mem_cons_of_mem first h) ha)

section Separator

variable [BEq α] [LawfulBEq α] {a : α} {part : List α}

/-- Every part of a split, with the separator behind it. -/
theorem splitOn_terminated (a : α) (xs : List α) :
    (xs.splitOn a).flatMap (· ++ [a]) = xs ++ [a] := by
  induction xs with
  | nil => simp
  | cons b rest ih =>
    obtain ⟨first, later, split⟩ := List.exists_cons_of_ne_nil (List.splitOn_ne_nil a rest)
    rw [List.splitOn_cons_eq_if_modifyHead]
    rw [split] at ih ⊢
    by_cases here : b = a
    · simpa [here] using ih
    · have other : (b == a) = false := by simpa using here
      simpa [other] using ih

theorem not_mem_of_mem_splitOn (h : part ∈ xs.splitOn a) : a ∉ part := by
  induction xs generalizing part with
  | nil =>
    obtain rfl : part = [] := by simpa using h
    simp
  | cons b rest ih =>
    obtain ⟨first, later, split⟩ := List.exists_cons_of_ne_nil (List.splitOn_ne_nil a rest)
    rw [List.splitOn_cons_eq_if_modifyHead, split] at h
    by_cases here : b = a
    · rw [if_pos (by simpa using here)] at h
      rcases List.mem_cons.mp h with rfl | h
      · simp
      · exact ih (split ▸ h)
    · rw [if_neg (by simpa using here), List.modifyHead_cons] at h
      rcases List.mem_cons.mp h with rfl | h
      · have clean := ih (split ▸ List.mem_cons_self)
        simpa [Ne.symm here] using clean
      · exact ih (split ▸ List.mem_cons_of_mem first h)

theorem length_le_of_mem_splitOn (h : part ∈ xs.splitOn a) : part.length ≤ xs.length := by
  have whole := congrArg List.length (splitOn_terminated a xs)
  obtain ⟨before, after, split⟩ := List.append_of_mem h
  rw [split] at whole
  simp at whole
  omega

end Separator

end Splitting
