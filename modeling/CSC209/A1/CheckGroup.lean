import CSC209.Blocks
import Mathlib.Data.Finset.Card
import Mathlib.Order.Interval.Finset.Nat
import Mathlib.Data.Int.Interval
import Mathlib.Algebra.BigOperators.Group.List.Basic

/-!
# Checking a group of numbers

`check_group` sets a marker for every number of a square and then looks for a
marker that is not set; it never compares a number with the bounds or with
another number. That this decides whether the numbers are distinct is a count:
as many numbers as there are markers set all of them only if no marker is set
twice. A number out of the bounds has no marker.
-/

namespace CheckGroup

open StreamIO Blocks

/-- An array of `n` arrays of `n` numbers. -/
structure Square (n : Nat) where
  rows : List (List Int)
  height : rows.length = n
  width : ∀ row ∈ rows, row.length = n

section Source

/-- The marker of one number. -/
def mark (isAllUnique : List Int) (currentNumber : Int) : Except Fault (List Int) := do
  if (← peek isAllUnique (currentNumber - 1)) = 0 then poke isAllUnique (currentNumber - 1) 1
  else .ok isAllUnique

/-- The two loops over the numbers. -/
def markAll (elements : List (List Int)) (n : Nat) (isAllUnique : List Int) :
    Except Fault (List Int) :=
  (List.range n).foldlM
    (fun marks (i : Nat) => do
      let row ← peek elements i
      (List.range n).foldlM (fun marks (j : Nat) => do mark marks (← peek row j)) marks)
    isAllUnique

/-- The last loop, over the markers from the first one on. -/
def lookForZero (isAllUnique : List Int) : List Nat → Except Fault Int
  | [] => .ok 0
  | i :: rest => do
    if (← peek isAllUnique i) = 0 then .ok 1 else lookForZero isAllUnique rest

def checkGroup (elements : List (List Int)) (n : Nat) : Except Fault Int := do
  let size ← int (n * n)
  let isAllUnique ← markAll elements n (List.replicate size.toNat 0)
  lookForZero isAllUnique (List.range size.toNat)

end Source

def Square.numbers {n : Nat} (s : Square n) : List Int := s.rows.flatten

/-- Every number lies between 1 and `n * n`. -/
def InRange {n : Nat} (s : Square n) : Prop := ∀ v ∈ s.numbers, 1 ≤ v ∧ v ≤ n * n

/-- The call stays in its markers and returns 0 if the numbers are in range and distinct, and 1
otherwise. -/
def Decides {n : Nat} (s : Square n) : Prop :=
  ∃ result, checkGroup s.rows n = .ok result ∧
    (result = 0 ↔ InRange s ∧ s.numbers.Nodup) ∧ (result = 1 ↔ ¬ (InRange s ∧ s.numbers.Nodup))

variable {n : Nat} {s : Square n} {marks : List Int} {v : Int} {values : List Int}

section Counting

/-- As many values as a set has, all of them in the set, take every value of the set exactly when
they are distinct. -/
theorem covers_iff_nodup {α : Type} [DecidableEq α] {values : List α} {range : Finset α}
    (inside : ∀ v ∈ values, v ∈ range) (size : values.length = range.card) :
    (∀ v ∈ range, v ∈ values) ↔ values.Nodup := by
  have sub : values.toFinset ⊆ range := fun v hv => inside v (List.mem_toFinset.mp hv)
  constructor
  · intro covers
    have whole : values.toFinset = range :=
      Finset.Subset.antisymm sub fun v hv => List.mem_toFinset.mpr (covers v hv)
    refine Multiset.coe_nodup.mp (Multiset.toFinset_card_eq_card_iff_nodup.mp ?_)
    have card : values.toFinset.card = values.length := by rw [whole, size]
    exact card
  · intro distinct v hv
    have whole : values.toFinset = range :=
      Finset.eq_of_subset_of_card_le sub (by rw [List.toFinset_card_of_nodup distinct, size])
    exact List.mem_toFinset.mp (whole ▸ hv)

theorem Square.length_numbers (s : Square n) : s.numbers.length = n * n := by
  have lengths : s.rows.map List.length = List.replicate n n := by
    rw [List.eq_replicate_iff]
    refine ⟨by simpa using s.height, fun k hk => ?_⟩
    obtain ⟨row, hrow, rfl⟩ := List.mem_map.mp hk
    exact s.width row hrow
  rw [Square.numbers, List.length_flatten, lengths, List.sum_replicate, Nat.nsmul_eq_mul]

end Counting

section Marks

theorem mark_inside (low : 1 ≤ v) (high : v ≤ marks.length) :
    ∃ marks', mark marks v = .ok marks' ∧ marks'.length = marks.length ∧
      ∀ k : Nat, marks'[k]? = some 0 ↔ marks[k]? = some 0 ∧ (k : Int) + 1 ≠ v := by
  obtain ⟨j, rfl⟩ : ∃ j : Nat, v = (j : Int) + 1 := ⟨(v - 1).toNat, by omega⟩
  have inside : j < marks.length := by omega
  have here : peek marks (j : Int) = .ok marks[j] := peek_ofNat (List.getElem?_eq_getElem inside)
  by_cases zero : marks[j] = 0
  · refine ⟨marks.set j 1, ?_, by simp, fun k => ?_⟩
    · simp only [mark, Int.add_sub_cancel, here, bind, Except.bind, if_pos zero]
      exact poke_ofNat inside 1
    · rw [List.getElem?_set]
      by_cases same : j = k
      · subst same
        simp [inside]
      · simp [same, Ne.symm same]
  · refine ⟨marks, ?_, rfl, fun k => ?_⟩
    · simp only [mark, Int.add_sub_cancel, here, bind, Except.bind, if_neg zero]
    · refine ⟨fun unset => ⟨unset, fun same => ?_⟩, And.left⟩
      obtain rfl : k = j := by omega
      rw [List.getElem?_eq_getElem inside] at unset
      exact zero (Option.some.inj unset)

theorem mark_outside (out : ¬ (1 ≤ v ∧ v ≤ marks.length)) :
    mark marks v = .error (.outside (v - 1)) := by
  have outside : peek marks (v - 1) = .error (.outside (v - 1)) := peek_outside (by omega)
  simp only [mark, outside, bind, Except.bind]

/-- After the loops a marker is unset if it was and its number has not occurred. -/
theorem marks_inside (values : List Int) (inside : ∀ v ∈ values, 1 ≤ v ∧ v ≤ marks.length) :
    ∃ marks', values.foldlM mark marks = .ok marks' ∧ marks'.length = marks.length ∧
      ∀ k : Nat, marks'[k]? = some 0 ↔ marks[k]? = some 0 ∧ (k : Int) + 1 ∉ values := by
  induction values generalizing marks with
  | nil => exact ⟨marks, rfl, rfl, by simp⟩
  | cons v values ih =>
    obtain ⟨low, high⟩ := inside v List.mem_cons_self
    obtain ⟨marks₁, first, size, unset⟩ := mark_inside low high
    have later : ∀ u ∈ values, 1 ≤ u ∧ u ≤ marks₁.length := fun u hu =>
      size ▸ inside u (List.mem_cons_of_mem v hu)
    obtain ⟨marks', rest, size', unset'⟩ := ih later
    refine ⟨marks', ?_, size'.trans size, fun k => ?_⟩
    · rw [List.foldlM_cons, first]
      exact rest
    · rw [unset' k, unset k, List.mem_cons, not_or, and_assoc]

theorem marks_outside (values : List Int) (out : ∃ v ∈ values, ¬ (1 ≤ v ∧ v ≤ marks.length)) :
    ∃ f, values.foldlM mark marks = .error f := by
  induction values generalizing marks with
  | nil => simp at out
  | cons u values ih =>
    rw [List.foldlM_cons]
    by_cases here : 1 ≤ u ∧ u ≤ marks.length
    · obtain ⟨marks₁, first, size, _⟩ := mark_inside here.1 here.2
      rw [first]
      apply ih
      obtain ⟨v, hv, bad⟩ := out
      rcases List.mem_cons.mp hv with rfl | hv
      · exact absurd here bad
      · exact ⟨v, hv, size ▸ bad⟩
    · exact ⟨.outside (u - 1), by rw [mark_outside here]; rfl⟩

theorem lookForZero_eq {ks : List Nat} (inside : ∀ k ∈ ks, k < marks.length) :
    lookForZero marks ks = .ok (if ∃ k ∈ ks, marks[k]? = some 0 then 1 else 0) := by
  induction ks with
  | nil => simp [lookForZero]
  | cons k ks ih =>
    have short : k < marks.length := inside k List.mem_cons_self
    have here : marks[k]? = some marks[k] := List.getElem?_eq_getElem short
    have later := ih fun j hj => inside j (List.mem_cons_of_mem k hj)
    simp only [lookForZero, peek_ofNat here, bind, Except.bind]
    by_cases zero : marks[k] = 0
    · have met : ∃ j ∈ k :: ks, marks[j]? = some 0 := ⟨k, List.mem_cons_self, by rw [here, zero]⟩
      rw [if_pos zero, if_pos met]
    · rw [if_neg zero, later]
      simp [here, zero]

end Marks

section Results

/-- The two loops are one loop over the numbers. -/
theorem markAll_eq (s : Square n) (marks : List Int) :
    markAll s.rows n marks = s.numbers.foldlM mark marks := by
  have outer := foldlM_peek s.rows (fun marks row =>
    (List.range n).foldlM (fun marks (j : Nat) => do mark marks (← peek row j)) marks) marks
  rw [s.height] at outer
  rw [markAll, Square.numbers, ← foldlM_flatten, outer]
  refine foldlM_congr (fun row hrow marks => ?_) marks
  rw [← s.width row hrow]
  exact foldlM_peek row mark marks

theorem checkGroup_eq (s : Square n) (fits : IsInt (n * n)) :
    checkGroup s.rows n = s.numbers.foldlM mark (List.replicate (n * n) 0) >>= fun marks =>
      lookForZero marks (List.range (n * n)) := by
  have toNat : ((n : Int) * n).toNat = n * n := by
    rw [← Int.natCast_mul, Int.toNat_natCast]
  rw [checkGroup, int_eq fits, ← markAll_eq, ← toNat]
  rfl

/-- With all numbers in range the result tells whether each has been met. -/
theorem checkGroup_inRange (fits : IsInt (n * n)) (range : InRange s) :
    checkGroup s.rows n = .ok (if s.numbers.Nodup then 0 else 1) := by
  have inside : ∀ v ∈ s.numbers, 1 ≤ v ∧ v ≤ (List.replicate (n * n) (0 : Int)).length := by
    simpa [InRange] using range
  obtain ⟨marks, run, size, unset⟩ := marks_inside s.numbers inside
  have size : marks.length = n * n := by simpa using size
  have square : ((n * n : Nat) : Int) = n * n := Int.natCast_mul n n
  have met : (∃ k ∈ List.range (n * n), marks[k]? = some 0) ↔ ¬ s.numbers.Nodup := by
    have card : s.numbers.length = (Finset.Icc (1 : Int) (n * n)).card := by
      rw [s.length_numbers, Int.card_Icc]
      omega
    have covers := covers_iff_nodup (fun v hv => Finset.mem_Icc.mpr (range v hv)) card
    rw [← covers]
    simp only [List.mem_range, unset, List.getElem?_replicate, Finset.mem_Icc, not_forall]
    constructor
    · rintro ⟨k, hk, _, missing⟩
      exact ⟨k + 1, ⟨by omega, by omega⟩, missing⟩
    · rintro ⟨v, ⟨low, high⟩, missing⟩
      have short : (v - 1).toNat < n * n := by omega
      exact ⟨(v - 1).toNat, short, if_pos short,
        by rwa [show ((v - 1).toNat : Int) + 1 = v by omega]⟩
  rw [checkGroup_eq s fits, run]
  show lookForZero marks (List.range (n * n)) = _
  rw [lookForZero_eq fun k hk => size ▸ List.mem_range.mp hk]
  by_cases distinct : s.numbers.Nodup
  · rw [if_neg (by simpa only [met, not_not] using distinct), if_pos distinct]
  · rw [if_pos (met.mpr distinct), if_neg distinct]

/-- The group is decided exactly when its size is an `int` and every number has a marker. -/
theorem decides_iff (s : Square n) : Decides s ↔ IsInt (n * n) ∧ InRange s := by
  constructor
  · rintro ⟨result, run, _⟩
    by_cases fits : IsInt (n * n)
    · refine ⟨fits, fun v hv => ?_⟩
      by_contra out
      have bad : ∃ v ∈ s.numbers, ¬ (1 ≤ v ∧ v ≤ (List.replicate (n * n) (0 : Int)).length) :=
        ⟨v, hv, by simpa using out⟩
      obtain ⟨f, stuck⟩ := marks_outside s.numbers bad
      rw [checkGroup_eq s fits, stuck] at run
      cases run
    · rw [checkGroup, int, if_neg fits] at run
      cases run
  · rintro ⟨fits, range⟩
    refine ⟨_, checkGroup_inRange fits range, ?_⟩
    by_cases distinct : s.numbers.Nodup <;> simp [range, distinct]

/-- A 9 in a group of four: its marker lies behind the markers. -/
theorem number_without_marker :
    ¬ ∀ (n : Nat) (s : Square n), 1 ≤ n → (∀ v ∈ s.numbers, IsInt v) → Decides s := by
  intro always
  obtain ⟨result, run, _⟩ := always 2 ⟨[[1, 2], [3, 9]], rfl, by decide⟩ (by decide) (by decide)
  have stuck : checkGroup [[1, 2], [3, 9]] 2 = .error (.outside 8) := rfl
  rw [stuck] at run
  cases run

end Results

end CheckGroup
