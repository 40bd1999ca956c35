import CSC209.A1.CheckGroup
import Mathlib.Data.List.OfFn
import Mathlib.Data.List.FinRange
import Mathlib.Data.Fintype.Basic
import Mathlib.Logic.Function.Basic

/-!
# Checking a sudoku

`check_regular_sudoku` copies each row, column and box of the puzzle into one
array of three by three and passes it to `check_group`. Columns and boxes are
first rearranged into arrays of nine by nine, the boxes with two running
counters. A puzzle is a function of row and column, laid out in memory by
`table`.
-/

namespace Sudoku

open Blocks CheckGroup

section Source

def peek2 (array : List (List Int)) (i j : Int) : Except Fault Int := do peek (← peek array i) j

def poke2 (array : List (List Int)) (i j v : Int) : Except Fault (List (List Int)) := do
  poke array i (← poke (← peek array i) j v)

def buildColumns (puzzle cols : List (List Int)) : Except Fault (List (List Int)) :=
  (List.range 9).foldlM (fun cols (row : Nat) =>
    (List.range 9).foldlM
      (fun cols (col : Nat) => do poke2 cols row col (← peek2 puzzle col row)) cols) cols

/-- The two inner loops of `build_boxes`, with the counter `z`. -/
def buildBox (puzzle : List (List Int)) (startingRow startingCol : Nat) (index : Int)
    (boxes : List (List Int)) : Except Fault (List (List Int)) := do
  let (_, boxes) ← (List.range' startingRow 3).foldlM (fun s (r : Nat) =>
    (List.range' startingCol 3).foldlM (fun (z, boxes) (c : Nat) => do
      .ok (z + 1, ← poke2 boxes index z (← peek2 puzzle r c))) s) ((0 : Int), boxes)
  .ok boxes

/-- The two outer loops, with the counter `index`. -/
def buildBoxes (puzzle boxes : List (List Int)) : Except Fault (List (List Int)) := do
  let (_, boxes) ← (List.range' 0 3 3).foldlM (fun s (startingRow : Nat) =>
    (List.range' 0 3 3).foldlM (fun (index, boxes) (startingCol : Nat) => do
      .ok (index + 1, ← buildBox puzzle startingRow startingCol index boxes)) s) ((0 : Int), boxes)
  .ok boxes

def build2dArray (group : List Int) (array2d : List (List Int)) :
    Except Fault (List (List Int)) := do
  let (_, array2d) ← (List.range 3).foldlM (fun s (i : Nat) =>
    (List.range 3).foldlM (fun (counter, array2d) (j : Nat) => do
      .ok (counter + 1, ← poke2 array2d i j (← peek group counter))) s) ((0 : Int), array2d)
  .ok array2d

/-- One of the three loops over nine groups: `error_flag` and the array. -/
def checkGroups (groups : List (List Int)) :
    List Nat → List (List Int) → Except Fault (Int × List (List Int))
  | [], array2d => .ok (0, array2d)
  | k :: rest, array2d => do
    let array2d ← build2dArray (← peek groups k) array2d
    let errorFlag ← checkGroup array2d 3
    if errorFlag = 1 then .ok (1, array2d) else checkGroups groups rest array2d

def zeros : List (List Int) := List.replicate 9 (List.replicate 9 0)

/-- `array2d` is what `malloc` gave, and `zeros` what `{}` makes of the two local arrays. -/
def checkRegularSudoku (puzzle array2d : List (List Int)) : Except Fault Int := do
  let (errorFlag, array2d) ← checkGroups puzzle (List.range 9) array2d
  if errorFlag = 1 then .ok 1
  else
    let columns ← buildColumns puzzle zeros
    let (errorFlag, array2d) ← checkGroups columns (List.range 9) array2d
    if errorFlag = 1 then .ok 1
    else
      let boxes ← buildBoxes puzzle zeros
      let (errorFlag, _) ← checkGroups boxes (List.range 9) array2d
      if errorFlag = 1 then .ok 1 else .ok 0

end Source

section Layout

/-- The arrays with these numbers. -/
def table {n : Nat} (cell : Fin n → Fin n → Int) : Square n where
  rows := List.ofFn fun i => List.ofFn (cell i)
  height := List.length_ofFn
  width := by
    intro row hrow
    obtain ⟨i, rfl⟩ := (List.mem_ofFn' _ _).mp hrow
    exact List.length_ofFn

/-- The cells of each group, by the number of the group and the place in it. -/
def columnCell (p : Fin 9 × Fin 9) : Fin 9 × Fin 9 := (p.2, p.1)

/-- Box `3 * a + b` starts at row `3 * a` and column `3 * b`. -/
def boxCell (p : Fin 9 × Fin 9) : Fin 9 × Fin 9 :=
  (⟨3 * (p.1 / 3) + p.2 / 3, by omega⟩, ⟨3 * (p.1 % 3) + p.2 % 3, by omega⟩)

variable (puzzle : Fin 9 → Fin 9 → Int)

def columns (k i : Fin 9) : Int := puzzle (columnCell (k, i)).1 (columnCell (k, i)).2

def boxes (k i : Fin 9) : Int := puzzle (boxCell (k, i)).1 (boxCell (k, i)).2

/-- Every number from 1 to 9 stands in the group exactly once. -/
def Complete (group : Fin 9 → Int) : Prop := ∀ v : Int, 1 ≤ v → v ≤ 9 → ∃! i, group i = v

/-- The aligned boxes are numbered by their place among the boxes. -/
def Valid : Prop :=
  (∀ r, Complete (puzzle r)) ∧ (∀ c, Complete fun r => puzzle r c) ∧
    ∀ a b : Fin 3, ∀ v : Int, 1 ≤ v → v ≤ 9 →
      ∃! cell : Fin 9 × Fin 9,
        (cell.1 : Nat) / 3 = a ∧ (cell.2 : Nat) / 3 = b ∧ puzzle cell.1 cell.2 = v

/-- Box and place are found from row and column in the same way. -/
theorem boxCell_involutive : Function.Involutive boxCell := by
  rintro ⟨k, i⟩
  apply Prod.ext <;> apply Fin.ext <;> simp only [boxCell] <;> omega

theorem columnCell_involutive : Function.Involutive columnCell := fun _ => rfl

/-- Box `3 * a + b` has exactly the cells of its aligned square. -/
theorem boxes_complete (a b : Fin 3) :
    Complete (boxes puzzle ⟨3 * a + b, by omega⟩) ↔ ∀ v : Int, 1 ≤ v → v ≤ 9 →
      ∃! cell : Fin 9 × Fin 9, (cell.1 : Nat) / 3 = a ∧ (cell.2 : Nat) / 3 = b ∧
        puzzle cell.1 cell.2 = v := by
  have inBox : ∀ cell : Fin 9 × Fin 9, (cell.1 : Nat) / 3 = a ∧ (cell.2 : Nat) / 3 = b ↔
      ∃ i, boxCell (⟨3 * a + b, by omega⟩, i) = cell := by
    intro cell
    constructor
    · rintro ⟨row, col⟩
      have box : (boxCell cell).1 = ⟨3 * a + b, by omega⟩ := Fin.ext (by simp only [boxCell]; omega)
      exact ⟨(boxCell cell).2, by rw [← box]; exact boxCell_involutive cell⟩
    · rintro ⟨i, rfl⟩
      simp only [boxCell]
      constructor <;> omega
  refine forall_congr' fun v => imp_congr_right fun _ => imp_congr_right fun _ => ?_
  constructor
  · rintro ⟨i, here, only⟩
    refine ⟨boxCell (⟨3 * a + b, by omega⟩, i), ?_, ?_⟩
    · exact ⟨((inBox _).mpr ⟨i, rfl⟩).1, ((inBox _).mpr ⟨i, rfl⟩).2, here⟩
    · rintro cell ⟨row, col, there⟩
      obtain ⟨j, rfl⟩ := (inBox cell).mp ⟨row, col⟩
      rw [only j there]
  · rintro ⟨cell, ⟨row, col, here⟩, only⟩
    obtain ⟨i, rfl⟩ := (inBox cell).mp ⟨row, col⟩
    refine ⟨i, here, fun j there => ?_⟩
    obtain ⟨row', col'⟩ := (inBox _).mpr ⟨j, rfl⟩
    exact (Prod.mk.inj (boxCell_involutive.injective (only _ ⟨row', col', there⟩))).2

end Layout

section Filling

variable {n m : Nat} {cell goal : Fin n → Fin n → Int} {array : List (List Int)}

theorem peek_ofFn {α : Type} (f : Fin n → α) (i : Fin n) :
    peek (List.ofFn f) (i : Nat) = .ok (f i) :=
  peek_ofNat (by simp)

theorem peek2_table (cell : Fin n → Fin n → Int) (i j : Fin n) :
    peek2 (table cell).rows (i : Nat) (j : Nat) = .ok (cell i j) := by
  simp only [peek2, table, peek_ofFn, bind, Except.bind]

theorem set_ofFn {α : Type} (f : Fin n → α) (i : Fin n) (a : α) :
    (List.ofFn f).set i a = List.ofFn fun k => if k = i then a else f k := by
  refine List.ext_getElem (by simp) fun k hk _ => ?_
  by_cases same : k = i
  · subst same
    simp
  · simp [Ne.symm same, Fin.ext_iff, same]

theorem poke2_table (cell : Fin n → Fin n → Int) (i j : Fin n) (v : Int) :
    poke2 (table cell).rows (i : Nat) (j : Nat) v =
      .ok (table fun a b => if a = i ∧ b = j then v else cell a b).rows := by
  have inner : poke (List.ofFn (cell i)) (j : Nat) v = _ := poke_ofNat (by simp) v
  have outer : ∀ row, poke (List.ofFn fun k => List.ofFn (cell k)) (i : Nat) row = _ :=
    poke_ofNat (by simp)
  simp only [poke2, table, peek_ofFn, bind, Except.bind, inner, outer, set_ofFn]
  congr 2
  funext a
  by_cases same : a = i
  · subst same
    simp
  · simp [same]

/-- The first cells, row by row, have the numbers they should get. -/
def Filled (goal : Fin n → Fin n → Int) (m : Nat) (array : List (List Int)) : Prop :=
  ∃ cell, array = (table cell).rows ∧ ∀ i j : Fin n, n * i + j < m → cell i j = goal i j

theorem filled_table (goal cell : Fin n → Fin n → Int) : Filled goal 0 (table cell).rows :=
  ⟨cell, rfl, fun _ _ h => absurd h (Nat.not_lt_zero _)⟩

/-- A counter, and an array in which so many cells were written since the counter started. -/
def Counted (goal : Fin n → Fin n → Int) (start k : Nat) (s : Int × List (List Int)) : Prop :=
  s.1 = k ∧ Filled goal (start + k) s.2

/-- A counter, and an array in which so many rows were written. -/
def RowsDone (goal : Fin n → Fin n → Int) (k : Nat) (s : Int × List (List Int)) : Prop :=
  s.1 = k ∧ Filled goal (n * k) s.2

theorem index_inj {i a : Nat} {j b : Fin n} (same : n * i + j = n * a + b) : i = a ∧ j = b := by
  have pos : 0 < n := Nat.lt_of_le_of_lt (Nat.zero_le _) j.isLt
  have row := congrArg (· / n) same
  have col := congrArg (· % n) same
  simp only [Nat.mul_add_div pos, Nat.div_eq_of_lt j.isLt, Nat.div_eq_of_lt b.isLt, Nat.add_zero]
    at row
  simp only [Nat.mul_add_mod, Nat.mod_eq_of_lt j.isLt, Nat.mod_eq_of_lt b.isLt] at col
  exact ⟨row, Fin.ext col⟩

theorem Filled.poke2 (filled : Filled goal m array) (i j : Fin n) (here : n * i + j = m) :
    ∃ array', Sudoku.poke2 array (i : Nat) (j : Nat) (goal i j) = .ok array' ∧
      Filled goal (m + 1) array' := by
  obtain ⟨cell, rfl, done⟩ := filled
  refine ⟨_, poke2_table cell i j (goal i j), _, rfl, fun a b before => ?_⟩
  by_cases now : a = i ∧ b = j
  · rw [if_pos now, now.1, now.2]
  · rw [if_neg now]
    refine done a b (lt_of_le_of_ne (Nat.le_of_lt_succ before) fun same => now ?_)
    obtain ⟨row, col⟩ := index_inj (same.trans here.symm)
    exact ⟨Fin.ext row, col⟩

theorem Filled.whole (filled : Filled goal (n * n) array) : array = (table goal).rows := by
  obtain ⟨cell, rfl, done⟩ := filled
  have all : cell = goal := by
    funext i j
    apply done i j
    calc n * i + j < n * i + n := Nat.add_lt_add_left j.isLt _
      _ = n * (i + 1) := rfl
      _ ≤ n * n := Nat.mul_le_mul_left n i.isLt
  rw [all]

end Filling

section Builders

variable (puzzle : Fin 9 → Fin 9 → Int)

theorem zeros_eq : zeros = (table fun _ _ : Fin 9 => 0).rows := by
  simp only [zeros, table, List.ofFn_const]

theorem buildColumns_table :
    buildColumns (table puzzle).rows zeros = .ok (table (columns puzzle)).rows := by
  obtain ⟨array, run, filled⟩ : ∃ array, buildColumns (table puzzle).rows zeros = .ok array ∧
      Filled (columns puzzle) (9 * 9) array := by
    rw [zeros_eq]
    refine foldlM_range (fun row => Filled (columns puzzle) (9 * row)) 9 (filled_table _ _) ?_
    intro row hrow cols filled
    refine foldlM_range (fun col => Filled (columns puzzle) (9 * row + col)) 9 filled ?_
    intro col hcol cols filled
    have read := peek2_table puzzle ⟨col, hcol⟩ ⟨row, hrow⟩
    simp only [read, bind, Except.bind]
    exact filled.poke2 ⟨row, hrow⟩ ⟨col, hcol⟩ rfl
  rw [run, filled.whole]

theorem buildBox_spec {a b : Nat} {array : List (List Int)} (ha : a < 3) (hb : b < 3)
    (filled : Filled (boxes puzzle) (9 * (3 * a + b)) array) :
    ∃ array', buildBox (table puzzle).rows (0 + 3 * a) (0 + 3 * b) (3 * a + b : Nat) array =
      .ok array' ∧
      Filled (boxes puzzle) (9 * (3 * a + b) + 9) array' := by
  refine bind_spec (foldlM_range' (fun i => Counted (boxes puzzle) (9 * (3 * a + b)) (3 * i)) _ 3 1
    ⟨rfl, filled⟩ ?_) fun s counted => ⟨s.2, rfl, counted.2⟩
  intro i hi s counted
  refine foldlM_range'
    (fun j => Counted (boxes puzzle) (9 * (3 * a + b)) (3 * i + j)) _ 3 1 counted ?_
  rintro j hj ⟨z, array⟩ ⟨rfl, filled⟩
  have row : 0 + 3 * a + 1 * i = 3 * ((3 * a + b) / 3) + (3 * i + j) / 3 := by omega
  have col : 0 + 3 * b + 1 * j = 3 * ((3 * a + b) % 3) + (3 * i + j) % 3 := by omega
  have read : peek2 (table puzzle).rows (0 + 3 * a + 1 * i : Nat) (0 + 3 * b + 1 * j : Nat) =
      .ok (boxes puzzle ⟨3 * a + b, by omega⟩ ⟨3 * i + j, by omega⟩) := by
    rw [row, col]
    exact peek2_table puzzle (boxCell (⟨3 * a + b, by omega⟩, ⟨3 * i + j, by omega⟩)).1
      (boxCell (⟨3 * a + b, by omega⟩, ⟨3 * i + j, by omega⟩)).2
  obtain ⟨array', written, filled'⟩ := filled.poke2 ⟨3 * a + b, by omega⟩ ⟨3 * i + j, by omega⟩ rfl
  simp only [read, bind, Except.bind]
  refine ⟨_, congrArg (Except.map _) written, rfl, filled'⟩

/-- The counters stand at the next cell of the boxes, row by row. -/
theorem buildBoxes_table :
    buildBoxes (table puzzle).rows zeros = .ok (table (boxes puzzle)).rows := by
  obtain ⟨array, run, filled⟩ : ∃ array, buildBoxes (table puzzle).rows zeros = .ok array ∧
      Filled (boxes puzzle) (9 * 9) array := by
    rw [zeros_eq]
    refine bind_spec (foldlM_range' (fun a => RowsDone (boxes puzzle) (3 * a)) 0 3 3
      ⟨rfl, filled_table (boxes puzzle) fun _ _ => 0⟩ ?_) fun s done => ⟨s.2, rfl, done.2⟩
    intro a ha s done
    refine foldlM_range' (fun b => RowsDone (boxes puzzle) (3 * a + b)) 0 3 3 done ?_
    rintro b hb ⟨index, array⟩ ⟨rfl, filled⟩
    obtain ⟨array', written, filled'⟩ := buildBox_spec puzzle ha hb filled
    exact ⟨_, congrArg (Except.map _) written, rfl, filled'⟩
  rw [run, filled.whole]

/-- Any nine numbers, copied into three by three. -/
theorem build2dArray_table (group : Fin 9 → Int) (old : Fin 3 → Fin 3 → Int) :
    build2dArray (List.ofFn group) (table old).rows =
      .ok (table fun i j : Fin 3 => group ⟨3 * i + j, by omega⟩).rows := by
  let goal (i j : Fin 3) : Int := group ⟨3 * i + j, by omega⟩
  obtain ⟨array, run, filled⟩ :
      ∃ array, build2dArray (List.ofFn group) (table old).rows = .ok array ∧
      Filled goal (3 * 3) array := by
    refine bind_spec (foldlM_range (fun i => Counted goal 0 (3 * i)) 3 ⟨rfl, filled_table _ _⟩ ?_)
      fun s counted => ⟨s.2, rfl, by simpa [Counted] using counted.2⟩
    intro i hi s counted
    refine foldlM_range (fun j => Counted goal 0 (3 * i + j)) 3 counted ?_
    rintro j hj ⟨counter, array⟩ ⟨rfl, filled⟩
    have read := peek_ofFn group ⟨3 * i + j, by omega⟩
    obtain ⟨array', written, filled'⟩ := filled.poke2 ⟨i, hi⟩ ⟨j, hj⟩ (Nat.zero_add _).symm
    simp only [read, bind, Except.bind]
    exact ⟨_, congrArg (Except.map _) written, rfl, filled'⟩
  rw [run, filled.whole]

end Builders

section Results

variable {group : Fin 9 → Int} {puzzle : Fin 9 → Fin 9 → Int}

def Digits (group : Fin 9 → Int) : Prop := ∀ i, 1 ≤ group i ∧ group i ≤ 9

/-- Nine digits are all different exactly when every digit is there once. -/
theorem complete_iff (digits : Digits group) : Complete group ↔ (List.ofFn group).Nodup := by
  have inside : ∀ v ∈ List.ofFn group, v ∈ Finset.Icc (1 : Int) 9 := by
    intro v hv
    obtain ⟨i, rfl⟩ := (List.mem_ofFn' _ _).mp hv
    exact Finset.mem_Icc.mpr (digits i)
  have covers := covers_iff_nodup inside (by simp)
  constructor
  · intro complete
    refine covers.mp fun v hv => ?_
    obtain ⟨low, high⟩ := Finset.mem_Icc.mp hv
    obtain ⟨i, here, _⟩ := complete v low high
    exact (List.mem_ofFn' _ _).mpr ⟨i, here⟩
  · intro distinct v low high
    obtain ⟨i, here⟩ :=
      (List.mem_ofFn' _ _).mp (covers.mpr distinct v (Finset.mem_Icc.mpr ⟨low, high⟩))
    exact ⟨i, here, fun j there => List.nodup_ofFn.mp distinct (there.trans here.symm)⟩

open Classical in
/-- One group, as `check_regular_sudoku` checks it. -/
theorem checkGroup_table (digits : Digits group) :
    checkGroup (table fun i j : Fin 3 => group ⟨3 * i + j, by omega⟩).rows 3 =
      .ok (if Complete group then 0 else 1) := by
  have numbers : (table fun i j : Fin 3 => group ⟨3 * i + j, by omega⟩).numbers = List.ofFn group :=
    (List.ofFn_mul' (m := 3) (n := 3) group).symm
  have range : InRange (table fun i j : Fin 3 => group ⟨3 * i + j, by omega⟩) := by
    intro v hv
    rw [numbers] at hv
    obtain ⟨i, rfl⟩ := (List.mem_ofFn' _ _).mp hv
    exact digits i
  rw [checkGroup_inRange (by decide) range, numbers]
  simp only [complete_iff digits]

open Classical in
/-- The loop over the groups that are left ends at the first one that is not complete. -/
theorem checkGroups_table {groups : Fin 9 → Fin 9 → Int} (digits : ∀ k, Digits (groups k))
    (ks : List Nat) (inside : ∀ k ∈ ks, k < 9) (old : Fin 3 → Fin 3 → Int) :
    ∃ new : Fin 3 → Fin 3 → Int, checkGroups (table groups).rows ks (table old).rows =
      .ok (if ∀ k : Fin 9, (k : Nat) ∈ ks → Complete (groups k) then 0 else 1, (table new).rows) :=
  by
  induction ks generalizing old with
  | nil => exact ⟨old, by simp [checkGroups]⟩
  | cons k ks ih =>
    have group :
        peek (table groups).rows k = .ok (List.ofFn (groups ⟨k, inside k List.mem_cons_self⟩)) :=
      peek_ofFn (fun i => List.ofFn (groups i)) ⟨k, inside k List.mem_cons_self⟩
    obtain ⟨new, later⟩ := ih (fun j hj => inside j (List.mem_cons_of_mem k hj))
      fun i j => groups ⟨k, inside k List.mem_cons_self⟩ ⟨3 * i + j, by omega⟩
    simp only [checkGroups, group, build2dArray_table, checkGroup_table (digits _), bind,
      Except.bind]
    by_cases complete : Complete (groups ⟨k, inside k List.mem_cons_self⟩)
    · refine ⟨new, ?_⟩
      have all : (∀ j : Fin 9, (j : Nat) ∈ k :: ks → Complete (groups j)) ↔
          ∀ j : Fin 9, (j : Nat) ∈ ks → Complete (groups j) := by
        constructor
        · exact fun every j hj => every j (List.mem_cons_of_mem k hj)
        · intro every j hj
          rcases List.mem_cons.mp hj with here | later
          · exact (Fin.ext here : j = ⟨k, inside k List.mem_cons_self⟩) ▸ complete
          · exact every j later
      rw [if_pos complete, if_neg (by decide), later]
      simp only [all]
    · have some_bad : ¬ ∀ j : Fin 9, (j : Nat) ∈ k :: ks → Complete (groups j) := fun every =>
        complete (every _ List.mem_cons_self)
      rw [if_neg complete, if_pos rfl, if_neg some_bad]
      exact ⟨_, rfl⟩

/-- All nine groups. -/
theorem checkGroups_all (groups : Fin 9 → Fin 9 → Int) (digits : ∀ k, Digits (groups k))
    (old : Fin 3 → Fin 3 → Int) :
    ∃ new : Fin 3 → Fin 3 → Int, ∃ flag,
      checkGroups (table groups).rows (List.range 9) (table old).rows =
        .ok (flag, (table new).rows) ∧ (flag = 1 ∨ flag = 0) ∧
        (flag = 0 ↔ ∀ k, Complete (groups k)) := by
  classical
  obtain ⟨new, run⟩ := checkGroups_table digits (List.range 9) (by simp) old
  refine ⟨new, _, run, ?_, ?_⟩ <;> split <;> simp_all

theorem boxes_complete_all :
    (∀ k, Complete (boxes puzzle k)) ↔ ∀ a b : Fin 3, ∀ v : Int, 1 ≤ v → v ≤ 9 →
      ∃! cell : Fin 9 × Fin 9, (cell.1 : Nat) / 3 = a ∧ (cell.2 : Nat) / 3 = b ∧
        puzzle cell.1 cell.2 = v := by
  constructor
  · exact fun all a b => (boxes_complete puzzle a b).mp (all _)
  · intro all k
    have number : k = ⟨3 * ((k : Nat) / 3) + (k : Nat) % 3, by omega⟩ :=
      Fin.ext (by simp only; omega)
    rw [number]
    exact (boxes_complete puzzle ⟨(k : Nat) / 3, by omega⟩ ⟨(k : Nat) % 3, by omega⟩).mpr (all _ _)

/-- The program's answer, the two rearrangements, and that no cell is left out or taken twice. -/
theorem sudoku_checked (puzzle : Fin 9 → Fin 9 → Int) (junk : Fin 3 → Fin 3 → Int)
    (digits : ∀ r c, 1 ≤ puzzle r c ∧ puzzle r c ≤ 9) :
    (∃ result, checkRegularSudoku (table puzzle).rows (table junk).rows = .ok result ∧
      (result = 0 ↔ Valid puzzle) ∧ (result = 1 ↔ ¬ Valid puzzle)) ∧
    buildColumns (table puzzle).rows zeros = .ok (table fun i j => puzzle j i).rows ∧
    buildBoxes (table puzzle).rows zeros = .ok (table (boxes puzzle)).rows ∧
    Function.Bijective columnCell ∧ Function.Bijective boxCell := by
  refine ⟨?_, buildColumns_table puzzle, buildBoxes_table puzzle, columnCell_involutive.bijective,
    boxCell_involutive.bijective⟩
  obtain ⟨a, flag, rows, binary, complete⟩ := checkGroups_all puzzle digits junk
  obtain ⟨b, flag', cols, binary', complete'⟩ :=
    checkGroups_all (columns puzzle) (fun k i => digits i k) a
  obtain ⟨_, flag'', squares, binary'', complete''⟩ :=
    checkGroups_all (boxes puzzle) (fun k i => digits _ _) b
  have valid : Valid puzzle ↔ flag = 0 ∧ flag' = 0 ∧ flag'' = 0 := by
    rw [complete, complete', complete'', boxes_complete_all]
    exact Iff.rfl
  simp only [checkRegularSudoku, rows, buildColumns_table, cols, buildBoxes_table, squares, bind,
    Except.bind, valid]
  rcases binary with rfl | rfl
  · exact ⟨1, rfl, by simp, by simp⟩
  · rcases binary' with rfl | rfl
    · exact ⟨1, rfl, by simp, by simp⟩
    · rcases binary'' with rfl | rfl
      · exact ⟨1, rfl, by simp, by simp⟩
      · exact ⟨0, rfl, by simp, by simp⟩

/-- Each row is the one above, shifted by three, and by one more from band to band. -/
def shifted (r c : Fin 9) : Int := (3 * (r % 3 : Nat) + (r / 3 : Nat) + c : Nat) % 9 + 1

def blank (_ _ : Fin 3) : Int := 0

theorem sudoku_checked_shifted :
    (∀ r c, 1 ≤ shifted r c ∧ shifted r c ≤ 9) ∧
    (∃ result, checkRegularSudoku (table shifted).rows (table blank).rows = .ok result ∧
      (result = 0 ↔ Valid shifted) ∧ (result = 1 ↔ ¬ Valid shifted)) ∧
    buildColumns (table shifted).rows zeros = .ok (table fun i j => shifted j i).rows ∧
    buildBoxes (table shifted).rows zeros = .ok (table (boxes shifted)).rows ∧
    Function.Bijective columnCell ∧ Function.Bijective boxCell :=
  ⟨by decide, sudoku_checked shifted blank (by decide)⟩

end Results

end Sudoku
