import CSC209.A3.ResultList
import CSC209.HaltingRuns

/-!
# The indices of the master's array

Every index at which `determine_insert_pos`, `insert` and `print_freq_records`
touch the array, in the order of the source. The first call for a query looks
at the record in front of the array, and the shift for the last free slot
writes the record behind it. A query goes on from there: what lies in front of
the array and behind it is memory that holds something.
-/

namespace ResultBounds

open CStrings Worker ResultList HaltingRuns

section Source

/-- `array[array_size - 1].freq`, as `determineInsertPos` reads it. -/
def lastFreq (before : Int) (array : List FreqRecord) (arraySize : Nat) : Int :=
  if arraySize = 0 then before else ((array[arraySize - 1]?).map FreqRecord.freq).getD 0

/-- The indices that `determine_insert_pos` reads. -/
def posIndices (before : Int) (array : List FreqRecord) (child : FreqRecord)
    (arraySize : Nat) : List Int :=
  if arraySize < MAXRECORDS then
    ((arraySize : Int) - 1) ::
      if lastFreq before array arraySize < child.freq then
        let searched : Nat :=
          match (array.take (arraySize - 1)).findIdx? fun r => r.freq ≤ child.freq with
          | some i => i + 1
          | none => arraySize - 1
        (List.range searched).map Nat.cast
      else []
  else []

/-- `array[i+1] = array[i]`, turn by turn. -/
def shiftIndices (pos : Nat) : Nat → List Int
  | 0 => []
  | turns + 1 =>
      ((pos + turns : Nat) : Int) :: ((pos + turns + 1 : Nat) : Int) :: shiftIndices pos turns

def insertIndices (before : Int) (x : Results) (child : FreqRecord) : List Int :=
  posIndices before x.cells child x.count ++
    match determineInsertPos before x.cells child x.count with
    | none => []
    | some pos => shiftIndices pos (x.count + 1 - pos) ++ [(pos : Int)]

/-- Printing reads the record at which it stops. -/
def printIndices (frp : List FreqRecord) : List Int :=
  (List.range ((printFreqRecords frp).length + 1)).map Nat.cast

/-- One call of `insert`; it never halts. -/
def step (before : Int) (x : Results) (child : FreqRecord) : Except Empty Results :=
  .ok (insert before x child)

end Source

def Inside (i : Int) : Prop := 0 ≤ i ∧ i < MAXRECORDS

instance (i : Int) : Decidable (Inside i) := inferInstanceAs (Decidable (_ ∧ _))

/-- The next call stays in the array, and so does printing if the query ends before it. -/
structure StaysInside (before : Int) (x : Results) (child : FreqRecord) : Prop where
  indices : ∀ i ∈ insertIndices before x child, Inside i
  counted : (insert before x child).count ≤ MAXRECORDS
  printed : ∀ i ∈ printIndices (swapLast x), Inside i

/-- There is a record in the array already, and at least two more slots than records, or one and
the record is turned away. -/
def HasRoom (before : Int) (x : Results) (child : FreqRecord) : Prop :=
  0 < x.count ∧ (x.count + 1 < MAXRECORDS ∨
    x.count + 1 = MAXRECORDS ∧ child.freq ≤ lastFreq before x.cells x.count)

/-- The array with named records in it. -/
def Filled (x : Results) : Prop := ∃ used, Holds used x ∧ ∀ r ∈ used, Named r

variable {before : Int} {behind child : FreqRecord} {used : List FreqRecord} {x : Results}
  {pos turns : Nat}

section Indices

theorem Holds.count_le (holds : Holds used x) : x.count ≤ MAXRECORDS := by
  obtain ⟨count, rest, _, size⟩ := holds
  omega

theorem mem_shiftIndices {i : Int} (h : i ∈ shiftIndices pos turns) : 0 ≤ i ∧ i ≤ pos + turns := by
  induction turns with
  | zero => cases h
  | succ turns ih =>
    simp only [shiftIndices, List.mem_cons] at h
    rcases h with rfl | rfl | later
    · omega
    · omega
    · have := ih later
      omega

/-- The first turn writes one slot behind the elements. -/
theorem top_mem_shiftIndices (some_turn : 0 < turns) :
    ((pos + turns : Nat) : Int) ∈ shiftIndices pos turns := by
  obtain ⟨turns, rfl⟩ : ∃ k, turns = k + 1 := ⟨turns - 1, by omega⟩
  simp [shiftIndices, Nat.add_assoc]

theorem determineInsertPos_eq_none
    (turned : ¬ (x.count < MAXRECORDS ∧ lastFreq before x.cells x.count < child.freq)) :
    determineInsertPos before x.cells child x.count = none := if_neg turned

theorem determineInsertPos_eq_some (room : x.count < MAXRECORDS)
    (above : lastFreq before x.cells x.count < child.freq) :
    ∃ pos ≤ x.count, determineInsertPos before x.cells child x.count = some pos := by
  have taken : determineInsertPos before x.cells child x.count =
      match (x.cells.take (x.count - 1)).findIdx? fun r => r.freq ≤ child.freq with
      | some i => some i
      | none => some x.count := if_pos ⟨room, above⟩
  rw [taken]
  cases found : (x.cells.take (x.count - 1)).findIdx? fun r => r.freq ≤ child.freq with
  | none => exact ⟨x.count, Nat.le_refl _, rfl⟩
  | some i =>
    have inside := (List.findIdx?_eq_some_iff_findIdx_eq.mp found).1
    rw [List.length_take] at inside
    exact ⟨i, by omega, rfl⟩

/-- The search stays below the last element. -/
theorem mem_posIndices {i : Int} (some_element : 0 < x.count)
    (h : i ∈ posIndices before x.cells child x.count) : 0 ≤ i ∧ i < x.count := by
  unfold posIndices at h
  split at h
  · rcases List.mem_cons.mp h with rfl | h
    · omega
    · split at h
      · extract_lets searched at h
        have short : searched ≤ x.count - 1 := by
          simp only [searched]
          split
          · rename_i j found
            have inside := (List.findIdx?_eq_some_iff_findIdx_eq.mp found).1
            rw [List.length_take] at inside
            omega
          · exact Nat.le_refl _
        obtain ⟨j, hj, rfl⟩ := List.mem_map.mp h
        have := List.mem_range.mp hj
        constructor <;> omega
      · cases h
  · cases h

/-- A call for a full array touches nothing; the others need an element to compare with, and a
record that is taken needs two free slots. -/
theorem insertIndices_inside (small : x.count ≤ MAXRECORDS) :
    (∀ i ∈ insertIndices before x child, Inside i) ↔
      x.count = MAXRECORDS ∨ 0 < x.count ∧
        (x.count + 1 < MAXRECORDS ∨ child.freq ≤ lastFreq before x.cells x.count) := by
  by_cases full : x.count = MAXRECORDS
  · have none : determineInsertPos before x.cells child x.count = none :=
      determineInsertPos_eq_none (by omega)
    simp only [insertIndices, none]
    simp [posIndices, full]
  · have room : x.count < MAXRECORDS := by omega
    rw [or_iff_right full]
    constructor
    · intro inside
      have first : ((x.count : Int) - 1) ∈ insertIndices before x child := by
        simp [insertIndices, posIndices, room]
      refine ⟨by have := (inside _ first).1; omega, ?_⟩
      by_cases above : lastFreq before x.cells x.count < child.freq
      · obtain ⟨pos, low, found⟩ := determineInsertPos_eq_some room above
        have top :
            ((pos + (x.count + 1 - pos) : Nat) : Int) ∈ shiftIndices pos (x.count + 1 - pos) :=
          top_mem_shiftIndices (by omega)
        have last :=
          inside _ (List.mem_append_right _ (by rw [found]; exact List.mem_append_left _ top))
        exact .inl (by have := last.2; omega)
      · exact .inr (by omega)
    · rintro ⟨some_element, fits⟩ i hi
      rcases List.mem_append.mp hi with read | moved
      · have := mem_posIndices some_element read
        exact ⟨this.1, by omega⟩
      · by_cases above : lastFreq before x.cells x.count < child.freq
        · obtain ⟨pos, low, found⟩ := determineInsertPos_eq_some room above
          rw [found] at moved
          rcases List.mem_append.mp moved with shifted | here
          · have := mem_shiftIndices shifted
            exact ⟨this.1, by omega⟩
          · obtain rfl : i = pos := by simpa using here
            exact ⟨by omega, by omega⟩
        · rw [determineInsertPos_eq_none (by omega)] at moved
          cases moved

end Indices

section Runs

theorem named_place (named : ∀ r ∈ used, Named r) (hchild : Named child) :
    ∀ r ∈ place before used child, Named r := by
  intro r hr
  unfold place at hr
  split at hr
  · exact named r hr
  · rename_i pos _
    rcases List.mem_append.mp hr with front | back
    · exact named r (List.mem_of_mem_take front)
    · rcases List.mem_cons.mp back with rfl | back
      · exact hchild
      · exact named r (List.mem_of_mem_drop back)

theorem filled_empty (behind : FreqRecord) : Filled (emptyResults behind) :=
  ⟨[], emptyResults_holds behind, by simp⟩

theorem Filled.insert (filled : Filled x) (named : Named child) :
    Filled (ResultList.insert before x child) := by
  obtain ⟨used, holds, all⟩ := filled
  exact ⟨_, insert_holds holds, named_place all named⟩

/-- What is printed has as many records as the array. -/
theorem length_printed (holds : Holds used x) (named : ∀ r ∈ used, Named r) :
    (printFreqRecords (swapLast x)).length = x.count := by
  rcases Nat.lt_or_ge used.length 2 with few | many
  · rw [printed_few holds few named, holds.1]
  · obtain ⟨front, b, rfl⟩ : ∃ front b, used = front ++ [b] := by
      rcases List.eq_nil_or_concat used with rfl | ⟨front, b, rfl⟩
      · simp at many
      · exact ⟨front, b, List.concat_eq_append⟩
    obtain ⟨front, a, rfl⟩ : ∃ front' a, front = front' ++ [a] := by
      rcases List.eq_nil_or_concat front with rfl | ⟨front, a, rfl⟩
      · simp at many
      · exact ⟨front, a, List.concat_eq_append⟩
    have pair : front ++ [a] ++ [b] = front ++ [a, b] := by simp
    rw [pair] at holds named
    rw [printed_swapped holds named, holds.1]
    simp

theorem printIndices_inside (filled : Filled x) :
    (∀ i ∈ printIndices (swapLast x), Inside i) ↔ x.count < MAXRECORDS := by
  obtain ⟨used, holds, named⟩ := filled
  rw [printIndices, length_printed holds named]
  constructor
  · intro inside
    have :=
      (inside x.count (List.mem_map.mpr ⟨x.count, List.mem_range.mpr (Nat.lt_succ_self _), rfl⟩)).2
    omega
  · intro room i hi
    obtain ⟨j, hj, rfl⟩ := List.mem_map.mp hi
    have := List.mem_range.mp hj
    exact ⟨by omega, by omega⟩

theorem staysInside_iff_step (filled : Filled x) (named : Named child) :
    StaysInside before x child ↔ HasRoom before x child := by
  have small : x.count ≤ MAXRECORDS := by
    obtain ⟨used, holds, _⟩ := filled
    exact Holds.count_le holds
  have counted : (insert before x child).count ≤ MAXRECORDS := by
    obtain ⟨used, holds, _⟩ : Filled (insert before x child) := filled.insert named
    exact Holds.count_le holds
  have printed := printIndices_inside filled
  have indices : (∀ i ∈ insertIndices before x child, Inside i) ↔ _ := insertIndices_inside small
  constructor
  · rintro ⟨touched, _, shown⟩
    have room := printed.mp shown
    obtain ⟨some_element, fits⟩ := (indices.mp touched).resolve_left (by omega)
    exact ⟨some_element, by omega⟩
  · rintro ⟨some_element, fits⟩
    exact ⟨indices.mpr (.inr ⟨some_element, by omega⟩), counted, printed.mpr (by omega)⟩

/-- Wherever a query has come to, a further run of calls stays in the array exactly when each of
them finds an element and room. -/
theorem staysInside_iff (before : Int) (behind : FreqRecord) (earlier later : List FreqRecord)
    (named : ∀ r ∈ earlier ++ later, Named r) :
    Along (step before) (StaysInside before)
      (earlier.foldl (insert before) (emptyResults behind)) later ↔
      Along (step before) (HasRoom before)
        (earlier.foldl (insert before) (emptyResults behind)) later := by
  have reached : Filled (earlier.foldl (insert before) (emptyResults behind)) :=
    List.foldlRecOn earlier _ (filled_empty behind) fun x filled r hr =>
      filled.insert (named r (List.mem_append_left _ hr))
  refine along_congr reached
    (along_of_forall fun r hr => named r (List.mem_append_right _ hr)) ?_ ?_
  · intro x r y filled named _ h
    obtain rfl : ResultList.insert before x r = y := Except.ok.inj h
    exact filled.insert named
  · intro x r filled named
    exact staysInside_iff_step filled named

theorem staysInside_iff_two :
    (∀ r ∈ [found 3] ++ [found 5], Named r) ∧
      (Along (step 0) (StaysInside 0)
          ([found 3].foldl (insert 0) (emptyResults getEmptyFreqrecord)) [found 5] ↔
        Along (step 0) (HasRoom 0) ([found 3].foldl (insert 0) (emptyResults getEmptyFreqrecord))
          [found 5]) := by
  have named : ∀ r ∈ [found 3] ++ [found 5], Named r := by
    simp only [List.cons_append, List.nil_append, List.forall_mem_cons]
    exact ⟨named_of_sent (by decide), named_of_sent (by decide), by simp⟩
  exact ⟨named, staysInside_iff 0 getEmptyFreqrecord _ _ named⟩

/-- The first record of a query is compared with the one in front of the array. -/
theorem reads_in_front :
    ¬ ∀ (before : Int) (behind : FreqRecord) (earlier later : List FreqRecord),
      (∀ r ∈ earlier ++ later, 0 < r.freq ∧ Named r) →
        Along (step before) (StaysInside before)
          (earlier.foldl (insert before) (emptyResults behind)) later := by
  intro always
  have named : ∀ r ∈ [] ++ [found 5], 0 < r.freq ∧ Named r := by
    simpa using ⟨by decide, named_of_sent (by decide)⟩
  have inside := (always 0 getEmptyFreqrecord [] [found 5] named).1.indices
  exact absurd
    (inside (-1) (by simp [insertIndices, posIndices, emptyResults, MAXRECORDS])) (by decide)

end Runs

end ResultBounds
