import CSC209.A3.Worker
import CSC209.Selection
import Mathlib.Data.List.Sort

/-!
# The master's list of results

For each query the master keeps the records of its workers in an array of
`MAXRECORDS` slots. `insert` compares a record with the last one in the array,
and as long as there is none with `array[-1].freq`, one record's length in
front of the array; it shifts the records behind the position one further, so
that the last of `MAXRECORDS` insertions also writes the slot behind the array. `cells` are the
slots with that one. The list is printed up to the first empty file name.
-/

namespace ResultList

open CStrings FreqList Worker Selection

def MAXRECORDS : Nat := 100

/-- The array with the record behind it, and the number of its elements. -/
structure Results where
  cells : List FreqRecord
  count : Nat
  deriving DecidableEq, Repr

/-- `before` is what `array[-1].freq` reads. -/
def determineInsertPos (before : Int) (array : List FreqRecord) (child : FreqRecord)
    (arraySize : Nat) :
    Option Nat :=
  let last := if arraySize = 0 then before else ((array[arraySize - 1]?).map FreqRecord.freq).getD 0
  if arraySize < MAXRECORDS ∧ last < child.freq then
    match (array.take (arraySize - 1)).findIdx? fun r => r.freq ≤ child.freq with
    | some i => some i
    | none => some arraySize
  else none

/-- `for (i = …; i >= pos; i--) array[i+1] = array[i];` with so many turns left. -/
def shift (pos : Nat) : Nat → List FreqRecord → List FreqRecord
  | 0, array => array
  | turns + 1, array =>
      shift pos turns (array.set (pos + turns + 1) (array.getD (pos + turns) getEmptyFreqrecord))

def insert (before : Int) (x : Results) (child : FreqRecord) : Results :=
  match determineInsertPos before x.cells child x.count with
  | none => x
  | some pos => ⟨(shift pos (x.count + 1 - pos) x.cells).set pos child, x.count + 1⟩

/-- The master's array before the first record; `behind` is the record behind it. -/
def emptyResults (behind : FreqRecord) : Results :=
  ⟨List.replicate MAXRECORDS getEmptyFreqrecord ++ [behind], 0⟩

/-- `if (count >= 2)` the last two records change places. -/
def swapLast (x : Results) : List FreqRecord :=
  if 2 ≤ x.count then
    (x.cells.set (x.count - 1) (x.cells.getD (x.count - 2) getEmptyFreqrecord)).set (x.count - 2)
      (x.cells.getD (x.count - 1) getEmptyFreqrecord)
  else x.cells

def printFreqRecords (frp : List FreqRecord) : List FreqRecord :=
  frp.takeWhile fun r => cstr r.filename ≠ []

/-- What is printed for the records of a query, in the order of their arrival. -/
def resultList (before : Int) (behind : FreqRecord) (records : List FreqRecord) : List FreqRecord :=
  printFreqRecords (swapLast (records.foldl (insert before) (emptyResults behind)))

/-- The printed list is sorted and holds the records, or as many of the highest ones as fit. -/
def ListsHighest (before : Int) (behind : FreqRecord) (records : List FreqRecord) : Prop :=
  (resultList before behind records).Pairwise (fun r s => s.freq ≤ r.freq) ∧
    Highest FreqRecord.freq MAXRECORDS records (resultList before behind records)

/-- The first record that is above `array[-1].freq` and the first one after it that is above that
one stay the last two of the array. Every later record is above both or above neither of them, and
those above both are all but two of the records, or of those that fit. -/
def Ascends (before : Int) (records : List FreqRecord) : Prop :=
  (records.length ≤ 1 ∧ ∀ r ∈ records, before < r.freq) ∨
    ∃ skipped a mid b rest, records = skipped ++ a :: (mid ++ b :: rest) ∧
      (∀ r ∈ skipped, r.freq ≤ before) ∧ before < a.freq ∧
      (∀ r ∈ mid, r.freq ≤ a.freq) ∧ a.freq < b.freq ∧
      (∀ r ∈ rest, r.freq ≤ a.freq ∨ b.freq < r.freq) ∧
      rest.countP (b.freq < ·.freq) + 2 = min MAXRECORDS records.length

section Insertion

variable {before : Int} {child : FreqRecord} {used : List FreqRecord} {x : Results}

/-- The loop moves a block one slot on, and the new record takes its first slot. -/
theorem shift_set (child : FreqRecord) (front block rest : List FreqRecord) (t : FreqRecord) :
    (shift front.length block.length (front ++ (block ++ t :: rest))).set front.length child =
      front ++ child :: (block ++ rest) := by
  induction block using List.reverseRecOn generalizing t rest with
  | nil => simp [shift]
  | append_singleton block y ih =>
    have moved : (front ++ (block ++ [y] ++ t :: rest)).set (front.length + block.length + 1)
        ((front ++ (block ++ [y] ++ t :: rest)).getD (front.length + block.length)
            getEmptyFreqrecord) =
        front ++ (block ++ y :: y :: rest) := by
      simp [Nat.add_assoc, List.set_append_right]
    rw [List.length_append, List.length_singleton, shift, moved, ih]
    simp

/-- The elements of the array; the slot behind them holds the empty record. -/
def Holds (used : List FreqRecord) (x : Results) : Prop :=
  x.count = used.length ∧
    ∃ rest, x.cells = used ++ getEmptyFreqrecord :: rest ∧ used.length + rest.length = MAXRECORDS

theorem emptyResults_holds (behind : FreqRecord) : Holds [] (emptyResults behind) := by
  refine ⟨rfl, List.replicate 99 getEmptyFreqrecord ++ [behind], ?_, by simp [MAXRECORDS]⟩
  simp [emptyResults, MAXRECORDS, List.replicate_succ (n := 99)]

/-- What an insertion makes of the elements. -/
def place (before : Int) (used : List FreqRecord) (child : FreqRecord) : List FreqRecord :=
  match determineInsertPos before used child used.length with
  | none => used
  | some pos => used.take pos ++ child :: used.drop pos

theorem determineInsertPos_append (free : List FreqRecord) :
    determineInsertPos before (used ++ free) child used.length =
      determineInsertPos before used child used.length := by
  cases used with
  | nil => simp [determineInsertPos]
  | cons r used =>
    have slot : used.length < ((r :: used) ++ free).length := by
      simp only [List.length_append, List.length_cons]
      omega
    have front : ((r :: used) ++ free).take used.length = (r :: used).take used.length :=
      List.take_append_of_le_length (by simp)
    simp only [determineInsertPos, List.length_cons, Nat.add_sub_cancel, front,
      List.getElem?_append_left (show used.length < (r :: used).length by simp)]

theorem determineInsertPos_le {pos : Nat} (array : List FreqRecord)
    (found : determineInsertPos before array child used.length = some pos) :
    pos ≤ used.length ∧ used.length < MAXRECORDS := by
  unfold determineInsertPos at found
  extract_lets last at found
  split at found
  · rename_i fits
    refine ⟨?_, fits.1⟩
    split at found
    · rename_i i here
      have inside := (List.findIdx?_eq_some_iff_findIdx_eq.mp here).1
      have : (array.take (used.length - 1)).length ≤ used.length - 1 := by simp
      have : i = pos := by simpa using found
      omega
    · simp at found
      omega
  · simp at found

theorem insert_holds (holds : Holds used x) :
    Holds (place before used child) (insert before x child) := by
  obtain ⟨count, rest, cells, size⟩ := holds
  have pos : determineInsertPos before x.cells child x.count =
      determineInsertPos before used child used.length := by
    rw [cells, count, determineInsertPos_append]
  simp only [insert, place, pos]
  cases found : determineInsertPos before used child used.length with
  | none => exact ⟨count, rest, cells, size⟩
  | some pos =>
    obtain ⟨inside, room⟩ := determineInsertPos_le used found
    cases rest with
    | nil => simp only [List.length_nil] at size; omega
    | cons t rest =>
      have parts : x.cells = used.take pos ++
          ((used.drop pos ++ [getEmptyFreqrecord]) ++ t :: rest) := by
        rw [cells, ← List.append_assoc, ← List.append_assoc, List.take_append_drop]
        simp
      have front : (used.take pos).length = pos := by simpa using inside
      have block : (used.drop pos ++ [getEmptyFreqrecord]).length = x.count + 1 - pos := by
        simp only [List.length_append, List.length_drop, List.length_singleton, count]
        omega
      have moved := shift_set child (used.take pos)
        (used.drop pos ++ [getEmptyFreqrecord]) rest t
      rw [front, block, ← parts] at moved
      refine ⟨?_, rest, ?_, ?_⟩
      · simp only [List.length_append, List.length_cons, List.length_take, List.length_drop, count]
        omega
      · simp only [moved]
        simp
      · simp only [List.length_append, List.length_cons, List.length_take, List.length_drop]
          at size ⊢
        omega

theorem insertions_hold (records : List FreqRecord) (holds : Holds used x) :
    Holds (records.foldl (place before) used) (records.foldl (insert before) x) := by
  induction records generalizing used x with
  | nil => exact holds
  | cons r records ih => exact ih (insert_holds holds)

end Insertion

section Places

variable {before : Int} {a b child : FreqRecord} {front : List FreqRecord}

abbrev Below (r s : FreqRecord) : Prop := s.freq ≤ r.freq

theorem place_nil : place before [] child = if before < child.freq then [child] else [] := by
  by_cases above : before < child.freq <;> simp [place, determineInsertPos, MAXRECORDS, above]

theorem place_one : place before [a] child = if a.freq < child.freq then [a, child] else [a] := by
  by_cases above : a.freq < child.freq <;> simp [place, determineInsertPos, MAXRECORDS, above]

/-- The search in all but the last element finds where the record belongs. -/
theorem search_orderedInsert (front back : List FreqRecord) (hit : a.freq ≤ child.freq) :
    ∃ pos, (front ++ [a]).findIdx? (fun r => r.freq ≤ child.freq) = some pos ∧
      (front ++ a :: back).take pos ++ child :: (front ++ a :: back).drop pos =
        front.orderedInsert Below child ++ a :: back := by
  induction front with
  | nil => exact ⟨0, by simp [hit], rfl⟩
  | cons r front ih =>
    by_cases here : r.freq ≤ child.freq
    · exact ⟨0, by simp [List.findIdx?_cons, here], by simp [here]⟩
    · obtain ⟨pos, found, placed⟩ := ih
      refine ⟨pos + 1, by simp [List.findIdx?_cons, here, found], ?_⟩
      simpa [here] using placed

/-- With at least two elements the last two stay where they are. -/
theorem place_two (rises : a.freq < b.freq) :
    place before (front ++ [a, b]) child =
      if front.length + 2 < MAXRECORDS ∧ b.freq < child.freq then
        front.orderedInsert Below child ++ [a, b]
      else front ++ [a, b] := by
  have last : (front ++ [a, b])[front.length + 2 - 1]? = some b := by
    rw [List.getElem?_append_right (by omega)]
    simp
  have searched : (front ++ [a, b]).take (front.length + 2 - 1) = front ++ [a] := by
    rw [List.take_append]
    simp
  simp only [place, determineInsertPos, List.length_append, List.length_cons, List.length_nil,
    Nat.zero_add, last, searched, Option.map_some, Option.getD_some,
    if_neg (show ¬ front.length + 2 = 0 by omega)]
  by_cases fits : front.length + 2 < MAXRECORDS ∧ b.freq < child.freq
  · obtain ⟨pos, found, placed⟩ := search_orderedInsert front [b]
      (show a.freq ≤ child.freq by have := fits.2; omega)
    rw [if_pos fits, if_pos fits, found]
    exact placed
  · rw [if_neg fits, if_neg fits]

/-- The records that are inserted once two elements are there. -/
def raised (b : FreqRecord) (front rest : List FreqRecord) : List FreqRecord :=
  (rest.filter (b.freq < ·.freq)).take (MAXRECORDS - 2 - front.length)

/-- The elements in front of the last two stay sorted. -/
theorem places_two (before : Int) (rest : List FreqRecord) (rises : a.freq < b.freq)
    (sorted : front.Pairwise Below) (above : ∀ r ∈ front, b.freq < r.freq) :
    ∃ front', rest.foldl (place before) (front ++ [a, b]) = front' ++ [a, b] ∧
      front'.Perm (front ++ raised b front rest) ∧ front'.Pairwise Below := by
  induction rest generalizing front with
  | nil => exact ⟨front, rfl, by simp [raised], sorted⟩
  | cons child rest ih =>
    rw [List.foldl_cons, place_two rises]
    by_cases fits : front.length + 2 < MAXRECORDS ∧ b.freq < child.freq
    · have inserted := List.perm_orderedInsert Below child front
      obtain ⟨front', run, perm, sorted'⟩ := ih (sorted.orderedInsert child front) (by
        intro r hr
        rcases List.mem_cons.mp (inserted.mem_iff.mp hr) with rfl | old
        exacts [fits.2, above r old])
      have later : child :: raised b (front.orderedInsert Below child) rest =
          raised b front (child :: rest) := by
        have turns : MAXRECORDS - 2 - front.length =
            MAXRECORDS - 2 - (front.orderedInsert Below child).length + 1 := by
          rw [List.orderedInsert_length]
          omega
        simp [raised, fits.2, turns]
      refine ⟨front', by rw [if_pos fits, run], ?_, sorted'⟩
      rw [← later]
      exact perm.trans ((inserted.append_right _).trans List.perm_middle.symm)
    · obtain ⟨front', run, perm, sorted'⟩ := ih sorted above
      have later : raised b front rest = raised b front (child :: rest) := by
        by_cases more : b.freq < child.freq
        · have full : MAXRECORDS - 2 - front.length = 0 := by
            have := fun room => fits ⟨room, more⟩
            omega
          simp [raised, full]
        · simp [raised, more]
      exact ⟨front', by rw [if_neg fits, run], later ▸ perm, sorted'⟩

end Places

section Printing

variable {before : Int} {behind : FreqRecord} {a b : FreqRecord} {used : List FreqRecord}

/-- A record that the list can show: its file name is not empty. -/
def Named (r : FreqRecord) : Prop := cstr r.filename ≠ []

theorem named_of_sent {r : FreqRecord} (sent : r.Sent) : Named r := by
  obtain ⟨_, dot, _⟩ := sent
  cases name : r.filename with
  | nil => simp [name] at dot
  | cons c rest =>
    obtain rfl : c = 46 := by simpa [name] using dot
    simp [Named, name, cstr, NUL]

theorem printFreqRecords_filled (shown rest : List FreqRecord) (named : ∀ r ∈ shown, Named r) :
    printFreqRecords (shown ++ getEmptyFreqrecord :: rest) = shown := by
  have stop : cstr getEmptyFreqrecord.filename = [] := by decide
  rw [printFreqRecords, List.takeWhile_append_of_pos (by simpa [Named] using named)]
  simp [stop]

/-- At most one element is printed as it is. -/
theorem printed_few {x : Results} (holds : Holds used x) (few : used.length < 2)
    (named : ∀ r ∈ used, Named r) : printFreqRecords (swapLast x) = used := by
  obtain ⟨count, rest, cells, _⟩ := holds
  rw [swapLast, if_neg (by omega), cells, printFreqRecords_filled used rest named]

/-- Of more elements the last two are exchanged. -/
theorem printed_swapped {x : Results} {front : List FreqRecord} (holds : Holds (front ++ [a, b]) x)
    (named : ∀ r ∈ front ++ [a, b], Named r) :
    printFreqRecords (swapLast x) = front ++ [b, a] := by
  obtain ⟨count, rest, cells, _⟩ := holds
  have size : x.count = front.length + 2 := by simpa using count
  have swapped : swapLast x = (front ++ [b, a]) ++ getEmptyFreqrecord :: rest := by
    rw [swapLast, if_pos (by omega), size, cells]
    simp [List.set_append_right]
  rw [swapped, printFreqRecords_filled]
  intro r hr
  exact named r (by simpa [or_comm, or_left_comm] using hr)

theorem resultList_few {records : List FreqRecord}
    (run : records.foldl (place before) [] = used) (few : used.length < 2)
    (named : ∀ r ∈ used, Named r) : resultList before behind records = used :=
  printed_few (run ▸ insertions_hold records (emptyResults_holds behind)) few named

end Printing

section Runs

variable {before : Int} {behind : FreqRecord} {a b : FreqRecord}
  {skipped mid rest : List FreqRecord}

theorem skips_below (records : List FreqRecord) (below : ∀ r ∈ records, r.freq ≤ before) :
    records.foldl (place before) [] = [] := by
  induction records with
  | nil => rfl
  | cons r records ih =>
    have here := below r (by simp)
    rw [List.foldl_cons, place_nil, if_neg (by omega)]
    exact ih fun s hs => below s (by simp [hs])

theorem skips_one (records : List FreqRecord) (below : ∀ r ∈ records, r.freq ≤ a.freq) :
    records.foldl (place before) [a] = [a] := by
  induction records with
  | nil => rfl
  | cons r records ih =>
    have here := below r (by simp)
    rw [List.foldl_cons, place_one, if_neg (by omega)]
    exact ih fun s hs => below s (by simp [hs])

theorem run_to_one (low : ∀ r ∈ skipped, r.freq ≤ before) (first : before < a.freq)
    (flat : ∀ r ∈ mid, r.freq ≤ a.freq) :
    (skipped ++ a :: mid).foldl (place before) [] = [a] := by
  rw [List.foldl_append, skips_below skipped low, List.foldl_cons, place_nil, if_pos first,
    skips_one mid flat]

/-- The printed list after two elements: it is sorted, and what is not on it was skipped, was too
low or did not fit. -/
theorem resultList_two (behind : FreqRecord) (low : ∀ r ∈ skipped, r.freq ≤ before)
    (first : before < a.freq) (flat : ∀ r ∈ mid, r.freq ≤ a.freq) (rises : a.freq < b.freq)
    (named : ∀ r ∈ skipped ++ a :: (mid ++ b :: rest), Named r) :
    (resultList before behind (skipped ++ a :: (mid ++ b :: rest))).Pairwise Below ∧
      (resultList before behind (skipped ++ a :: (mid ++ b :: rest))).Perm
        (raised b [] rest ++ [b, a]) := by
  obtain ⟨front, run, perm, sorted⟩ := places_two before rest rises List.Pairwise.nil (by simp)
  have whole : (skipped ++ a :: (mid ++ b :: rest)).foldl (place before) [] = front ++ [a, b] := by
    rw [← List.cons_append, ← List.append_assoc, List.foldl_append, run_to_one low first flat,
      List.foldl_cons, place_one, if_pos rises]
    exact run
  have members : ∀ r ∈ front, r ∈ rest ∧ b.freq < r.freq := by
    intro r hr
    simpa using List.mem_of_mem_take (perm.mem_iff.mp hr)
  have shown : resultList before behind (skipped ++ a :: (mid ++ b :: rest)) = front ++ [b, a] := by
    refine printed_swapped (whole ▸ insertions_hold _ (emptyResults_holds behind)) ?_
    intro r hr
    refine named r ?_
    rcases List.mem_append.mp hr with old | last
    · simp [(members r old).1]
    · rcases (by simpa using last : r = a ∨ r = b) with rfl | rfl <;> simp
  rw [shown]
  refine ⟨List.pairwise_append.mpr ⟨sorted, ?_, ?_⟩, perm.append_right _⟩
  · simpa [Below] using Int.le_of_lt rises
  · intro r hr s hs
    have high := (members r hr).2
    rcases (by simpa using hs : s = b ∨ s = a) with rfl | rfl <;> simp only [Below] <;> omega

end Runs

section Exact

variable {before : Int} {behind : FreqRecord} {a b : FreqRecord}
  {records skipped mid tail rest : List FreqRecord}

theorem listsHighest_none (low : ∀ r ∈ records, r.freq ≤ before) :
    ListsHighest before behind records ↔ records = [] := by
  rw [ListsHighest, resultList_few (skips_below records low) (by simp) (by simp),
    highest_iff (show ([] ++ records).Perm records by simp)]
  constructor
  · rintro ⟨_, size, _⟩
    exact List.length_eq_zero_iff.mp (by simp only [List.length_nil, MAXRECORDS] at size; omega)
  · rintro rfl
    simp

theorem listsHighest_one (low : ∀ r ∈ skipped, r.freq ≤ before) (first : before < a.freq)
    (flat : ∀ r ∈ tail, r.freq ≤ a.freq) (named : ∀ r ∈ skipped ++ a :: tail, Named r) :
    ListsHighest before behind (skipped ++ a :: tail) ↔ skipped = [] ∧ tail = [] := by
  rw [ListsHighest, resultList_few (run_to_one low first flat) (by simp)
    (by simpa using named a (by simp)), highest_iff
    (show ([a] ++ (skipped ++ tail)).Perm _ by simpa using List.perm_middle.symm)]
  constructor
  · rintro ⟨_, size, _⟩
    simp only [MAXRECORDS, List.length_append, List.length_cons, List.length_nil] at size
    exact ⟨List.length_eq_zero_iff.mp (by omega), List.length_eq_zero_iff.mp (by omega)⟩
  · rintro ⟨rfl, rfl⟩
    simp [MAXRECORDS]

/-- What the list shows after two elements, and what it leaves out. -/
theorem shown_perm (skipped mid rest : List FreqRecord) :
    ((raised b [] rest ++ [b, a]) ++
      (skipped ++ mid ++ rest.filter (fun r => !decide (b.freq < r.freq)) ++
        (rest.filter (b.freq < ·.freq)).drop (MAXRECORDS - 2))).Perm
      (skipped ++ a :: (mid ++ b :: rest)) := by
  refine List.perm_iff_count.mpr fun r => ?_
  have apart := (List.filter_append_perm (b.freq < ·.freq) rest).count_eq r
  have cut := congrArg (List.count r)
    (List.take_append_drop (MAXRECORDS - 2) (rest.filter (b.freq < ·.freq)))
  simp only [List.count_append, List.count_cons, List.count_nil, raised, List.length_nil,
    Nat.sub_zero] at apart cut ⊢
  omega

theorem dropped_iff : (rest.filter (b.freq < ·.freq)).drop (MAXRECORDS - 2) = [] ↔
    rest.countP (b.freq < ·.freq) ≤ MAXRECORDS - 2 := by
  rw [List.drop_eq_nil_iff, List.countP_eq_length_filter]

theorem listsHighest_two (low : ∀ r ∈ skipped, r.freq ≤ before) (first : before < a.freq)
    (flat : ∀ r ∈ mid, r.freq ≤ a.freq) (rises : a.freq < b.freq)
    (named : ∀ r ∈ skipped ++ a :: (mid ++ b :: rest), Named r) :
    ListsHighest before behind (skipped ++ a :: (mid ++ b :: rest)) ↔
      (∀ r ∈ rest, r.freq ≤ a.freq ∨ b.freq < r.freq) ∧
        rest.countP (b.freq < ·.freq) + 2 =
          min MAXRECORDS (skipped ++ a :: (mid ++ b :: rest)).length := by
  obtain ⟨sorted, shown⟩ := resultList_two behind low first flat rises named
  rw [ListsHighest, and_iff_right sorted, highest_congr shown,
    highest_iff (shown_perm skipped mid rest)]
  have size : (raised b [] rest ++ [b, a]).length =
      min (MAXRECORDS - 2) (rest.countP (b.freq < ·.freq)) + 2 := by
    simp [raised, List.countP_eq_length_filter]
  rw [size]
  constructor
  · rintro ⟨full, above⟩
    have lowest := above a (by simp)
    have few : rest.countP (b.freq < ·.freq) ≤ MAXRECORDS - 2 := by
      refine dropped_iff.mp (List.eq_nil_iff_forall_not_mem.mpr fun r hr => ?_)
      have := lowest r (by simp [hr])
      have : b.freq < r.freq := (by simpa using List.mem_of_mem_drop hr : r ∈ rest ∧ _).2
      omega
    refine ⟨fun r hr => ?_, by omega⟩
    by_cases high : b.freq < r.freq
    · exact .inr high
    · exact .inl (lowest r (by simp [hr, Int.not_lt.mp high]))
  · rintro ⟨apart, full⟩
    have few : rest.countP (b.freq < ·.freq) ≤ MAXRECORDS - 2 := by
      simp only [MAXRECORDS] at full ⊢
      omega
    have dropped := dropped_iff.mpr few
    refine ⟨by omega, fun s hs r hr => ?_⟩
    have below : r.freq ≤ a.freq := by
      simp only [dropped, List.append_nil, List.mem_append, List.mem_filter] at hr
      rcases hr with (before' | flat') | ⟨here, high⟩
      · have := low r before'
        omega
      · exact flat r flat'
      · exact (apart r here).resolve_right (by simpa using high)
    have above : a.freq ≤ s.freq := by
      rcases List.mem_append.mp hs with raised' | last
      · have : b.freq < s.freq := (by simpa using List.mem_of_mem_take raised' : s ∈ rest ∧ _).2
        omega
      · rcases (by simpa using last : s = b ∨ s = a) with rfl | rfl <;> omega
    omega

theorem ascends_two (low : ∀ r ∈ skipped, r.freq ≤ before) (first : before < a.freq)
    (flat : ∀ r ∈ mid, r.freq ≤ a.freq) (rises : a.freq < b.freq) :
    Ascends before (skipped ++ a :: (mid ++ b :: rest)) ↔
      (∀ r ∈ rest, r.freq ≤ a.freq ∨ b.freq < r.freq) ∧
        rest.countP (b.freq < ·.freq) + 2 =
          min MAXRECORDS (skipped ++ a :: (mid ++ b :: rest)).length := by
  constructor
  · rintro (⟨few, _⟩
      | ⟨skipped', a', mid', b', rest', same, low', first', flat', rises', apart, fits⟩)
    · simp only [List.length_append, List.length_cons] at few
      omega
    · obtain ⟨rfl, rfl, tails⟩ := first_unique (p := fun r => before < r.freq) same
        (by simpa using low) first (by simpa using low') first'
      obtain ⟨rfl, rfl, rfl⟩ := first_unique (p := fun r => a.freq < r.freq) tails
        (by simpa using flat) rises (by simpa using flat') rises'
      exact ⟨apart, fits⟩
  · rintro ⟨apart, fits⟩
    exact .inr ⟨skipped, a, mid, b, rest, rfl, low, first, flat, rises, apart, fits⟩

/-- Without a second element the list can only be a list of one record. -/
theorem ascends_one (low : ∀ r ∈ skipped, r.freq ≤ before) (first : before < a.freq)
    (flat : ∀ r ∈ tail, r.freq ≤ a.freq) :
    Ascends before (skipped ++ a :: tail) ↔ skipped = [] ∧ tail = [] := by
  constructor
  · rintro (⟨few, _⟩ | ⟨skipped', a', mid', b', rest', same, low', first', _, rises', _⟩)
    · simp only [List.length_append, List.length_cons] at few
      exact ⟨List.length_eq_zero_iff.mp (by omega), List.length_eq_zero_iff.mp (by omega)⟩
    · obtain ⟨rfl, rfl, rfl⟩ := first_unique (p := fun r => before < r.freq) same
        (by simpa using low) first (by simpa using low') first'
      have := flat b' (by simp)
      omega
  · rintro ⟨rfl, rfl⟩
    exact .inl ⟨by simp, by simpa using first⟩

theorem ascends_none (low : ∀ r ∈ records, r.freq ≤ before) :
    Ascends before records ↔ records = [] := by
  constructor
  · rintro (⟨_, high⟩ | ⟨skipped, a, mid, b, rest, rfl, _, first, _⟩)
    · refine List.eq_nil_iff_forall_not_mem.mpr fun r hr => ?_
      have := low r hr
      have := high r hr
      omega
    · have := low a (by simp)
      omega
  · rintro rfl
    exact .inl ⟨by simp, by simp⟩

/-- The printed list is what it should be exactly for these orders of arrival. -/
theorem listsHighest_iff (before : Int) (behind : FreqRecord) (records : List FreqRecord)
    (named : ∀ r ∈ records, Named r) :
    ListsHighest before behind records ↔ Ascends before records := by
  rcases none_or_first (fun r : FreqRecord => before < r.freq) records with
    none | ⟨skipped, a, tail, rfl, low, first⟩
  · have low : ∀ r ∈ records, r.freq ≤ before := by simpa using none
    rw [listsHighest_none low, ascends_none low]
  · have low : ∀ r ∈ skipped, r.freq ≤ before := by simpa using low
    rcases none_or_first (fun r : FreqRecord => a.freq < r.freq) tail with
      none | ⟨mid, b, rest, rfl, flat, rises⟩
    · have flat : ∀ r ∈ tail, r.freq ≤ a.freq := by simpa using none
      rw [listsHighest_one low first flat named, ascends_one low first flat]
    · have flat : ∀ r ∈ mid, r.freq ≤ a.freq := by simpa using flat
      rw [listsHighest_two low first flat rises named, ascends_two low first flat rises]

def found (freq : Int) : FreqRecord := ⟨freq, text "./file"⟩

theorem listsHighest_iff_rising :
    (∀ r ∈ [found 3, found 5, found 9, found 2], Named r) ∧
      (ListsHighest 0 getEmptyFreqrecord [found 3, found 5, found 9, found 2] ↔
        Ascends 0 [found 3, found 5, found 9, found 2]) := by
  have named : ∀ r ∈ [found 3, found 5, found 9, found 2], Named r := by
    simp only [List.forall_mem_cons]
    exact ⟨named_of_sent (by decide), named_of_sent (by decide), named_of_sent (by decide),
      named_of_sent (by decide), by simp⟩
  exact ⟨named, listsHighest_iff 0 getEmptyFreqrecord _ named⟩

/-- The second of two records is dropped when its frequency is not higher. -/
theorem lower_record_dropped :
    ¬ ∀ (before : Int) (behind : FreqRecord) (records : List FreqRecord),
      (∀ r ∈ records, 0 < r.freq ∧ Named r) → ListsHighest before behind records := by
  intro always
  have named : ∀ r ∈ [found 5, found 3], 0 < r.freq ∧ Named r := by
    simp only [List.forall_mem_cons]
    exact ⟨⟨by decide, named_of_sent (by decide)⟩, ⟨by decide, named_of_sent (by decide)⟩, by simp⟩
  have listed := always 0 getEmptyFreqrecord [found 5, found 3] named
  have shown : resultList 0 getEmptyFreqrecord [found 5, found 3] = [found 5] :=
    resultList_few (run_to_one (show ∀ r ∈ ([] : List FreqRecord), r.freq ≤ 0 by simp) (by decide)
      (show ∀ r ∈ [found 3], r.freq ≤ (found 5).freq by decide))
      (by simp) (by simpa using (named (found 5) (by simp)).2)
  obtain ⟨_, _, _, size, _⟩ := listed
  rw [shown] at size
  exact absurd size (by decide)

end Exact

end ResultList
