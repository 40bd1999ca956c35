import CSC209.A3.Indexer

/-!
# The printed index

`printindex` loads the two files of a directory as a worker does and prints the
list, each word with its counter for every name up to the first free slot of
the array. Printed from the files of an indexed directory, it is a table of the
occurrences of all words in all files.
-/

namespace PrintedIndex

open CStrings NodeMemory HaltingRuns FreqList WordList WordIndex IndexedWords IndexFiles Indexer
open WorkerPaths (joined)
open WorkerAnswers (Fits StartsHere frequency)

/-- What one `printf` of `display_list` prints. -/
inductive Shown where
  | word (w : CString)
  | count (freq : Int) (filename : CString)
  | newline
  deriving DecidableEq, Repr

section Program

/-- The loop over the array of names, from slot `i` on. -/
def displayFiles (e : Entry) : Nat → List (Option CString) → List Shown
  | _, [] => []
  | _, none :: _ => [.newline]
  | i, some name :: rest => .count (freqAt e i) name :: displayFiles e (i + 1) rest

def displayEntry (filenames : List (Option CString)) (e : Entry) : List Shown :=
  .word e.str :: displayFiles e 0 filenames

def displayList (m : Memory Node) (filenames : List (Option CString)) :
    Nat → Pointer → Except Fault (List Shown)
  | _, none => .ok []
  | 0, some _ => .error .outOfFuel
  | fuel + 1, some a => do
    let n ← m.read (some a)
    let rest ← displayList m filenames fuel n.next
    .ok (displayEntry filenames n.toEntry ++ rest)

/-- `printindex` on the two files. -/
def main (fmt : PointerFormat) (junk : Node) (listfile namefile : List Byte) (m : Memory Node) :
    Except IndexFiles.Halt (List Shown) := do
  let loaded ← readList fmt junk listfile namefile m initFilenames
  (displayList loaded.nodes loaded.filenames loaded.nodes.size loaded.head).mapError .fault

end Program

section Specification

variable (files : CString → Option (List Byte)) (dirname : CString)

/-- The lines of a word: how often it stands in each file that has words at all. -/
def row (names : List CString) (word : CString) : List Shown :=
  .word word :: ((worded files dirname names).map fun name =>
    .count (occurrences word (content files dirname name)) (joined dirname name)) ++ [.newline]

end Specification

section Lists

variable {m : Memory Node} {filenames : List (Option CString)} {names : List CString} {e : Entry}
  {entries : List Entry}

/-- The list that a walk reads is the list that is printed. -/
theorem displayList_eq (m : Memory Node) (filenames : List (Option CString)) (fuel : Nat)
    (p : Pointer) :
    displayList m filenames fuel p = (m.visit Node.next fuel p).map fun visited =>
      (visited.filterMap fun a => (m.get a).map Node.toEntry).flatMap (displayEntry filenames) := by
  induction fuel generalizing p with
  | zero => cases p <;> rfl
  | succ fuel ih =>
    cases p with
    | none => rfl
    | some a =>
      cases here : m.get a with
      | none => simp [displayList, Memory.visit, Memory.read, here, bind, Except.bind, Except.map]
      | some n =>
        simp only [displayList, Memory.visit, Memory.read_some_of_get here, ih, bind, Except.bind]
        cases m.visit Node.next fuel n.next with
        | error f => rfl
        | ok visited => simp [Except.map, here]

theorem displayList_of_listFrom {p : Pointer} (listed : listFrom m p = .ok entries) :
    displayList m filenames m.size p = .ok (entries.flatMap (displayEntry filenames)) := by
  obtain ⟨visited, walked, same⟩ := bind_ok_iff.mp listed
  simp only [displayList_eq, walked, ← Except.ok.inj same, Except.map]

/-- The names stand in the first slots, and behind them is a free one. -/
theorem displayFiles_eq (e : Entry) (names : List CString)
    (rest : List (Option CString)) (i : Nat) :
    displayFiles e i (names.map some ++ none :: rest) =
      (names.mapIdx fun k name => .count (freqAt e (i + k)) name) ++ [.newline] := by
  induction names generalizing i with
  | nil => rfl
  | cons name names ih =>
    simp only [List.map_cons, List.cons_append, displayFiles, ih, List.mapIdx_cons, Nat.add_zero,
      Nat.add_assoc, Nat.add_comm 1]

end Lists

section Results

variable {files : CString → Option (List Byte)} {dirname : CString} {listing : List CString}
  {x : Index} {e : Entry}

/-- What is printed for an entry of the indexed directory. -/
theorem displayEntry_eq (ok : Indexable files dirname listing)
    (rep : Represents x (stored (calls files dirname (indexed listing))))
    (mem : e ∈ (stored (calls files dirname (indexed listing))).entries)
    (rest : List (Option CString)) :
    displayEntry (((worded files dirname (indexed listing)).map (joined dirname)).map some ++
      none :: rest) e =
      row files dirname (indexed listing) e.str := by
  have counted : ∀ i name, (worded files dirname (indexed listing))[i]? = some name →
      Shown.count (freqAt e (0 + i)) (joined dirname name) =
        .count (occurrences e.str (content files dirname name)) (joined dirname name) := by
    intro i name slot
    have total := total_mem ok.once_strs mem i
    have frequent := frequency_eq ok.once_strs e.str i
    rw [Nat.zero_add, ← total, ← frequent, ok.frequency_slot rep e.str slot]
  simp only [displayEntry, displayFiles_eq, row, mapIdx_map counted, List.cons_append]

/-- What `printindex` has in memory once it has read the files of an indexed directory. -/
theorem loads_index (ok : Indexable files dirname listing) (fmt : PointerFormat) (path : Nat → Byte)
    (junkNode : Node) (m : Memory Node) :
    ∃ (x : Index) (listfile namefile : List Byte) (loaded : Loaded) (rest : List (Option CString)),
      Represents x (stored (calls files dirname (indexed listing))) ∧
      Indexer.main files dirname fmt path listing = .ok (listfile, namefile) ∧
      readList fmt junkNode listfile namefile m initFilenames = .ok loaded ∧
      listFrom loaded.nodes loaded.head =
        .ok (stored (calls files dirname (indexed listing))).entries ∧
      loaded.filenames = ((worded files dirname (indexed listing)).map (joined dirname)).map some ++
        none :: rest := by
  have ran := run_calls (calls files dirname (indexed listing))
  have few := ok.few
  rw [ok.names_eq, List.length_map, if_pos few.le] at ran
  obtain ⟨x, done, rep⟩ := ran
  obtain ⟨cells, listed, loadable⟩ := ok.indexed_cells rep
  obtain ⟨ns, written, entries, sized⟩ := writeList_spec fmt loadable.holds loadable.sized
  rw [loadable.array, nameLines_slots] at written
  have fits : ∀ f ∈ (worded files dirname (indexed listing)).map (joined dirname),
      f.length < PATHLENGTH ∧ NUL ∉ f ∧ LF ∉ f := by
    intro f hf
    obtain ⟨name, mem, rfl⟩ := List.mem_map.mp hf
    obtain ⟨fits, oneLine⟩ := ok.fits_joined (List.mem_of_mem_filter mem)
    exact ⟨fits.1, fits.2, oneLine⟩
  have some_free :
      ((worded files dirname (indexed listing)).map (joined dirname)).length < MAXFILES := by
    rw [List.length_map]
    exact few
  generalize (worded files dirname (indexed listing)).map (joined dirname) = names at *
  have loads := readList_spec fmt junkNode m initFilenames sized fits
    (by simpa [initFilenames] using some_free.le)
  rw [if_pos some_free] at loads
  obtain ⟨loaded, read, list, array⟩ := loads
  refine ⟨x, _, _, loaded, List.replicate (MAXFILES - names.length - 1) none, rep, ?_, read, ?_, ?_⟩
  · have size : (Blocks.malloc path PATHLENGTH).length = PATHLENGTH :=
      Blocks.length_malloc path PATHLENGTH
    rw [Indexer.main,
      indexEntries_eq size ok.cleanDir.1 (fun n hn => (ok.cleanNames n hn).1) ok.opens, done]
    simp only [Except.mapError, bind, Except.bind, written]
  · rw [list, entries, listed]
  · rw [array, initFilenames, List.drop_replicate, ← List.replicate_succ]
    congr 2
    omega

/-- The directory is indexed and its two files are printed: every word that occurs in one of the
files, in the order of `strcmp` and once, with the number of its occurrences in each of them. -/
theorem prints_index (ok : Indexable files dirname listing) (fmt : PointerFormat)
    (path : Nat → Byte) (junkNode : Node) (m : Memory Node) :
    ∃ (listfile namefile : List Byte) (vocabulary : List CString),
      Indexer.main files dirname fmt path listing = .ok (listfile, namefile) ∧
      main fmt junkNode listfile namefile m =
        .ok (vocabulary.flatMap (row files dirname (indexed listing))) ∧
      (vocabulary.Pairwise fun a b => strcmp a b = .lt) ∧
      ∀ word, word ∈ vocabulary ↔
        ∃ name ∈ indexed listing, occurrences word (content files dirname name) ≠ 0 := by
  obtain ⟨x, listfile, namefile, loaded, rest, rep, written, read, list, array⟩ :=
    loads_index ok fmt path junkNode m
  refine ⟨listfile, namefile,
    (stored (calls files dirname (indexed listing))).entries.map Entry.str, written, ?_,
    ok.strict_strs, fun word => ?_⟩
  · have shown : (stored (calls files dirname (indexed listing))).entries.flatMap
      (displayEntry loaded.filenames) =
        ((stored (calls files dirname (indexed listing))).entries.map Entry.str).flatMap
          (row files dirname (indexed listing)) := by
      rw [List.flatMap_map, array]
      exact List.flatMap_congr fun e mem => displayEntry_eq ok rep mem rest
    simp only [main, read, displayList_of_listFrom list, shown, bind, Except.bind, Except.mapError]
  · rw [List.mem_map]
    exact ok.mem_entries_iff word

theorem prints_index_two :
    ∃ (listfile namefile : List Byte) (vocabulary : List CString),
      Indexer.main twoFiles (text ".") wordPointers (fun _ => 7) [text "..", text "a", text "b"] =
        .ok (listfile, namefile) ∧
      main wordPointers (createNode [] 0 0) listfile namefile ⟨[]⟩ =
        .ok
          (vocabulary.flatMap (row twoFiles (text ".") (indexed [text "..", text "a", text "b"]))) ∧
      (vocabulary.Pairwise fun a b => strcmp a b = .lt) ∧
      ∀ word, word ∈ vocabulary ↔ ∃ name ∈ indexed [text "..", text "a", text "b"],
        occurrences word (content twoFiles (text ".") name) ≠ 0 :=
  prints_index indexable_two wordPointers (fun _ => 7) (createNode [] 0 0) ⟨[]⟩

/-- What is printed of two files. -/
example :
    ((Indexer.main twoFiles (text ".") wordPointers (fun _ => 7) [text "..", text "a", text
          "b"]).toOption.bind
    fun p => (main wordPointers (createNode [] 0 0) p.1 p.2 ⟨[]⟩).toOption) =
      some [.word (text "more"), .count 0 (text "./a"), .count 1 (text "./b"), .newline,
        .word (text "trees"), .count 2 (text "./a"), .count 1 (text "./b"), .newline] := by
  decide +kernel

end Results

end PrintedIndex
