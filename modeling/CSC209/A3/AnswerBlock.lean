import CSC209.A3.WorkerAnswers
import CSC209.Blocks
import CSC209.HaltingRuns

/-!
# The block of an answer

`get_word` with every access checked: the fields of the nodes, the table of
names that its caller passes, and the block that it allocates, whose records
are unset at first. The program `test_worker` has not counted its names, so
that `get_word` counts them, up to the first empty one; `run_worker` has. The
record that ends an answer goes behind the records of every node that has the
word, and an empty list never gets one.
-/

namespace AnswerBlock

open CStrings StreamIO NodeMemory FreqList IndexFiles Worker WorkerAnswers
open Blocks (peek poke)
open HaltingRuns (bind_ok_iff)

abbrev Block := List (Option FreqRecord)

section Source

/-- `strcmp(cur->word, word) == 0`; a word that fills its field ends behind it. -/
def sameWord (field : List Byte) (word : CString) : Except Blocks.Fault Bool :=
  if NUL ∈ field then .ok (strcmp (cstr field) word = .eq)
  else if field.isPrefixOf word then .error (.outside field.length)
  else .ok false

/-- The loop that counts the names, from name `n` on. -/
def countNames : List (Option CString) → Nat → Except Blocks.Fault Nat
  | [], n => .error (.outside n)
  | none :: _, _ => .error .null
  | some name :: rest, n => if name = [] then .ok n else countNames rest (n + 1)

/-- One record for each file, for a node with the word. -/
def fillNode (fileNames : List (Option CString)) (numOfFiles : Nat) (cur : Entry)
    (frequencies : Block) :
    Except Blocks.Fault Block :=
  (List.range numOfFiles).foldlM (fun frequencies (i : Nat) => do
    let freq ← peek cur.freq i
    match ← peek fileNames i with
    | none => .error .null
    | some name => poke frequencies i (some (record freq name))) frequencies

/-- The `if` of the walk: the block and `num_found`. -/
def visitNode (fileNames : List (Option CString)) (numOfFiles : Nat) (cur : Entry) (same : Bool)
    (numFound : Nat) (frequencies : Block) : Except Blocks.Fault (Block × Nat) :=
  match same with
  | true => (fillNode fileNames numOfFiles cur frequencies).map fun filled =>
      (filled, numFound + numOfFiles)
  | false => .ok (frequencies, numFound)

/-- The walk over the list. -/
def walk (fileNames : List (Option CString)) (numOfFiles : Nat) (word : CString) :
    List Entry → Nat → Block → Except Blocks.Fault Block
  | [], _, frequencies => .ok frequencies
  | cur :: rest, numFound, frequencies => do
    let same ← sameWord cur.word word
    let (frequencies, numFound) ← visitNode fileNames numOfFiles cur same numFound frequencies
    if rest = [] then poke frequencies numFound (some getEmptyFreqrecord)
    else walk fileNames numOfFiles word rest numFound frequencies

/-- `num_of_files` is `none` where it is still -1. -/
def getWord (numOfFiles : Option Nat) (word : CString) (head : List Entry)
    (fileNames : List (Option CString)) :
    Except Blocks.Fault Block := do
  let numOfFiles ← match numOfFiles with
    | some n => .ok n
    | none => countNames fileNames 0
  walk fileNames numOfFiles word head 0 (List.replicate numOfFiles none)

inductive Caller where
  | runWorker
  | testWorker
  deriving DecidableEq, Repr

/-- The array that the caller gives to `read_list`. -/
def Caller.array (namefile : List Byte) : Caller → List (Option CString)
  | .runWorker => List.replicate (countLines namefile) none
  | .testWorker => initFilenames

def Caller.numOfFiles (namefile : List Byte) : Caller → Option Nat
  | .runWorker => some (countLines namefile)
  | .testWorker => none

end Source

/-- There is an empty record, and it and all before it were set. -/
def Safe (result : Except Blocks.Fault Block) : Prop :=
  ∃ (block : Block) (k : Nat) (r : FreqRecord), result = .ok block ∧ block[k]? = some (some r) ∧
    cstr r.filename = [] ∧
    ∀ j < k, ∃ s : FreqRecord, block[j]? = some (some s) ∧ cstr s.filename ≠ []

/-- The node does not have the word, and the comparison sees it inside the field. -/
def Differs (word : CString) (e : Entry) : Prop :=
  if NUL ∈ e.word then e.str ≠ word else ¬ e.word <+: word

/-- The names in the lines of the file. -/
def namesOf (namefile : List Byte) : List CString := (lines MAXLINE namefile).filterMap chop

/-- The number of names can be found, and it is not 0. -/
def Caller.CanCount (namefile : List Byte) : Caller → Prop
  | .runWorker => namefile ≠ []
  | .testWorker => ∃ first rest, namesOf namefile = first :: rest ∧ first ≠ [] ∧ [] ∈ rest

variable {fileNames : List (Option CString)} {n found : Nat} {word : CString} {entries : List Entry}
  {block result : Block} {e : Entry} {namefile : List Byte} {names : List CString}

section Walk

theorem sameWord_iff : sameWord e.word word = .ok false ↔ Differs word e := by
  by_cases ends : NUL ∈ e.word
  · simp [sameWord, Differs, ends, Entry.str]
  · by_cases within : e.word <+: word <;> simp [sameWord, Differs, ends, within]

theorem length_fillNode (run : fillNode fileNames n e block = .ok result) :
    result.length = block.length := by
  refine Blocks.foldlM_keeps (P := fun b => b.length = block.length) ?_ rfl run
  intro b i c size turn
  obtain ⟨freq, _, turn⟩ := bind_ok_iff.mp turn
  obtain ⟨name, _, turn⟩ := bind_ok_iff.mp turn
  cases name with
  | none => cases turn
  | some name => exact (Blocks.length_of_poke turn).trans size

theorem visitNode_cases {same : Bool} {found' : Nat}
    (run : visitNode fileNames n e same found block = .ok (result, found')) :
    result.length = block.length ∧
    (n ≤ found' ∨ same = false ∧ result = block ∧ found' = found) := by
  cases same with
  | true =>
    cases fill : fillNode fileNames n e block with
    | error f => simp [visitNode, fill, Except.map] at run
    | ok filled =>
      obtain ⟨rfl, rfl⟩ : filled = result ∧ found + n = found' := by
        simpa [visitNode, fill, Except.map] using run
      exact ⟨length_fillNode fill, .inl (by omega)⟩
  | false =>
    obtain ⟨rfl, rfl⟩ : block = result ∧ found = found' := by simpa [visitNode] using run
    exact ⟨rfl, .inr ⟨rfl, rfl, rfl⟩⟩

/-- A walk that stays in the block has found no node with the word. -/
theorem walk_cases (size : block.length = n)
    (run : walk fileNames n word entries found block = .ok result) :
    (entries = [] ∧ result = block) ∨
      (entries ≠ [] ∧ found < n ∧ (∀ e ∈ entries, Differs word e) ∧
        result = block.set found (some getEmptyFreqrecord)) := by
  induction entries generalizing found block with
  | nil => exact .inl ⟨rfl, (Except.ok.inj run).symm⟩
  | cons e rest ih =>
    obtain ⟨same, compared, run⟩ := bind_ok_iff.mp run
    obtain ⟨⟨filled, found'⟩, visited, run⟩ := bind_ok_iff.mp run
    obtain ⟨size', next⟩ := visitNode_cases visited
    -- the next free place, once a node was found, lies behind the block
    have few : found' < n ∧ (rest = [] ∨ ∀ e ∈ rest, Differs word e) ∧
        result = filled.set found' (some getEmptyFreqrecord) := by
      by_cases last : rest = []
      · simp only [if_pos last] at run
        have inside : found' < filled.length := by
          by_contra past
          rw [Blocks.poke_outside (by omega)] at run
          cases run
        rw [Blocks.poke_ofNat inside] at run
        exact ⟨by omega, .inl last, (Except.ok.inj run).symm⟩
      · simp only [if_neg last] at run
        rcases ih (size'.trans size) run with ⟨none, _⟩ | ⟨_, few, differ, set⟩
        · exact absurd none last
        · exact ⟨few, .inr differ, set⟩
    obtain ⟨few, differ, set⟩ := few
    rcases next with past | ⟨rfl, rfl, rfl⟩
    · omega
    · have first : Differs word e := sameWord_iff.mp compared
      refine .inr ⟨by simp, few, ?_, set⟩
      rcases differ with rfl | differ
      · simpa using first
      · exact List.forall_mem_cons.mpr ⟨first, differ⟩

theorem walk_differs (differ : ∀ e ∈ entries, Differs word e) (some_node : entries ≠ [])
    (room : found < block.length) :
    walk fileNames n word entries found block =
      .ok (block.set found (some getEmptyFreqrecord)) := by
  induction entries with
  | nil => exact absurd rfl some_node
  | cons e rest ih =>
    have compared : sameWord e.word word = .ok false :=
      sameWord_iff.mpr (differ e List.mem_cons_self)
    simp only [walk, compared, visitNode, bind, Except.bind]
    by_cases last : rest = []
    · rw [if_pos last, Blocks.poke_ofNat room]
    · rw [if_neg last]
      exact ih (fun u hu => differ u (List.mem_cons_of_mem e hu)) last

/-- With a number of names that is not 0, a word that no node of the list has is answered safely,
and no other. -/
theorem walk_safe : Safe (walk fileNames n word entries 0 (List.replicate n none)) ↔
    n ≠ 0 ∧ entries ≠ [] ∧ ∀ e ∈ entries, Differs word e := by
  constructor
  · rintro ⟨block, k, r, run, set, _⟩
    rcases walk_cases (by simp) run with ⟨_, rfl⟩ | ⟨some_node, few, differ, _⟩
    · rw [List.getElem?_replicate] at set
      split at set <;> cases set
    · exact ⟨by omega, some_node, differ⟩
  · rintro ⟨pos, some_node, differ⟩
    have room : 0 < (List.replicate n (none : Option FreqRecord)).length := by
      rw [List.length_replicate]
      omega
    refine ⟨_, 0, getEmptyFreqrecord, walk_differs differ some_node room, ?_, by decide, by simp⟩
    rw [List.getElem?_set_self room]

end Walk

section Tables

/-- What the loop over the lines has done when it has not ended the program. -/
theorem readNames_cases {ls : List (List Byte)} {i : Nat} {array table : List (Option CString)}
    (start : i < MAXFILES) (run : readNames ls i array = .ok table) :
    i + ls.length < MAXFILES ∧ (ls.filterMap chop).length = ls.length ∧
      (i + ls.length ≤ array.length →
        table = array.take i ++ (ls.filterMap chop).map some ++ array.drop (i + ls.length)) := by
  induction ls generalizing i array with
  | nil =>
    obtain rfl : array = table := Except.ok.inj run
    exact ⟨start, rfl, fun _ => by simp⟩
  | cons line rest ih =>
    rw [readNames] at run
    cases body : chop line with
    | none => simp [body] at run
    | some name =>
      simp only [body] at run
      split at run
      · cases run
      · obtain ⟨few, count, filled⟩ := ih (by omega) run
        rw [List.filterMap_cons_some body]
        simp only [List.length_cons]
        refine ⟨by omega, by omega, fun room => ?_⟩
        have inside : i < (array.set i (some name)).length := by
          rw [List.length_set]
          omega
        rw [filled (by rw [List.length_set]; omega), List.take_succ_eq_append_getElem inside,
          List.take_set_of_le (Nat.le_refl i), List.getElem_set_self,
            List.drop_set_of_lt (by omega)]
        simp [Nat.add_assoc, Nat.add_comm 1]

/-- The table of `test_worker` has NULLs behind its names. -/
theorem table_testWorker {table : List (Option CString)}
    (run : readNames (lines MAXLINE namefile) 0 initFilenames = .ok table) :
    ∃ k, table = slots (namesOf namefile) (k + 1) := by
  obtain ⟨few, count, filled⟩ := readNames_cases (by decide) run
  have size : initFilenames.length = MAXFILES := rfl
  refine ⟨MAXFILES - (lines MAXLINE namefile).length - 1, ?_⟩
  rw [filled (by omega), slots, initFilenames, List.drop_replicate]
  simp only [List.take_zero, List.nil_append, namesOf]
  congr 2
  omega

theorem countNames_slots (names : List CString) (i k : Nat) :
    countNames (slots names (k + 1)) i = if [] ∈ names then .ok (i + names.idxOf []) else
      .error .null := by
  induction names generalizing i with
  | nil => simp [slots, countNames, List.replicate_succ]
  | cons name rest ih =>
    have later := ih (i + 1)
    simp only [slots] at later
    by_cases empty : name = []
    · simp [slots, countNames, empty]
    · have differ : (name == []) = false := by simpa using empty
      simp only [slots, List.map_cons, List.cons_append, countNames, if_neg empty, later,
        List.mem_cons, Ne.symm empty, false_or, List.idxOf_cons, differ, cond_false]
      split
      · rw [Nat.add_assoc, Nat.add_comm 1]
      · rfl

theorem countLines_eq_zero : countLines namefile = 0 ↔ namefile = [] := by
  rw [countLines, List.length_eq_zero_iff]
  constructor
  · intro none
    rw [← lines_flatten (show 1 < MAXLINE by decide) namefile, none]
    rfl
  · rintro rfl
    rfl

end Tables

section Results

/-- The names of `read_list` are those of its last loop. -/
theorem readNames_of_readList {fmt : PointerFormat} {junk : Node} {listfile : List Byte}
    {m : Memory Node} {array : List (Option CString)} {loaded : Loaded}
    (built : readList fmt junk listfile namefile m array = .ok loaded) :
    readNames (lines MAXLINE namefile) 0 array = .ok loaded.filenames := by
  obtain ⟨_, _, built⟩ := bind_ok_iff.mp built
  obtain ⟨_, _, built⟩ := bind_ok_iff.mp built
  obtain ⟨table, read, built⟩ := bind_ok_iff.mp built
  obtain rfl := Except.ok.inj built
  exact read

/-- For either caller `get_word` is safe exactly for a word that no node of a list that is not
empty has, with at least one name counted. -/
theorem getWord_safe_iff (fmt : PointerFormat) (junk : Node) (listfile namefile : List Byte)
    (m : Memory Node) (caller : Caller) (loaded : Loaded) (entries : List Entry) (word : CString)
    (built : readList fmt junk listfile namefile m (caller.array namefile) = .ok loaded) :
    Safe (getWord (caller.numOfFiles namefile) word entries loaded.filenames) ↔
      caller.CanCount namefile ∧ entries ≠ [] ∧ ∀ e ∈ entries, Differs word e := by
  have table := readNames_of_readList built
  cases caller with
  | runWorker =>
    refine walk_safe.trans (and_congr_left fun _ => ?_)
    exact not_congr countLines_eq_zero
  | testWorker =>
    obtain ⟨k, slotted⟩ := table_testWorker table
    have counted := countNames_slots (namesOf namefile) 0 k
    rw [slotted]
    by_cases ends : [] ∈ namesOf namefile
    · rw [if_pos ends, Nat.zero_add] at counted
      simp only [getWord, Caller.numOfFiles, counted, bind, Except.bind]
      refine walk_safe.trans (and_congr_left fun _ => ?_)
      cases names : namesOf namefile with
      | nil => simp [names] at ends
      | cons first rest =>
        simp only [names, List.mem_cons] at ends
        by_cases empty : first = []
        · simp [Caller.CanCount, names, empty]
        · have later : [] ∈ rest := ends.resolve_left (Ne.symm empty)
          simp [Caller.CanCount, names, empty, later]
    · rw [if_neg ends] at counted
      simp only [getWord, Caller.numOfFiles, counted, bind, Except.bind]
      constructor
      · rintro ⟨block, k, r, run, _⟩
        cases run
      · rintro ⟨⟨first, rest, names, _, later⟩, _⟩
        exact absurd (names ▸ List.mem_cons_of_mem first later) ends

theorem getWord_safe_iff_absent :
    let node : Node := ⟨⟨[], []⟩, none⟩
    let entries : List Entry := [createEntry (text "list") 3 0]
    ∃ loaded, readList wordPointers node [] (text "./d/a\n") ⟨[]⟩
      (Caller.runWorker.array (text "./d/a\n")) = .ok loaded ∧
      (Safe (getWord (Caller.runWorker.numOfFiles (text "./d/a\n")) (text "tree") entries
            loaded.filenames) ↔
        Caller.runWorker.CanCount (text "./d/a\n") ∧ entries ≠ [] ∧
          ∀ e ∈ entries, Differs (text "tree") e) := by
  intro node entries
  have built : readList wordPointers node [] (text "./d/a\n") ⟨[]⟩
    (Caller.runWorker.array (text "./d/a\n")) =
      .ok ⟨⟨[none]⟩, none, [some (text "./d/a")]⟩ := by decide
  exact ⟨_, built, getWord_safe_iff wordPointers node [] (text "./d/a\n") ⟨[]⟩ .runWorker _ entries
      (text "tree") built⟩

/-- A word that the list has: its records fill the block, and the empty one goes behind it. -/
theorem sentinel_behind_block :
    ¬ ∀ (fmt : PointerFormat) (junk : Node) (listfile namefile : List Byte) (m : Memory Node)
      (caller : Caller) (loaded : Loaded) (entries : List Entry) (word : CString),
      readList fmt junk listfile namefile m (caller.array namefile) = .ok loaded →
        Safe (getWord (caller.numOfFiles namefile) word entries loaded.filenames) := by
  intro always
  have built : readList wordPointers ⟨⟨[], []⟩, none⟩ [] (text "./d/a\n") ⟨[]⟩
      (Caller.runWorker.array (text "./d/a\n")) = .ok ⟨⟨[none]⟩, none, [some (text "./d/a")]⟩ := by
        decide
  obtain ⟨block, _, _, run, _⟩ :=
    always wordPointers _ [] _ ⟨[]⟩ .runWorker _ [createEntry (text "list") 3 0] (text "list") built
  have stuck : getWord (Caller.runWorker.numOfFiles (text "./d/a\n")) (text "list")
    [createEntry (text "list") 3 0] [some (text "./d/a")] = .error (.outside 1) := by decide
  rw [stuck] at run
  cases run

end Results

end AnswerBlock
