import CSC209.A3.IndexedWords
import CSC209.A3.PuncLoops
import CSC209.A3.WordIndex
import CSC209.A3.WorkerAnswers
import CSC209.A3.WorkerPaths

/-!
# From a directory to the answers of its worker

The loop of the indexer's `main` over the entries of a directory, and the two
files that it writes at the end. What `fopen` gives for a path is a parameter:
nothing, or the bytes of the file. A worker that loads the two files then has
the occurrences of every word in every file of the directory. The lines that
tell how far the indexer has come are left out.
-/

namespace Indexer

open CStrings NodeMemory HaltingRuns Splitting FreqList WordList WordIndex IndexedWords IndexFiles
open WorkerPaths (passedOver joinPath joined joinPath_ok joinPath_full length_joined)
open WorkerAnswers (Fits Indexed StartsHere Sendable record exactAnswer frequency nameFileLines
    frequency_unused load load_spec answer_iff)
open Worker (FreqRecord getEmptyFreqrecord)

/-- How the program ends before its files are written. -/
inductive Halt where
  | notOpened
  | path (f : Blocks.Fault)
  | index (h : FreqList.Halt)
  deriving DecidableEq, Repr

section Source

variable (files : CString → Option (List Byte)) (dirname : CString)

/-- The loop over the entries; `path` is the block in which the last path was put together. -/
def indexEntries : List CString → List Byte → Index → Except Halt Index
  | [], _, x => .ok x
  | name :: rest, path, x =>
    if passedOver name then indexEntries rest path x
    else do
      let path ← (Blocks.poke path 0 NUL).mapError .path
      let path ← (joinPath path dirname name).mapError .path
      match files (cstr path) with
      | none => .error .notOpened
      | some content => do
        let x ← (indexFile content (cstr path) x).mapError .index
        indexEntries rest path x

/-- The contents of the list file and of the name file. -/
def main (fmt : PointerFormat) (path : Nat → Byte) (listing : List CString) :
    Except Halt (List Byte × List Byte) := do
  let x ← indexEntries files dirname listing (Blocks.malloc path PATHLENGTH) opened
  (writeList fmt x).mapError fun f => .index (.fault f)

end Source

section Specification

variable (files : CString → Option (List Byte)) (dirname : CString)

/-- The entries that are indexed. -/
def indexed (listing : List CString) : List CString := listing.filter fun name => ¬ passedOver name

/-- What is read for an entry. -/
def content (name : CString) : List Byte := (files (joined dirname name)).getD []

/-- The calls of `add_word` for some entries. -/
def calls (names : List CString) : List Call :=
  names.flatMap fun name => (words (content files dirname name)).map fun w => ⟨w,
    joined dirname name⟩

/-- The entries with a word at all. -/
def worded (names : List CString) : List CString :=
  names.filter fun name => words (content files dirname name) ≠ []

/-- The path of the entry fits `path`, and there is a file. -/
def Opens (name : CString) : Prop :=
  (joined dirname name).length < PATHLENGTH ∧ files (joined dirname name) ≠ none

instance (name : CString) : Decidable (Opens files dirname name) :=
  inferInstanceAs (Decidable (_ ∧ _))

/-- How often a word stands in a text: the pieces between blanks and newlines that are the word but
for punctuation and case. -/
def occurrences (word : CString) (content : List Byte) : Nat :=
  if Wanted word then (pieces content).countP fun piece => Punc.removePunc piece = word else 0

/-- One record for each file in which the word occurs, in the order of the directory. -/
def reported (word : CString) (names : List CString) : List FreqRecord :=
  (names.filter fun name => occurrences word (content files dirname name) ≠ 0).map fun name =>
    record (occurrences word (content files dirname name)) (joined dirname name)

end Specification


variable {files : CString → Option (List Byte)} {dirname name word : CString}
  {listing names : List CString}
  {path : List Byte} {x : Index} {cs : List Call} {e : Entry} {entries : List Entry}

section Entries

/-- An entry whose path fits and whose file can be opened has its words added. -/
theorem indexEntries_opens (size : path.length = PATHLENGTH) (cleanDir : NUL ∉ dirname)
    (clean : NUL ∉ name)
    (considered : passedOver name = false) (opens : Opens files dirname name) (rest : List CString)
    (x : Index) :
    ∃ path', path'.length = PATHLENGTH ∧
      indexEntries files dirname (name :: rest) path x =
        ((run addWord x (calls files dirname [name])).mapError .index >>= indexEntries files dirname
            rest path') := by
  have first : Blocks.poke path 0 NUL = .ok (path.set 0 NUL) := by
    have big : PATHLENGTH = 128 := rfl
    exact Blocks.poke_ofNat (k := 0) (by omega) NUL
  have cut : (path.set 0 NUL).length = PATHLENGTH := by
    rw [List.length_set]
    exact size
  obtain ⟨p, join, stores⟩ := joinPath_ok cut cleanDir clean opens.1
  obtain ⟨bytes, found⟩ := Option.ne_none_iff_exists'.mp opens.2
  refine ⟨p, stores.1, ?_⟩
  simp only [indexEntries, considered, Bool.false_eq_true, if_false, first, join, Except.mapError,
    bind, Except.bind, stores.cstr_eq, found, indexFile, calls, List.flatMap_cons, List.flatMap_nil,
      List.append_nil, content,
    Option.getD_some]

theorem indexEntries_stuck (size : path.length = PATHLENGTH) (cleanDir : NUL ∉ dirname)
    (clean : NUL ∉ name) (considered : passedOver name = false) (stuck : ¬ Opens files dirname name)
    (rest : List CString) (x : Index) :
    ∃ h, indexEntries files dirname (name :: rest) path x = .error h := by
  have first : Blocks.poke path 0 NUL = .ok (path.set 0 NUL) := by
    have big : PATHLENGTH = 128 := rfl
    exact Blocks.poke_ofNat (k := 0) (by omega) NUL
  have size' : (path.set 0 NUL).length = PATHLENGTH := by rwa [List.length_set]
  by_cases fits : (joined dirname name).length < PATHLENGTH
  · obtain ⟨p, join, stores⟩ := joinPath_ok size' cleanDir clean fits
    have none : files (joined dirname name) = none := by
      by_contra found
      exact stuck ⟨fits, found⟩
    refine ⟨.notOpened, ?_⟩
    simp only [indexEntries, considered, Bool.false_eq_true, if_false, first, join, Except.mapError,
      bind, Except.bind, stores.cstr_eq, none]
  · obtain ⟨f, full⟩ := joinPath_full size' cleanDir
      (show PATHLENGTH ≤ (joined dirname name).length from Nat.le_of_not_lt fits)
    refine ⟨.path f, ?_⟩
    simp only [indexEntries, considered, Bool.false_eq_true, if_false, first, full, Except.mapError,
      bind, Except.bind]

theorem indexed_cons (name : CString) (rest : List CString) :
    indexed (name :: rest) = if passedOver name then indexed rest else name :: indexed rest := by
  cases passed : passedOver name <;> simp [indexed, passed]

/-- All entries are opened: the program adds their words one file behind the other. -/
theorem indexEntries_eq (size : path.length = PATHLENGTH) (cleanDir : NUL ∉ dirname)
    (clean : ∀ name ∈ listing, NUL ∉ name)
    (opens : ∀ name ∈ indexed listing, Opens files dirname name) :
    indexEntries files dirname listing path x =
      (run addWord x (calls files dirname (indexed listing))).mapError .index := by
  induction listing generalizing path x with
  | nil => rfl
  | cons name rest ih =>
    have cleanRest : ∀ n ∈ rest, NUL ∉ n := fun n hn => clean n (List.mem_cons_of_mem name hn)
    cases passed : passedOver name with
    | true =>
      rw [indexed_cons, passed, if_pos rfl] at opens
      simp only [indexEntries, indexed_cons, passed, if_true]
      exact ih size cleanRest opens
    | false =>
      rw [indexed_cons, passed, if_neg Bool.false_ne_true] at opens
      obtain ⟨here, others⟩ := List.forall_mem_cons.mp opens
      obtain ⟨path', size', turn⟩ :=
        indexEntries_opens size cleanDir (clean name List.mem_cons_self) passed here rest x
      have split : calls files dirname (name :: indexed rest) =
          calls files dirname [name] ++ calls files dirname (indexed rest) := by simp [calls]
      rw [turn, indexed_cons, passed, if_neg Bool.false_ne_true, split, run_append]
      cases run addWord x (calls files dirname [name]) with
      | error h => rfl
      | ok y => exact ih size' cleanRest others

/-- One that is not ends the program. -/
theorem indexEntries_error (size : path.length = PATHLENGTH) (cleanDir : NUL ∉ dirname)
    (clean : ∀ name ∈ listing, NUL ∉ name)
    (stuck : ∃ name ∈ indexed listing, ¬ Opens files dirname name) :
    ∃ h, indexEntries files dirname listing path x = .error h := by
  induction listing generalizing path x with
  | nil =>
    obtain ⟨name, mem, _⟩ := stuck
    cases mem
  | cons name rest ih =>
    have cleanRest : ∀ n ∈ rest, NUL ∉ n := fun n hn => clean n (List.mem_cons_of_mem name hn)
    cases passed : passedOver name with
    | true =>
      rw [indexed_cons, passed, if_pos rfl] at stuck
      simp only [indexEntries, passed, if_true]
      exact ih size cleanRest stuck
    | false =>
      rw [indexed_cons, passed, if_neg Bool.false_ne_true] at stuck
      by_cases here : Opens files dirname name
      · obtain ⟨path', size', turn⟩ :=
          indexEntries_opens size cleanDir (clean name List.mem_cons_self) passed here rest x
        rw [turn]
        cases run addWord x (calls files dirname [name]) with
        | error h => exact ⟨_, rfl⟩
        | ok y =>
          have behind : ∃ n ∈ indexed rest, ¬ Opens files dirname n := by
            obtain ⟨n, mem, bad⟩ := stuck
            rcases List.mem_cons.mp mem with rfl | mem
            · exact absurd here bad
            · exact ⟨n, mem, bad⟩
          exact ih size' cleanRest behind
      · exact indexEntries_stuck size cleanDir (clean name List.mem_cons_self) passed here rest x

end Entries

section Names

/-- Any sequence of calls fills the index, or needs a slot that the array does not have. -/
theorem run_calls (cs : List Call) :
    if (stored cs).names.length ≤ MAXFILES then ∃ x, run addWord opened cs = .ok x ∧
    Represents x (stored cs)
    else run addWord opened cs = .error .tooManyFiles := by
  induction cs using List.reverseRecOn with
  | nil => exact ⟨opened, rfl, represents_opened⟩
  | append_singleton cs c ih =>
    have grown := (names_grow cs [c]).length_le
    rw [run_append]
    by_cases room : (stored cs).names.length ≤ MAXFILES
    · rw [if_pos room] at ih
      obtain ⟨x, ran, rep⟩ := ih
      have last := addWord_refines rep c
      rw [← stored_snoc] at last
      have fits : (stored (cs ++ [c])).names.length ≤ MAXFILES ↔
          c.fname ∈ (stored cs).names ∨ (stored cs).names.length < MAXFILES := by
        rw [stored_snoc, Store.addWord, noteName]
        split <;> rename_i known
        · simp [known, room]
        · simp only [known, false_or, List.length_append, List.length_singleton]
          omega
      rw [ran]
      by_cases slot : c.fname ∈ (stored cs).names ∨ (stored cs).names.length < MAXFILES
      · rw [if_pos slot] at last
        obtain ⟨y, added, rep'⟩ := last
        rw [if_pos (fits.mpr slot)]
        exact ⟨y, by simp [bind, Except.bind, run, added], rep'⟩
      · rw [if_neg slot] at last
        rw [if_neg fun h => slot (fits.mp h)]
        simp [bind, Except.bind, run, last]
    · rw [if_neg room] at ih
      rw [if_neg (by omega), ih]
      rfl

theorem names_stored (cs : List Call) :
    (stored cs).names = (cs.map Call.fname).foldl noteName [] := by
  induction cs using List.reverseRecOn with
  | nil => rfl
  | append_singleton cs c ih => simp [Store.addWord, ih]

theorem mem_noteName (names : List CString) (fname : CString) : fname ∈ noteName names fname := by
  by_cases known : fname ∈ names
  · rwa [noteName, if_pos known]
  · rw [noteName, if_neg known]
    exact List.mem_append_right names List.mem_cons_self

theorem noteName_known {names : List CString} {fname : CString} (known : fname ∈ names) (k : Nat) :
    (List.replicate k fname).foldl noteName names = names := by
  induction k with
  | zero => rfl
  | succ k ih => rw [List.replicate_succ, List.foldl_cons, noteName, if_pos known, ih]

/-- The words of one file, for which the same name is noted each time. -/
theorem noteName_again (names : List CString) (fname : CString) (k : Nat) :
    (List.replicate k fname).foldl noteName names = if k = 0 then names else
      noteName names fname := by
  cases k with
  | zero => rfl
  | succ k => exact noteName_known (mem_noteName names fname) k

theorem joined_inj {name other : CString} (same : joined dirname name = joined dirname other) :
    name = other :=
  List.append_cancel_left same

theorem calls_append (names later : List CString) :
    calls files dirname (names ++ later) = calls files dirname names ++ calls files dirname later :=
  List.flatMap_append

/-- The files with a word have slots, in the order of the directory. -/
theorem names_calls (distinct : names.Nodup) :
    (stored (calls files dirname names)).names = (worded files dirname names).map
    (joined dirname) := by
  induction names using List.reverseRecOn with
  | nil => rfl
  | append_singleton names name ih =>
    obtain ⟨before, _, apart⟩ := List.nodup_append.mp distinct
    have last : (calls files dirname [name]).map Call.fname =
        List.replicate (words (content files dirname name)).length (joined dirname name) := by
      simp [calls, Function.comp_def]
    rw [names_stored, calls_append, List.map_append, List.foldl_append, ← names_stored,
      ih before, last, noteName_again, worded, worded, List.filter_append]
    by_cases none : words (content files dirname name) = []
    · simp [none]
    · have new : joined dirname name ∉ (worded files dirname names).map (joined dirname) := by
        intro mem
        obtain ⟨other, there, same⟩ := List.mem_map.mp mem
        exact apart other (List.mem_of_mem_filter there) name List.mem_cons_self (joined_inj same)
      rw [worded] at new
      rw [if_neg (fun h => none (List.length_eq_zero_iff.mp h)), noteName, if_neg new]
      simp [none]

end Names

section Written

/-- The index is represented in a memory that can be written out. -/
theorem writeList_ok (fmt : PointerFormat) {s : Store} (rep : Represents x s) :
    ∃ out, writeList fmt x = .ok out := by
  obtain ⟨cells, lay, _⟩ := rep.listed
  have walked := Memory.visit_chain lay.chain (Memory.chain_length_le lay.chain)
  refine ⟨(((cells.map Prod.fst).filterMap x.nodes.get).flatMap (nodeBytes fmt),
      nameLines x.filenames), ?_⟩
  simp only [writeList, walked, bind, Except.bind]

/-- The two files are written exactly when the path of every entry fits, all files can be opened
and no more than `MAXFILES` of them have a word. -/
theorem writes_iff (fmt : PointerFormat) (files : CString → Option (List Byte)) (dirname : CString)
    (path : Nat → Byte)
    (listing : List CString) (cleanDir : NUL ∉ dirname) (clean : ∀ name ∈ listing, NUL ∉ name)
    (distinct : listing.Nodup) :
    (∃ out, main files dirname fmt path listing = .ok out) ↔
      (∀ name ∈ indexed listing, Opens files dirname name) ∧
        (worded files dirname (indexed listing)).length ≤ MAXFILES := by
  have size : (Blocks.malloc path PATHLENGTH).length = PATHLENGTH :=
    Blocks.length_malloc path PATHLENGTH
  by_cases opens : ∀ name ∈ indexed listing, Opens files dirname name
  · have ran := run_calls (calls files dirname (indexed listing))
    have distinct' : (indexed listing).Nodup := distinct.filter _
    rw [names_calls distinct', List.length_map] at ran
    rw [and_iff_right opens, main, indexEntries_eq size cleanDir clean opens]
    by_cases few : (worded files dirname (indexed listing)).length ≤ MAXFILES
    · rw [if_pos few] at ran
      obtain ⟨x, done, rep⟩ := ran
      obtain ⟨out, written⟩ := writeList_ok fmt rep
      refine iff_of_true ⟨out, ?_⟩ few
      simp only [done, Except.mapError, bind, Except.bind, written]
    · rw [if_neg few] at ran
      refine iff_of_false ?_ few
      rintro ⟨out, done⟩
      simp [ran, Except.mapError, bind, Except.bind] at done
  · have stuck : ∃ name ∈ indexed listing, ¬ Opens files dirname name := by simpa using opens
    obtain ⟨h, error⟩ := indexEntries_error (x := opened) size cleanDir clean stuck
    refine iff_of_false ?_ fun all => opens all.1
    rintro ⟨out, done⟩
    simp [main, error, bind, Except.bind] at done

/-- Two files of one line each. -/
def twoFiles : CString → Option (List Byte) := fun p =>
  if p = text "./a" then some (text "Trees, and trees\n")
  else if p = text "./b" then some (text "no more trees.\n") else none

theorem writes_iff_two :
    (∃ out, main twoFiles (text ".") wordPointers (fun _ => 7) [text "..", text "a", text "b"] =
        .ok out) ↔
      (∀ name ∈ indexed [text "..", text "a", text "b"], Opens twoFiles (text ".") name) ∧
        (worded twoFiles (text ".") (indexed [text "..", text "a", text "b"])).length ≤ MAXFILES :=
  writes_iff _ _ _ _ _ (by decide) (by decide) (by decide)

end Written

section Nodes

variable {k n : Nat} {w : CString}

/-- What holds of a new entry and is kept by counting holds of all entries. -/
theorem forall_add {P Q : Entry → Prop} (new : Q (createEntry w 1 k))
    (raised : ∀ e, P e → Q (e.bump k))
    (kept : ∀ e, P e → Q e) (all : ∀ e ∈ entries, P e) : ∀ e ∈ add w k entries, Q e := by
  induction entries with
  | nil => simpa [add] using new
  | cons d rest ih =>
    obtain ⟨here, others⟩ := List.forall_mem_cons.mp all
    simp only [add]
    cases strcmp d.str w with
    | lt => exact List.forall_mem_cons.mpr ⟨kept d here, ih others⟩
    | eq => exact List.forall_mem_cons.mpr ⟨raised d here, fun e he => kept e (others e he)⟩
    | gt => exact List.forall_mem_cons.mpr ⟨new, fun e he => kept e (all e he)⟩

/-- The fields have their sizes, and no counter is larger than the number of the calls. -/
structure Counted (n : Nat) (e : Entry) : Prop where
  word : e.word.length = MAXWORD
  freq : e.freq.length = MAXFILES
  counts : ∀ v ∈ e.freq, 0 ≤ v ∧ v ≤ n

theorem counted_createEntry (w : CString) (k n : Nat) : Counted (n + 1) (createEntry w 1 k) where
  word := by simp [createEntry]
  freq := by simp [createEntry]
  counts := by
    intro v hv
    rcases List.mem_or_eq_of_mem_set hv with hv | rfl
    · obtain rfl := List.eq_of_mem_replicate hv
      omega
    · omega

theorem Counted.more (counted : Counted n e) : Counted (n + 1) e :=
  ⟨counted.word, counted.freq, fun v hv => by have := counted.counts v hv; omega⟩

theorem Counted.bump (counted : Counted n e) (k : Nat) : Counted (n + 1) (e.bump k) where
  word := counted.word
  freq := by simpa [Entry.bump] using counted.freq
  counts := by
    intro v hv
    obtain ⟨i, hi⟩ := List.mem_iff_getElem?.mp hv
    rw [Entry.bump, List.getElem?_modify] at hi
    obtain ⟨u, hu, rfl⟩ := Option.map_eq_some_iff.mp hi
    have bounds := counted.counts u (List.mem_of_getElem? hu)
    split <;> omega

theorem counted_stored (cs : List Call) : ∀ e ∈ (stored cs).entries, Counted cs.length e := by
  induction cs using List.reverseRecOn with
  | nil => simp [stored]
  | append_singleton cs c ih =>
    rw [stored_snoc, List.length_append, List.length_singleton]
    exact forall_add (counted_createEntry c.word _ cs.length) (fun e counted => counted.bump _)
      (fun e counted => counted.more) ih

theorem total_absent {t : CString} (absent : ∀ e ∈ entries, e.str ≠ t) (i : Nat) :
    total entries t i = 0 := by
  have none : entries.filter (fun e => e.str = t) = [] :=
    List.filter_eq_nil_iff.mpr (by simpa using absent)
  simp [total, none]

/-- With one node for each word, the total is the counter of that node. -/
theorem total_mem (once : (entries.map Entry.str).Nodup) (he : e ∈ entries) (i : Nat) :
    total entries e.str i = freqAt e i := by
  induction entries with
  | nil => cases he
  | cons d rest ih =>
    obtain ⟨apart, later⟩ := List.nodup_cons.mp once
    rw [total_cons]
    rcases List.mem_cons.mp he with rfl | he
    · have others : ∀ u ∈ rest, u.str ≠ e.str :=
        fun u hu same => apart (same ▸ List.mem_map_of_mem hu)
      rw [if_pos rfl, total_absent others, Int.add_zero]
    · have other : d.str ≠ e.str := fun same => apart (same ▸ List.mem_map_of_mem he)
      rw [if_neg other, Int.zero_add, ih later he]

theorem frequency_eq (once : (entries.map Entry.str).Nodup) (word : CString) (i : Nat) :
    frequency entries word i = total entries word i := by
  rw [frequency]
  cases found : entries.find? fun e => e.str = word with
  | none =>
    have absent : ∀ e ∈ entries, e.str ≠ word := by simpa using List.find?_eq_none.mp found
    rw [total_absent absent]
    rfl
  | some e =>
    obtain rfl : e.str = word := by simpa using List.find?_some found
    rw [total_mem once (List.mem_of_find?_eq_some found)]
    simp [freqAt]

end Nodes

section Texts

theorem clean_words {text : List Byte} (clean : NUL ∉ text) : ∀ w ∈ words text, NUL ∉ w := by
  intro w hw
  rw [words_marked clean] at hw
  obtain ⟨part, hpart, hw⟩ := List.mem_filterMap.mp hw
  rw [tokenWord_eq] at hw
  split at hw
  · obtain rfl := Option.some.inj hw
    apply PuncLoops.clean_removePunc
    intro met
    obtain ⟨b, hb, nul⟩ := List.mem_map.mp met
    have whole := List.mem_map_of_mem (f := Prod.fst) (mem_of_mem_splitOnP hpart hb)
    rw [show (marked text).map Prod.fst = text from bytes_marked text, nul] at whole
    exact clean whole
  · cases hw

/-- Each word is counted as often as it stands in the text. -/
theorem count_harmless {text : List Byte} (clean : NUL ∉ text) (harmless : CutsHarmless text)
    (word : CString) :
    (words text).count word = occurrences word text := by
  have counted := count_words clean word
  have same := (List.perm_iff_count.mp harmless) word
  rw [occurrences]
  omega

theorem countP_calls {name : CString} (distinct : names.Nodup) (mem : name ∈ names)
    (short : ∀ name ∈ names, ∀ w ∈ words (content files dirname name), w.length < MAXWORD)
    (word : CString) :
    (calls files dirname names).countP
    (fun c => c.fname = joined dirname name ∧ cut c.word = word) =
      (words (content files dirname name)).count word := by
  have one : ∀ other ∈ names, (calls files dirname [other]).countP
      (fun c => c.fname = joined dirname name ∧ cut c.word = word) =
        if other = name then (words (content files dirname name)).count word else 0 := by
    intro other there
    by_cases same : other = name
    · subst same
      rw [if_pos rfl]
      simp only [calls, List.flatMap_cons, List.flatMap_nil, List.append_nil,
        List.countP_map, List.count]
      refine List.countP_congr fun w hw => ?_
      simp [cut_eq_of_short (short other there w hw)]
    · have apart : joined dirname other ≠ joined dirname name := fun h => same (joined_inj h)
      simp [calls, List.countP_map, apart, same, Function.comp_def]
  induction names with
  | nil => cases mem
  | cons other rest ih =>
    obtain ⟨new, later⟩ := List.nodup_cons.mp distinct
    have others : ∀ n ∈ rest, _ := fun n hn => one n (List.mem_cons_of_mem other hn)
    rw [← List.singleton_append, calls_append, List.countP_append, one other List.mem_cons_self]
    rcases List.mem_cons.mp mem with rfl | mem
    · have behind : (calls files dirname rest).countP
          (fun c => c.fname = joined dirname name ∧ cut c.word = word) = 0 := by
        rw [List.countP_eq_zero]
        intro c hc
        obtain ⟨n, hn, hc⟩ := List.mem_flatMap.mp hc
        obtain ⟨w, _, rfl⟩ := List.mem_map.mp hc
        have apart : joined dirname n ≠ joined dirname name := fun h => new (joined_inj h ▸ hn)
        simp [apart]
      rw [behind, if_pos rfl]
      rfl
    · have apart : other ≠ name := fun h => new (h ▸ mem)
      rw [if_neg apart, Nat.zero_add]
      exact ih later mem (fun n hn => short n (List.mem_cons_of_mem other hn)) others

end Texts

section Answers

variable {i : Nat}

/-- The paths of the directory begin with `./` and are lines of text, each file is counted piece by
piece, no word is too long for its node, and a slot of the array stays free. -/
structure Indexable (files : CString → Option (List Byte)) (dirname : CString)
  (listing : List CString) : Prop where
  here : StartsHere (dirname ++ text "/")
  cleanDir : NUL ∉ dirname ∧ LF ∉ dirname
  cleanNames : ∀ name ∈ listing, NUL ∉ name ∧ LF ∉ name
  distinct : listing.Nodup
  opens : ∀ name ∈ indexed listing, Opens files dirname name
  texts : ∀ name ∈ indexed listing, NUL ∉ content files dirname name ∧
  CutsHarmless (content files dirname name) ∧
    ∀ w ∈ words (content files dirname name), w.length < MAXWORD
  few : (worded files dirname (indexed listing)).length < MAXFILES
  counts : (calls files dirname (indexed listing)).length < 2 ^ 31

theorem mem_calls {c : Call} (mem : c ∈ calls files dirname names) :
    ∃ name ∈ names, c.fname = joined dirname name ∧
      c.word ∈ words (content files dirname name) := by
  obtain ⟨name, hname, mem⟩ := List.mem_flatMap.mp mem
  obtain ⟨w, hw, rfl⟩ := List.mem_map.mp mem
  exact ⟨name, hname, rfl, hw⟩

theorem starts_append {front : CString} (here : StartsHere front) (rest : CString) :
    StartsHere (front ++ rest) := by
  have kept : ∀ {i : Nat} {b : Byte}, front[i]? = some b → (front ++ rest)[i]? = some b := by
    intro i b at_
    rw [List.getElem?_append_left (List.getElem?_eq_some_iff.mp at_).1, at_]
  exact ⟨kept here.1, kept here.2⟩

/-- Names without newlines are one line each. -/
theorem nameFileLines_eq (oneLine : ∀ f ∈ names, LF ∉ f) : nameFileLines names = names := by
  induction names with
  | nil => rfl
  | cons f rest ih =>
    have whole : f.splitOn LF = [f] := List.splitOnP_eq_singleton fun b hb => by
      simpa using fun same : b = LF => oneLine f List.mem_cons_self (same ▸ hb)
    have later := ih fun g hg => oneLine g (List.mem_cons_of_mem f hg)
    rw [nameFileLines, List.flatMap_cons, whole]
    exact congrArg (f :: ·) later

theorem nodup_indexed (distinct : listing.Nodup) : (indexed listing).Nodup := distinct.filter _

theorem mapIdx_map {α β γ : Type} {l : List α} {g : α → β} {h : Nat → β → γ} {k : α → γ}
    (same : ∀ i a, l[i]? = some a → h i (g a) = k a) : (l.map g).mapIdx h = l.map k := by
  apply List.ext_getElem?
  intro i
  rw [List.getElem?_mapIdx, List.getElem?_map, List.getElem?_map]
  cases at_ : l[i]? with
  | none => rfl
  | some a => simp [same i a at_]

namespace Indexable

theorem clean_calls (ok : Indexable files dirname listing) :
    ∀ c ∈ calls files dirname (indexed listing), NUL ∉ c.word := by
  intro c hc
  obtain ⟨name, hname, _, hw⟩ := mem_calls hc
  exact clean_words (ok.texts name hname).1 c.word hw

theorem fits_joined (ok : Indexable files dirname listing) (mem : name ∈ indexed listing) :
    Fits (joined dirname name) ∧ LF ∉ joined dirname name := by
  obtain ⟨cleanName, oneLine⟩ := ok.cleanNames name (List.mem_of_mem_filter mem)
  have slash : NUL ∉ text "/" ∧ LF ∉ text "/" := by decide
  refine ⟨⟨(ok.opens name mem).1, ?_⟩, ?_⟩ <;> simp [joined, ok.cleanDir, slash, cleanName, oneLine]

/-- The words stand in the order of `strcmp`. -/
theorem strict_strs (ok : Indexable files dirname listing) :
    ((stored (calls files dirname (indexed listing))).entries.map Entry.str).Pairwise fun a b =>
      strcmp a b = .lt := by
  have fresh : LongWordsFresh (calls files dirname (indexed listing)) := by
    intro before c later split
    obtain ⟨name, hname, _, hw⟩ :=
      mem_calls (split ▸ List.mem_append_right before List.mem_cons_self)
    exact .inl ((ok.texts name hname).2.2 c.word hw)
  exact fresh.strict ok.clean_calls

/-- Every word has one node. -/
theorem once_strs (ok : Indexable files dirname listing) :
    ((stored (calls files dirname (indexed listing))).entries.map Entry.str).Nodup :=
  ok.strict_strs.imp fun order same => by simp [same] at order

theorem names_eq (ok : Indexable files dirname listing) :
    (stored (calls files dirname (indexed listing))).names =
      (worded files dirname (indexed listing)).map (joined dirname) :=
  names_calls (nodup_indexed ok.distinct)

/-- What the worker needs of the list in memory. -/
theorem indexed_cells (ok : Indexable files dirname listing)
    (rep : Represents x (stored (calls files dirname (indexed listing)))) :
    ∃ cells : List Cell,
      cells.map Prod.snd = (stored (calls files dirname (indexed listing))).entries ∧
      Indexed x cells ((worded files dirname (indexed listing)).map (joined dirname)) := by
  obtain ⟨⟨cells, lay, listed⟩, named, room, _⟩ := rep
  have counted : ∀ c ∈ cells, Counted (calls files dirname (indexed listing)).length c.2 := by
    intro c hc
    exact counted_stored _ c.2 (listed ▸ List.mem_map_of_mem hc)
  have few := ok.counts
  refine ⟨cells, listed, lay.toHolds, ?_, ?_,
    fun c hc v hv => ((counted c hc).counts v hv).1, ?_, ?_⟩
  · intro c hc
    refine ⟨(counted c hc).word, (counted c hc).freq, fun v hv => ?_⟩
    have bounds := (counted c hc).counts v hv
    exact ⟨by omega, by omega⟩
  · have once := ok.once_strs
    rw [← listed, List.map_map] at once
    exact once
  · intro c hc i past
    have mem : c.2 ∈ (stored (calls files dirname (indexed listing))).entries :=
      listed ▸ List.mem_map_of_mem hc
    have zero := total_stored ok.clean_calls room c.2.str i
    rw [total_mem ok.once_strs mem, List.countP_eq_zero.mpr] at zero
    · simpa [freqAt] using zero
    · intro d hd
      have inside := List.idxOf_lt_length_iff.mpr (mem_names.mpr ⟨d, hd, rfl⟩)
      rw [ok.names_eq] at inside ⊢
      have other : ¬ ((worded files dirname (indexed listing)).map (joined dirname)).idxOf d.fname =
        i := by omega
      simp [other]
  · rw [ok.names_eq] at named
    exact named

/-- The counter of a word in the slot of a file is how often it stands there. -/
theorem frequency_slot (ok : Indexable files dirname listing)
    (rep : Represents x (stored (calls files dirname (indexed listing)))) (word : CString)
    (slot : (worded files dirname (indexed listing))[i]? = some name) :
    frequency (stored (calls files dirname (indexed listing))).entries word i =
      occurrences word (content files dirname name) := by
  have mem : name ∈ indexed listing := List.mem_of_mem_filter (List.mem_of_getElem? slot)
  obtain ⟨clean, harmless, _⟩ := ok.texts name mem
  obtain ⟨⟨entries, read, _, _, _, totals⟩, _⟩ := accounts_of_represents ok.clean_calls rep
  obtain rfl := Except.ok.inj ((contents_eq rep).symm.trans read)
  have file : x.fileAt i = some (joined dirname name) := by
    rw [fileAt_eq rep, ok.names_eq, List.getElem?_map, slot]
    rfl
  rw [frequency_eq ok.once_strs, totals word (joined dirname name) i file,
    countP_calls (nodup_indexed ok.distinct) mem (fun n hn => (ok.texts n hn).2.2),
      count_harmless clean harmless]

/-- The answer that the names and the counters give is the report. -/
theorem exactAnswer_eq (ok : Indexable files dirname listing)
    (rep : Represents x (stored (calls files dirname (indexed listing)))) (word : CString) :
    exactAnswer (stored (calls files dirname (indexed listing))).entries
        ((worded files dirname (indexed listing)).map (joined dirname)) word =
      reported files dirname word (indexed listing) ++ [getEmptyFreqrecord] := by
  rw [exactAnswer, mapIdx_map (k := fun name =>
      record (occurrences word (content files dirname name))
        (joined dirname name)), List.filter_map, worded,
    List.filter_filter, reported]
  · congr 2
    refine List.filter_congr fun name mem => ?_
    obtain ⟨clean, harmless, _⟩ := ok.texts name mem
    have counted := count_harmless clean harmless word
    cases none : words (content files dirname name) with
    | nil =>
      rw [none, List.count_nil] at counted
      simp [← counted]
    | cons w rest => simp
  · intro i name slot
    rw [ok.frequency_slot rep word slot]

/-- A word is in the list when it occurs in one of the files. -/
theorem mem_entries_iff (ok : Indexable files dirname listing) (word : CString) :
    (∃ e ∈ (stored (calls files dirname (indexed listing))).entries, e.str = word) ↔
      ∃ name ∈ indexed listing, occurrences word (content files dirname name) ≠ 0 := by
  have listed := mem_strsOf (t := word) ok.clean_calls
  rw [strsOf, List.mem_map] at listed
  rw [listed]
  constructor
  · rintro ⟨c, hc, rfl⟩
    obtain ⟨name, mem, _, there⟩ := mem_calls hc
    obtain ⟨clean, harmless, short⟩ := ok.texts name mem
    refine ⟨name, mem, ?_⟩
    rw [cut_eq_of_short (short c.word there), ← count_harmless clean harmless]
    exact (List.count_pos_iff.mpr there).ne'
  · rintro ⟨name, mem, occurs⟩
    obtain ⟨clean, harmless, short⟩ := ok.texts name mem
    rw [← count_harmless clean harmless] at occurs
    have there : word ∈ words (content files dirname name) :=
      List.count_pos_iff.mp (Nat.pos_of_ne_zero occurs)
    refine ⟨⟨word, joined dirname name⟩, ?_, cut_eq_of_short (short word there)⟩
    exact List.mem_flatMap.mpr ⟨name, mem, List.mem_map_of_mem there⟩

end Indexable

/-- The directory is indexed, a worker loads the two files, and what it sends for any word is the
number of its occurrences in each file; of a word that no file has it sends nothing unless the new
block looks like an answer. -/
theorem Indexable.answers (ok : Indexable files dirname listing) (fmt : PointerFormat)
    (path : Nat → Byte) (junkNode : Node) (m : Memory Node) :
    ∃ listfile namefile w, main files dirname fmt path listing = .ok (listfile, namefile) ∧
      load fmt junkNode listfile namefile m = .ok w ∧
      ∀ word junk, (∃ name ∈ indexed listing, occurrences word (content files dirname name) ≠ 0) ∨
          (∀ i, ¬ (junk i : FreqRecord).Sent) →
        w.answer junk word = reported files dirname word (indexed listing) ++
          [getEmptyFreqrecord] := by
  have names := ok.names_eq
  have ran := run_calls (calls files dirname (indexed listing))
  have few := ok.few
  rw [names, List.length_map, if_pos few.le] at ran
  obtain ⟨x, done, rep⟩ := ran
  obtain ⟨cells, listed, loadable⟩ := ok.indexed_cells rep
  have fits : ∀ f ∈ (worded files dirname (indexed listing)).map (joined dirname), Fits f ∧ LF ∉ f ∧
    StartsHere f := by
    intro f hf
    obtain ⟨name, mem, rfl⟩ := List.mem_map.mp hf
    obtain ⟨fits, oneLine⟩ := ok.fits_joined (List.mem_of_mem_filter mem)
    exact ⟨fits, oneLine, starts_append ok.here name⟩
  have oneLine := nameFileLines_eq fun f hf => (fits f hf).2.1
  obtain ⟨listfile, namefile, written, loaded⟩ :=
    load_spec fmt loadable (fun f hf => (fits f hf).1) junkNode m
  rw [oneLine, if_pos (by rw [List.length_map]; exact few)] at loaded
  refine ⟨listfile, namefile, _, ?_, loaded, ?_⟩
  · have size : (Blocks.malloc path PATHLENGTH).length = PATHLENGTH :=
      Blocks.length_malloc path PATHLENGTH
    rw [main,
      indexEntries_eq size ok.cleanDir.1 (fun n hn => (ok.cleanNames n hn).1) ok.opens, done]
    simp only [Except.mapError, bind, Except.bind, written]
  · intro word junk quiet
    have answered := answer_iff loadable (fun f hf => (fits f hf).1) word junk
    rw [oneLine] at answered
    rw [← ok.exactAnswer_eq rep word, ← listed, answered, listed]
    split
    · intro i occurs
      have inside : i < ((worded files dirname (indexed listing)).map (joined dirname)).length := by
        by_contra past
        exact occurs (listed ▸ frequency_unused loadable word (Nat.le_of_not_lt past))
      have slot := List.getElem?_eq_getElem inside
      exact ⟨_, slot, by rw [oneLine, slot], (fits _ (List.getElem_mem inside)).2.2⟩
    · rename_i absent
      rw [ok.mem_entries_iff] at absent
      exact fun i _ _ => quiet.resolve_left absent i

theorem indexable_two : Indexable twoFiles (text ".") [text "..", text "a", text "b"] where
  here := by decide
  cleanDir := by decide
  cleanNames := by decide
  distinct := by decide
  opens := by decide
  texts := by
    have uncut :
        ∀ name ∈ indexed [text "..", text "a", text "b"], NUL ∉ content twoFiles (text ".") name ∧
        cutPieces (content twoFiles (text ".") name) = [] ∧
          ∀ w ∈ words (content twoFiles (text ".") name), w.length < MAXWORD := by decide
    intro name mem
    obtain ⟨clean, none, short⟩ := uncut name mem
    exact ⟨clean, by rw [CutsHarmless, none]; exact List.Perm.refl [], short⟩
  few := by decide
  counts := by decide

end Answers

end Indexer
