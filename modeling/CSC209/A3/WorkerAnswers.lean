import CSC209.A3.IndexFiles
import CSC209.A3.Worker
import CSC209.Splitting

/-!
# What a worker answers

`run_worker` counts the lines of the file of names, loads the two files of its
directory and then answers every word from what it has loaded. The names in
that file are the paths under which the indexer has seen its files: they begin
with whatever directory name the indexer was given, and a newline in a path
makes two lines of it. A worker sends a record only when its name begins with
`./`, and for a word that its list does not have it looks through a block that
nobody has filled.
-/

namespace WorkerAnswers

open CStrings StreamIO NodeMemory FreqList WordList IndexFiles Worker Splitting

def DOT : Byte := 46
def SLASH : Byte := 47

/-- The path that the indexer's `main` makes of a directory entry; what does not fit is cut. -/
def indexedPath (dirname file : CString) : CString :=
  (dirname ++ [SLASH] ++ file).take (PATHLENGTH - 1)

/-- The names in the indexer's array after its last file. -/
def tableOf (dirname : CString) (files : List CString) : List CString :=
  (files.map (indexedPath dirname)).foldl noteName []

def countLines (file : List Byte) : Nat := (lines MAXLINE file).length

/-- `run_worker` before its loop. -/
def load (fmt : PointerFormat) (junk : Node) (listfile namefile : List Byte) (m : Memory Node) :
    Except IndexFiles.Halt Worker.WordIndex := do
  let loaded ← readList fmt junk listfile namefile m (List.replicate (countLines namefile) none)
  let entries ← (listFrom loaded.nodes loaded.head).mapError .fault
  .ok ⟨entries, loaded.filenames.map fun name => name.getD []⟩

/-- A list in memory with one node for each word, and the files that its frequencies count. -/
structure Indexed (x : Index) (cells : List Cell) (names : List CString) : Prop where
  holds : Holds x.nodes x.head cells
  sized : ∀ c ∈ cells, Sized c.2
  once : (cells.map fun c => c.2.str).Nodup
  counts : ∀ c ∈ cells, ∀ v ∈ c.2.freq, 0 ≤ v
  unused : ∀ c ∈ cells, ∀ i, names.length ≤ i → c.2.freq.getD i 0 = 0
  array : x.filenames = slots names (MAXFILES - names.length)

section Exact

variable (entries : List Entry) (names : List CString) (word : CString)

/-- How often the word occurs in the file of a slot. -/
def frequency (i : Nat) : Int :=
  ((entries.find? fun e => e.str = word).map fun e => e.freq.getD i 0).getD 0

def record (freq : Int) (name : CString) : FreqRecord :=
  ⟨freq, (name ++ List.replicate PATHLENGTH NUL).take PATHLENGTH⟩

/-- One record for each file in which the word occurs, in file order, and the empty record. -/
def exactAnswer : List FreqRecord :=
  ((names.mapIdx fun i name => record (frequency entries word i) name).filter
    fun r => r.freq ≠ 0) ++ [getEmptyFreqrecord]

/-- The lines of the file of names. -/
def nameFileLines : List CString := names.flatMap fun name => name.splitOn LF

def StartsHere (name : CString) : Prop := name[0]? = some DOT ∧ name[1]? = some SLASH

instance (name : CString) : Decidable (StartsHere name) := inferInstanceAs (Decidable (_ ∧ _))

/-- The slot's name is the line of its number, and it begins with `./`. -/
def Sendable (i : Nat) : Prop :=
  ∃ name ∈ names[i]?, (nameFileLines names)[i]? = some name ∧ StartsHere name

/-- There is a free slot behind the lines; and every file with the word has a name that is sent,
or, for a word that the list does not have, no record of the new block looks like an answer,
except in the first slot if the list is not empty. -/
def CanAnswer (junk : Nat → FreqRecord) : Prop :=
  (nameFileLines names).length < MAXFILES ∧
    if ∃ e ∈ entries, e.str = word then ∀ i, frequency entries word i ≠ 0 → Sendable names i
    else ∀ i < (nameFileLines names).length, (i = 0 → entries = []) → ¬ (junk i).Sent

end Exact

/-- The files are written, the worker loads them, and what it writes for the word is exact. -/
def AnswersExactly (fmt : PointerFormat) (x : Index) (cells : List Cell) (names : List CString)
    (junkNode : Node) (m : Memory Node) (junk : Nat → FreqRecord) (word : CString) : Prop :=
  ∃ listfile namefile w, writeList fmt x = .ok (listfile, namefile) ∧
    load fmt junkNode listfile namefile m = .ok w ∧
    w.answer junk word = exactAnswer (cells.map Prod.snd) names word

variable {fmt : PointerFormat} {x : Index} {cells : List Cell} {names lines' : List CString}
  {name : CString} {entries : List Entry} {word : CString} {junk : Nat → FreqRecord}
  {w : Worker.WordIndex} {e : Entry}

section Records

@[simp] theorem record_freq (v : Int) (name : CString) : (record v name).freq = v := rfl

/-- A name that fits its field and can be read back from it. -/
def Fits (name : CString) : Prop := name.length < PATHLENGTH ∧ NUL ∉ name

theorem record_filename (v : Int) (fits : Fits name) :
    (record v name).filename = name ++ List.replicate (PATHLENGTH - name.length) NUL := by
  have short := fits.1
  rw [record, List.take_append, List.take_of_length_le (by omega), List.take_replicate,
    Nat.min_eq_left (Nat.sub_le ..)]

theorem record_inj {v : Int} {other : CString} (fits : Fits name) (fits' : Fits other)
    (h : record v name = record v other) : name = other := by
  have read : ∀ f, Fits f → cstr (record v f).filename = f := by
    intro f hf
    obtain ⟨k, hk⟩ : ∃ k, PATHLENGTH - f.length = k + 1 :=
      ⟨PATHLENGTH - f.length - 1, by have := hf.1; omega⟩
    rw [record_filename v hf, hk, List.replicate_succ]
    exact cstr_append_nul f _ hf.2
  rw [← read name fits, h, read other fits']

theorem record_byte (v : Int) (fits : Fits name) {b : Byte} (real : b ≠ NUL) (i : Nat) :
    (record v name).filename[i]? = some b ↔ name[i]? = some b := by
  rw [record_filename v fits]
  by_cases inside : i < name.length
  · rw [List.getElem?_append_left inside]
  · have past : name[i]? = none := List.getElem?_eq_none (by omega)
    rw [List.getElem?_append_right (by omega), past, List.getElem?_replicate]
    split
    · simpa using fun same : NUL = b => real same.symm
    · rfl

theorem record_sent (v : Int) (fits : Fits name) :
    (record v name).Sent ↔ 0 < v ∧ StartsHere name := by
  rw [FreqRecord.Sent, StartsHere, ← record_byte v fits (by decide : DOT ≠ NUL),
    ← record_byte v fits (by decide : SLASH ≠ NUL)]
  rfl

end Records

section Blocks

/-- Writing every slot of a part of a block. -/
theorem foldl_set_mapIdx {α β : Type} (g : Nat → α → β) (l : List α) (before rest : List β)
    (same : rest.length = l.length) :
    (l.mapIdx fun i a => (before.length + i, g (before.length + i) a)).foldl
        (fun block w => block.set w.1 w.2) (before ++ rest) =
      before ++ l.mapIdx fun i a => g (before.length + i) a := by
  induction l generalizing before rest with
  | nil =>
    obtain rfl : rest = [] := List.length_eq_zero_iff.mp same
    rfl
  | cons a l ih =>
    cases rest with
    | nil => simp at same
    | cons r rest =>
      have later := ih (before ++ [g before.length a]) rest (by simpa using same)
      simp only [List.length_append, List.length_singleton, Nat.add_assoc, Nat.add_comm 1,
        List.append_assoc, List.singleton_append] at later
      simpa [List.mapIdx_cons, List.set_append_right] using later

theorem wordWrites_absent (absent : ∀ e ∈ entries, e.str ≠ word) (found : Nat) :
    w.wordWrites word entries found = if entries = [] then [] else
      [(found, getEmptyFreqrecord)] := by
  have other : ∀ e ∈ entries, ¬ strcmp e.str word = .eq := fun e he same =>
    absent e he (Std.LawfulEqCmp.eq_of_compare same)
  induction entries with
  | nil => rfl
  | cons e rest ih =>
    have here := other e List.mem_cons_self
    cases rest with
    | nil => simp [Worker.WordIndex.wordWrites, here]
    | cons d later =>
      have tail := ih (fun u hu => absent u (List.mem_cons_of_mem e hu))
        (fun u hu => other u (List.mem_cons_of_mem e hu))
      simpa [Worker.WordIndex.wordWrites, here] using tail

/-- The one node of the word fills the block, and the empty record goes behind it. -/
theorem wordWrites_present (once : (entries.map Entry.str).Nodup) (he : e ∈ entries)
    (same : e.str = word) :
    w.wordWrites word entries 0 = w.nodeWrites e ++ [(w.numOfFiles, getEmptyFreqrecord)] := by
  have size : (w.nodeWrites e).length = w.numOfFiles := by
    simp [Worker.WordIndex.nodeWrites, Worker.WordIndex.numOfFiles]
  have hit : strcmp e.str word = .eq := same ▸ strcmp_self _
  induction entries with
  | nil => cases he
  | cons d rest ih =>
    obtain ⟨apart, later⟩ := List.nodup_cons.mp once
    rcases List.mem_cons.mp he with rfl | he
    · have absent : ∀ u ∈ rest, u.str ≠ word := fun u hu other =>
        apart (same ▸ other ▸ List.mem_map_of_mem hu)
      cases rest with
      | nil => simp [Worker.WordIndex.wordWrites, hit, size]
      | cons u more =>
        have tail := wordWrites_absent (w := w) absent (0 + (w.nodeWrites e).length)
        simp only [Worker.WordIndex.wordWrites, hit, if_true]
        rw [tail]
        simp [size]
    · have other : ¬ strcmp d.str word = .eq := fun eq =>
        apart ((Std.LawfulEqCmp.eq_of_compare eq).trans same.symm ▸ List.mem_map_of_mem he)
      cases rest with
      | nil => cases he
      | cons u more => simpa [Worker.WordIndex.wordWrites, other] using ih later he

theorem getWord_present (once : (w.entries.map Entry.str).Nodup) (he : e ∈ w.entries)
    (same : e.str = word) :
    w.getWord junk word = w.names.mapIdx fun i name => record (e.freq.getD i 0) name := by
  have filled := foldl_set_mapIdx (fun i name => record (e.freq.getD i 0) name) w.names []
    ((List.range w.numOfFiles).map junk) (by simp [Worker.WordIndex.numOfFiles])
  simp only [List.length_nil, Nat.zero_add, List.nil_append] at filled
  rw [Worker.WordIndex.getWord, wordWrites_present once he same, List.foldl_append]
  refine (congrArg (fun block => List.foldl _ block _) filled).trans ?_
  exact List.set_eq_of_length_le (by simp [Worker.WordIndex.numOfFiles])

theorem getWord_absent (absent : ∀ e ∈ w.entries, e.str ≠ word) :
    w.getWord junk word = if w.entries = [] then (List.range w.numOfFiles).map junk
      else ((List.range w.numOfFiles).map junk).set 0 getEmptyFreqrecord := by
  rw [Worker.WordIndex.getWord, wordWrites_absent absent]
  split <;> rfl

/-- The empty record is never sent, so only what the block held before can be. -/
theorem answer_absent (absent : ∀ e ∈ w.entries, e.str ≠ word) :
    w.answer junk word = [getEmptyFreqrecord] ↔
      ∀ i < w.numOfFiles, (i = 0 → w.entries = []) → ¬ (junk i).Sent := by
  have empty : ¬ getEmptyFreqrecord.Sent := by decide
  rw [Worker.WordIndex.answer, getWord_absent absent, List.append_left_eq_self]
  by_cases none : w.entries = []
  · simp [none]
  · rw [if_neg none]
    cases w.numOfFiles with
    | zero => simp
    | succ n =>
      simp only [List.range_succ_eq_map, List.map_cons, List.map_map, List.set_cons_zero,
        List.filter_eq_nil_iff,
        List.mem_cons, List.mem_map, List.mem_range, decide_eq_true_eq, none, imp_false]
      constructor
      · rintro quiet (_ | i) hi first
        · exact absurd rfl first
        · exact quiet _ (.inr ⟨i, by omega, rfl⟩)
      · rintro quiet r (rfl | ⟨i, hi, rfl⟩)
        · exact empty
        · exact quiet (i + 1) (by omega) (by omega)

end Blocks

section Names

theorem length_filter_le (freq : Nat → Int) (lines' names : List CString)
    (fits : ∀ f ∈ lines', Fits f) (unused : ∀ i, names.length ≤ i → freq i = 0) :
    ((lines'.mapIdx fun i f => record (freq i) f).filter fun r => r.Sent).length ≤
      ((names.mapIdx fun i f => record (freq i) f).filter fun r => r.freq ≠ 0).length := by
  induction lines' generalizing names freq with
  | nil => simp
  | cons f lines' ih =>
    have fitsF := fits f List.mem_cons_self
    cases names with
    | nil =>
      have never : freq 0 = 0 := unused 0 (Nat.zero_le _)
      have later := ih (fun i => freq (i + 1)) [] (fun g hg => fits g (List.mem_cons_of_mem f hg))
        fun i _ => unused (i + 1) (Nat.zero_le _)
      simpa [List.mapIdx_cons, record_sent _ fitsF, never] using later
    | cons g names =>
      have later :=
        ih (fun i => freq (i + 1)) names (fun g hg => fits g (List.mem_cons_of_mem f hg))
        fun i hi => unused (i + 1) (Nat.succ_le_succ hi)
      rw [List.mapIdx_cons, List.mapIdx_cons, List.filter_cons, List.filter_cons]
      by_cases occurs : freq 0 = 0
      · simpa [record_sent _ fitsF, occurs] using later
      · split <;> simp [occurs] at later ⊢ <;> omega

/-- The first slot and the others. -/
theorem slots_cons {freq : Nat → Int} {f g : CString} {lines' names : List CString} :
    (∀ i, freq i ≠ 0 → ∃ u ∈ (g :: names)[i]?, (f :: lines')[i]? = some u ∧ StartsHere u) ↔
      (freq 0 ≠ 0 → f = g ∧ StartsHere f) ∧
        ∀ i, freq (i + 1) ≠ 0 → ∃ u ∈ names[i]?, lines'[i]? = some u ∧ StartsHere u := by
  constructor
  · intro all
    refine ⟨fun occurs => ?_, fun i => all (i + 1)⟩
    obtain ⟨u, hu, hf, here⟩ := all 0 occurs
    obtain rfl : g = u := by simpa using hu
    obtain rfl : f = g := by simpa using hf
    exact ⟨rfl, here⟩
  · rintro ⟨first, rest⟩ i occurs
    cases i with
    | zero =>
      obtain ⟨rfl, here⟩ := first occurs
      exact ⟨f, rfl, rfl, here⟩
    | succ i => exact rest i occurs

/-- What is sent is what should be exactly when every file with the word has its name in its
line. -/
theorem sent_iff (freq : Nat → Int) (lines' names : List CString) (fitsLines : ∀ f ∈ lines', Fits f)
    (fits : ∀ f ∈ names, Fits f) (counts : ∀ i, 0 ≤ freq i)
    (unused : ∀ i, names.length ≤ i → freq i = 0) (enough : names.length ≤ lines'.length) :
    (lines'.mapIdx fun i f => record (freq i) f).filter (fun r => r.Sent) =
        (names.mapIdx fun i f => record (freq i) f).filter (fun r => r.freq ≠ 0) ↔
      ∀ i, freq i ≠ 0 → ∃ f ∈ names[i]?, lines'[i]? = some f ∧ StartsHere f := by
  induction names generalizing freq lines' with
  | nil =>
    have never : ∀ i, freq i = 0 := fun i => unused i (Nat.zero_le i)
    have short := length_filter_le freq lines' [] fitsLines unused
    simp only [List.mapIdx_nil, List.filter_nil, List.length_nil, Nat.le_zero,
      List.length_eq_zero_iff] at short
    rw [short]
    simp [never]
  | cons g names ih =>
    cases lines' with
    | nil => simp at enough
    | cons f lines' =>
      have fitsF := fitsLines f List.mem_cons_self
      have restFits : ∀ u ∈ lines', Fits u := fun u hu => fitsLines u (List.mem_cons_of_mem f hu)
      have restUnused : ∀ i, names.length ≤ i → freq (i + 1) = 0 :=
        fun i hi => unused (i + 1) (Nat.succ_le_succ hi)
      have later :=
        ih (fun i => freq (i + 1)) lines' restFits (fun u hu => fits u (List.mem_cons_of_mem g hu))
        (fun i => counts (i + 1)) restUnused (Nat.le_of_succ_le_succ enough)
      have short := length_filter_le (fun i => freq (i + 1)) lines' names restFits restUnused
      rw [slots_cons, ← later, List.mapIdx_cons, List.mapIdx_cons]
      by_cases occurs : freq 0 = 0
      · simp [record_sent _ fitsF, occurs]
      · have positive : 0 < freq 0 := lt_of_le_of_ne (counts 0) (Ne.symm occurs)
        by_cases here : StartsHere f
        · have sent : (record (freq 0) f).Sent := (record_sent _ fitsF).mpr ⟨positive, here⟩
          have head : record (freq 0) f = record (freq 0) g ↔ f = g :=
            ⟨record_inj fitsF (fits g List.mem_cons_self), fun same => same ▸ rfl⟩
          simp [sent, occurs, here, head]
        · have kept : ¬ (record (freq 0) f).Sent :=
            fun sent => here ((record_sent _ fitsF).mp sent).2
          rw [List.filter_cons_of_neg (by simpa using kept),
            List.filter_cons_of_pos (p := fun r : FreqRecord => decide (r.freq ≠ 0))
              (decide_eq_true occurs)]
          refine iff_of_false (fun same => ?_) (fun all => here (all.1 occurs).2)
          rw [same, List.length_cons] at short
          omega

theorem length_names_le (names : List CString) : names.length ≤ (nameFileLines names).length := by
  induction names with
  | nil => rfl
  | cons name rest ih =>
    have some_line := List.length_pos_of_ne_nil (List.splitOn_ne_nil LF name)
    simp only [nameFileLines, List.flatMap_cons, List.length_append, List.length_cons] at ih ⊢
    omega

theorem fits_lines (fits : ∀ f ∈ names, Fits f) : ∀ l ∈ nameFileLines names, Fits l ∧ LF ∉ l := by
  intro l hl
  obtain ⟨f, hf, hl⟩ := List.mem_flatMap.mp hl
  obtain ⟨short, clean⟩ := fits f hf
  refine ⟨⟨Nat.lt_of_le_of_lt (length_le_of_mem_splitOn hl) short, fun met => clean ?_⟩,
    not_mem_of_mem_splitOn hl⟩
  exact mem_of_mem_splitOnP hl met

/-- The file of names is a file of these lines. -/
theorem flatMap_nameFileLines (names : List CString) :
    (nameFileLines names).flatMap (· ++ [LF]) = names.flatMap (· ++ [LF]) := by
  simp only [nameFileLines, List.flatMap_assoc, splitOn_terminated]

theorem fits_indexedPath {dirname file : CString} (clean : NUL ∉ dirname) (clean' : NUL ∉ file) :
    Fits (indexedPath dirname file) := by
  refine ⟨Nat.lt_of_le_of_lt (List.length_take_le _ _) (by decide), fun met => ?_⟩
  have inside := List.mem_of_mem_take met
  simp only [List.append_assoc, List.mem_append, List.mem_singleton] at inside
  rcases inside with h | h | h
  · exact clean h
  · exact absurd h (by decide)
  · exact clean' h

theorem fits_tableOf {dirname : CString} {files : List CString} (clean : NUL ∉ dirname)
    (clean' : ∀ f ∈ files, NUL ∉ f) : ∀ name ∈ tableOf dirname files, Fits name := by
  have noted : ∀ (files names : List CString), (∀ f ∈ files, NUL ∉ f) → (∀ f ∈ names, Fits f) →
      ∀ f ∈ (files.map (indexedPath dirname)).foldl noteName names, Fits f := by
    intro files
    induction files with
    | nil => exact fun names _ fits => fits
    | cons file rest ih =>
      intro names clean' fits
      refine ih _ (fun f hf => clean' f (List.mem_cons_of_mem file hf)) fun f hf => ?_
      rw [noteName] at hf
      split at hf
      · exact fits f hf
      · rcases List.mem_append.mp hf with hf | hf
        · exact fits f hf
        · rw [List.mem_singleton.mp hf]
          exact fits_indexedPath clean (clean' file List.mem_cons_self)
  exact noted files [] clean' (by simp)

end Names

section Results

theorem lines_nameFile (fits : ∀ f ∈ names, Fits f) :
    lines MAXLINE (names.flatMap (· ++ [LF])) = (nameFileLines names).map (· ++ [LF]) := by
  rw [← flatMap_nameFileLines]
  refine lines_of_newlines (fun l hl => (fits_lines fits l hl).2) fun l hl => ?_
  have short := (fits_lines fits l hl).1.1
  simp only [PATHLENGTH, MAXLINE] at short ⊢
  omega

/-- What a worker loads from the files of an index. -/
theorem load_spec (fmt : PointerFormat) (indexed : Indexed x cells names)
    (fits : ∀ f ∈ names, Fits f) (junkNode : Node) (m : Memory Node) :
    ∃ listfile namefile, writeList fmt x = .ok (listfile, namefile) ∧
      if (nameFileLines names).length < MAXFILES then
        load fmt junkNode listfile namefile m = .ok ⟨cells.map Prod.snd, nameFileLines names⟩
      else load fmt junkNode listfile namefile m = .error .tooManyFilenames := by
  obtain ⟨ns, hwrite, entries, sizedNs⟩ := writeList_spec fmt indexed.holds indexed.sized
  rw [indexed.array, nameLines_slots] at hwrite
  refine ⟨_, _, hwrite, ?_⟩
  have counted : countLines (names.flatMap (· ++ [LF])) = (nameFileLines names).length := by
    rw [countLines, lines_nameFile fits, List.length_map]
  have hread :=
    readList_spec fmt junkNode m (List.replicate (nameFileLines names).length none) sizedNs
    (fun l hl => ⟨(fits_lines fits l hl).1.1, (fits_lines fits l hl).1.2, (fits_lines fits l hl).2⟩)
    (by simp)
  rw [flatMap_nameFileLines] at hread
  split at hread
  · rename_i few
    obtain ⟨loaded, hloaded, hlist, hnames⟩ := hread
    rw [if_pos few]
    simp only [load, counted, hloaded, hlist, hnames, entries, Except.mapError, bind, Except.bind]
    simp
  · rename_i many
    rw [if_neg many]
    simp only [load, counted, hread, bind, Except.bind]

theorem frequency_nonneg (indexed : Indexed x cells names) (word : CString) (i : Nat) :
    0 ≤ frequency (cells.map Prod.snd) word i := by
  rw [frequency]
  cases found : (cells.map Prod.snd).find? fun e => e.str = word with
  | none => simp
  | some e =>
    obtain ⟨c, hc, rfl⟩ := List.mem_map.mp (List.mem_of_find?_eq_some found)
    simp only [Option.map_some, Option.getD_some, List.getD_eq_getElem?_getD]
    cases slot : c.2.freq[i]? with
    | none => simp
    | some v => simpa using indexed.counts c hc v (List.mem_of_getElem? slot)

theorem frequency_unused (indexed : Indexed x cells names) (word : CString) {i : Nat}
    (hi : names.length ≤ i) : frequency (cells.map Prod.snd) word i = 0 := by
  rw [frequency]
  cases found : (cells.map Prod.snd).find? fun e => e.str = word with
  | none => rfl
  | some e =>
    obtain ⟨c, hc, rfl⟩ := List.mem_map.mp (List.mem_of_find?_eq_some found)
    exact indexed.unused c hc i hi

/-- A loaded worker answers exactly when the names are sent, or the block is quiet. -/
theorem answer_iff (indexed : Indexed x cells names) (fits : ∀ f ∈ names, Fits f) (word : CString)
    (junk : Nat → FreqRecord) :
    (⟨cells.map Prod.snd, nameFileLines names⟩ : Worker.WordIndex).answer junk word =
        exactAnswer (cells.map Prod.snd) names word ↔
      if ∃ e ∈ cells.map Prod.snd, e.str = word then
        ∀ i, frequency (cells.map Prod.snd) word i ≠ 0 → Sendable names i
      else ∀ i < (nameFileLines names).length, (i = 0 → cells.map Prod.snd = []) →
      ¬ (junk i).Sent := by
  have once : ((cells.map Prod.snd).map Entry.str).Nodup := by
    rw [List.map_map]
    exact indexed.once
  split
  · rename_i present
    obtain ⟨e, he, same⟩ := present
    -- the node of the word is the one that `find?` finds
    have found : (cells.map Prod.snd).find? (fun e => e.str = word) = some e := by
      cases hit : (cells.map Prod.snd).find? fun e => e.str = word with
      | none => exact absurd same (by simpa using List.find?_eq_none.mp hit e he)
      | some d =>
        have named : d.str = word := by simpa using List.find?_some hit
        rw
          [List.inj_on_of_nodup_map once (List.mem_of_find?_eq_some hit) he (named.trans same.symm)]
    have freq : ∀ i, e.freq.getD i 0 = frequency (cells.map Prod.snd) word i := fun i => by
      rw [frequency, found]
      rfl
    have block : (⟨cells.map Prod.snd, nameFileLines names⟩ : Worker.WordIndex).getWord junk word =
        (nameFileLines names).mapIdx fun i f =>
          record (frequency (cells.map Prod.snd) word i) f := by
      rw [getWord_present once he same]
      simp only [freq]
    rw [Worker.WordIndex.answer, block, exactAnswer, List.append_left_inj]
    exact sent_iff _ _ _ (fun f hf => (fits_lines fits f hf).1) fits (frequency_nonneg indexed word)
      (fun i hi => frequency_unused indexed word hi) (length_names_le names)
  · rename_i absent
    have others : ∀ e ∈ cells.map Prod.snd, e.str ≠ word := fun e he same => absent ⟨e, he, same⟩
    have notFound : (cells.map Prod.snd).find? (fun e => e.str = word) = none :=
      List.find?_eq_none.mpr (by simpa using others)
    have nothing : exactAnswer (cells.map Prod.snd) names word = [getEmptyFreqrecord] := by
      have never : ∀ i, frequency (cells.map Prod.snd) word i = 0 :=
        fun i => by rw [frequency, notFound]; rfl
      rw [exactAnswer, List.append_left_eq_self, List.filter_eq_nil_iff]
      intro r hr
      obtain ⟨i, hi, rfl⟩ := List.mem_mapIdx.mp hr
      simp [never]
    rw [nothing]
    exact answer_absent others

/-- A list of one word and the table of an indexer that was run in the directory itself. -/
def oneWord (names : List CString) : Index :=
  ⟨⟨[some (createNode (text "list") 3 0)]⟩, some 0, slots names (MAXFILES - names.length), 1⟩

theorem indexed_oneWord (some_name : names ≠ []) :
    Indexed (oneWord names) [(0, createEntry (text "list") 3 0)] names := by
  have sized : Sized (createEntry (text "list") 3 0) := ⟨by decide, by decide, by decide⟩
  refine ⟨⟨⟨rfl, none, rfl, rfl⟩, by simp [oneWord, createNode, Memory.get]⟩, by simpa using sized,
    by simp, ?_, ?_, rfl⟩
  · have counts : ∀ v ∈ (createEntry (text "list") 3 0).freq, 0 ≤ v := by decide
    simpa using counts
  · intro c hc i hi
    obtain rfl := List.mem_singleton.mp hc
    have one := List.length_pos_of_ne_nil some_name
    rw [createEntry, List.getD_eq_getElem?_getD, List.getElem?_set_ne (by omega),
      List.getElem?_replicate]
    split <;> rfl

end Results

end WorkerAnswers
