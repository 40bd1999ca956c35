import CSC209.A3.Indexer
import CSC209.A3.QueryRuns

/-!
# From the directories to the printed lists

The two programs together: each directory has been indexed, the query engine
has loaded every index into a worker of its own, and the lines of its input
are answered. Whatever the order of the steps, what the master lists for a line
are the occurrences of the word in the files themselves.
-/

namespace SearchEngine

open CStrings StreamIO HaltingRuns NodeMemory FreqList WordIndex Worker QueryPipes QueryWords
  QueryRuns Indexer
open ResultList (resultList)
open WorkerAnswers (load)

/-- A directory as its indexer sees it: what `fopen` gives for a path, and the entries. -/
structure Directory where
  files : CString → Option (List Byte)
  dirname : CString
  listing : List CString

/-- The records for the occurrences of a word in the files of the directory. -/
def Directory.found (d : Directory) (word : CString) : List FreqRecord :=
  reported d.files d.dirname word (indexed d.listing)

/-- The index that a worker has loaded from the files that the indexer has written. -/
def Directory.Loaded (fmt : IndexFiles.PointerFormat) (path : Nat → Byte) (junkNode : Node)
    (m : Memory Node) (d : Directory) (w : WordIndex) : Prop :=
  ∃ listfile namefile,
    Indexer.main d.files d.dirname fmt path d.listing = .ok (listfile, namefile) ∧
    load fmt junkNode listfile namefile m = .ok w

variable {dirs : List Directory} {indexes : List WordIndex} {buffers : List (List Byte)}
  {junk : Junk} {word : CString}

/-- A record that is reported has been counted. -/
theorem found_positive (d : Directory) (word : CString) : ∀ r ∈ d.found word, 0 < r.freq := by
  intro r mem
  obtain ⟨name, occurs, rfl⟩ := List.mem_map.mp mem
  have some_ : occurrences word (content d.files d.dirname name) ≠ 0 := by
    simpa using (List.mem_filter.mp occurs).2
  show (0 : Int) < occurrences word (content d.files d.dirname name)
  omega

/-- The worker of a directory sends what is found there, and the empty record. -/
def Directory.Answers (d : Directory) (w : WordIndex) : Prop :=
  ∀ (fill : Nat → FreqRecord) word, (∀ i, ¬ (fill i).Sent) →
    w.answer fill word = d.found word ++ [getEmptyFreqrecord]

theorem indexes_exist (ok : ∀ d ∈ dirs, Indexable d.files d.dirname d.listing)
    (fmt : IndexFiles.PointerFormat) (path : Nat → Byte) (junkNode : Node) (m : Memory Node) :
    ∃ indexes, List.Forall₂ (fun d w => Directory.Loaded fmt path junkNode m d w ∧
      d.Answers w) dirs indexes := by
  induction dirs with
  | nil => exact ⟨[], .nil⟩
  | cons d dirs ih =>
    obtain ⟨here, later⟩ := List.forall_mem_cons.mp ok
    obtain ⟨listfile, namefile, w, written, loaded, answers⟩ := here.answers fmt path junkNode m
    obtain ⟨indexes, rest⟩ := ih later
    exact ⟨w :: indexes, .cons ⟨⟨listfile, namefile, written, loaded⟩,
        fun fill word quiet => answers word fill (.inr quiet)⟩ rest⟩

/-- What the workers together have for a word. -/
theorem queryAnswer_eq (answers : List.Forall₂ Directory.Answers dirs indexes)
    (same : buffers.length = indexes.length)
    (blank : ∀ i k j, ¬ (junk i k j).Sent) (k : Nat) (word : CString) :
    queryAnswer junk (indexes.zip buffers) k word = dirs.flatMap fun d => d.found word := by
  induction answers generalizing buffers junk with
  | nil => rfl
  | @cons d w dirs indexes here later ih =>
    cases buffers with
    | nil => cases same
    | cons buffer buffers =>
      have first :
          ((d.found word ++ [getEmptyFreqrecord]).filter fun r => 0 < r.freq) = d.found word := by
        rw [List.filter_append,
          List.filter_eq_self.mpr fun r mem => by simpa using found_positive d word r mem]
        simp [getEmptyFreqrecord]
      have fewer : buffers.length = indexes.length := by simpa using same
      have rest : queryAnswer (fun i => junk (i + 1)) (indexes.zip buffers) k word =
        dirs.flatMap fun d => d.found word :=
        ih fewer fun i => blank (i + 1)
      rw [queryAnswer] at rest ⊢
      rw [List.zip_cons_cons, List.mapIdx_cons, List.flatten_cons, List.filter_append,
        here _ _ (blank 0 k), first, List.flatMap_cons]
      exact congrArg (d.found word ++ ·) rest

def twoDirectory : Directory := ⟨twoFiles, text ".", [text "..", text "a", text "b"]⟩

def twoIndex : WordIndex where
  entries :=
    [⟨text "more" ++ List.replicate 28 NUL, [0, 1] ++ List.replicate 48 0⟩,
      ⟨text "trees" ++ List.replicate 27 NUL, [2, 1] ++ List.replicate 48 0⟩]
  names := [text "./a", text "./b"]

/-- The word is sent to the one worker, its answer is read and the list is printed. -/
def turns : List Actor :=
  [.master, .master] ++ List.replicate 4 (.worker 0) ++ List.replicate 5 .master

end SearchEngine
