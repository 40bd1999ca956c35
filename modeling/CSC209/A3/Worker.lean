import CSC209.A3.FreqList

/-!
# A worker of the query engine

`worker.c`: the answer to one query. `get_word` walks the whole list and
writes into an uninitialised block of one record for each file; the writes are
listed in order, and a write behind the block changes none of its records. The
walk is over the entries that the list of `read_list` holds.
-/

namespace Worker

open CStrings FreqList

structure FreqRecord where
  freq : Int
  filename : List Byte
  deriving DecidableEq, Repr

/-- The source sets only the first byte of the name; the others, zeros here, are as `malloc` left
them. -/
def getEmptyFreqrecord : FreqRecord := ⟨0, List.replicate PATHLENGTH NUL⟩

/-- What a worker loads: its list, and the names of its files. -/
structure WordIndex where
  entries : List Entry
  names : List CString
  deriving DecidableEq, Repr

abbrev Write := Nat × FreqRecord

namespace WordIndex

variable (x : WordIndex)

def numOfFiles : Nat := x.names.length

/-- One record for each file, of a node with the word. -/
def nodeWrites (e : Entry) : List Write :=
  x.names.mapIdx fun i name => (i,
      ⟨e.freq.getD i 0, (name ++ List.replicate PATHLENGTH NUL).take PATHLENGTH⟩)

/-- The writes of the loop of `get_word`, which counts them in `num_found`; the record after the
last one is set to the empty record at the last node. -/
def wordWrites (word : CString) : List Entry → Nat → List Write
  | [], _ => []
  | [e], found =>
    let here := if strcmp e.str word = .eq then x.nodeWrites e else []
    here ++ [(found + here.length, getEmptyFreqrecord)]
  | e :: rest, found =>
    let here := if strcmp e.str word = .eq then x.nodeWrites e else []
    here ++ wordWrites word rest (found + here.length)

/-- The block that `get_word` returns; `junk` is what it held when it was allocated. -/
def getWord (junk : Nat → FreqRecord) (word : CString) : List FreqRecord :=
  (x.wordWrites word x.entries 0).foldl (fun block (i, record) => block.set i record)
    ((List.range x.numOfFiles).map junk)

end WordIndex

/-- `frequencies[i].freq > 0` and the name starts with `./`. -/
def FreqRecord.Sent (r : FreqRecord) : Prop :=
  0 < r.freq ∧ r.filename[0]? = some 46 ∧ r.filename[1]? = some 47

instance (r : FreqRecord) : Decidable r.Sent := inferInstanceAs (Decidable (_ ∧ _))

/-- The records that `run_worker` writes for one word. -/
def WordIndex.answer (x : WordIndex) (junk : Nat → FreqRecord) (word : CString) : List FreqRecord :=
  (x.getWord junk word).filter (fun r => r.Sent) ++ [getEmptyFreqrecord]

end Worker
