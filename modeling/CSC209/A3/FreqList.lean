import CSC209.NodeMemory
import CSC209.StringOrder

/-!
# The word list of the indexer

`freq_list.c` keeps the words in a linked list of nodes, and the names of the
indexed files in an array whose unused slots are NULL and come last. A node
has a block of `MAXWORD` bytes for its word and one frequency for each slot of
that array. The counters are unbounded and `malloc` succeeds. `num_words` is a
global of the source and the head of the list is the variable that every call
of `add_word` is assigned to; both are fields of the index here.
-/

namespace FreqList

open CStrings NodeMemory

def MAXFILES : Nat := 50
def MAXWORD : Nat := 32
def MAXLINE : Nat := 1024
def PATHLENGTH : Nat := 128

structure Entry where
  word : List Byte
  freq : List Int
  deriving DecidableEq, Repr

structure Node extends Entry where
  next : Pointer
  deriving DecidableEq, Repr

structure Index where
  nodes : Memory Node
  head : Pointer
  filenames : List (Option CString)
  numWords : Nat
  deriving DecidableEq, Repr

/-- `get_filenum` exits when every slot of the array holds another name. -/
inductive Halt where
  | tooManyFiles
  | fault (f : Fault)
  deriving DecidableEq, Repr

def initFilenames : List (Option CString) := List.replicate MAXFILES none

def opened : Index := ⟨⟨[]⟩, none, initFilenames, 0⟩

/-- `strncpy` pads a short word with NULs and stops inside a long one, whose last byte
is then overwritten. -/
def createEntry (word : CString) (count : Int) (filenum : Nat) : Entry where
  word := ((word ++ List.replicate MAXWORD NUL).take MAXWORD).set (MAXWORD - 1) NUL
  freq := (List.replicate MAXFILES 0).set filenum count

def createNode (word : CString) (count : Int) (filenum : Nat) : Node :=
  { createEntry word count filenum with next := none }

/-- The slot of the name, and the array with the name in it. -/
def getFilenum (fname : CString) : List (Option CString) → Option (Nat × List (Option CString))
  | [] => none
  | none :: rest => some (0, some fname :: rest)
  | some name :: rest =>
    if strcmp fname name = .eq then some (0, some name :: rest)
    else (getFilenum fname rest).map fun (i, later) => (i + 1, some name :: later)

namespace Entry

def str (e : Entry) : CString := cstr e.word

def bump (e : Entry) (filenum : Nat) : Entry :=
  { e with freq := e.freq.modify filenum (· + 1) }

end Entry

namespace Index

variable (x : Index)

/-- A new node that points to `next`; it lives at `x.nodes.size`. -/
def create (word : CString) (filenum : Nat) (next : Pointer) : Index :=
  { x with
    nodes := x.nodes.alloc { createNode word 1 filenum with next }
    numWords := x.numWords + 1 }

/-- `prev->next = create_node(word, 1, filenum)`, with the new node pointing to `next`. -/
def createAfter (word : CString) (filenum : Nat) (prev next : Pointer) : Except Fault Index := do
  let y := x.create word filenum next
  let nodes ← y.nodes.update prev fun n => { n with next := some x.nodes.size }
  .ok { y with nodes }

/-- The new node becomes the head. -/
def createHead (word : CString) (filenum : Nat) : Index :=
  { x.create word filenum x.head with head := some x.nodes.size }

/-- `cur && strcmp(cur->word, word) > 0` at the head of the list. -/
def headFollows (word : CString) : Except Fault Bool :=
  match x.head with
  | none => .ok false
  | some a => do
    let n ← x.nodes.read (some a)
    .ok (strcmp n.str word = .gt)

/-- The loop of `add_word` and what follows it, with its pointers `cur` and `prev`. -/
def look (word : CString) (filenum : Nat) : Nat → Pointer → Pointer → Except Fault Index
  | _, none, none => .ok (x.createHead word filenum)
  | _, none, some p => x.createAfter word filenum (some p) none
  | 0, some _, _ => .error .outOfFuel
  | fuel + 1, some a, prev => do
    let n ← x.nodes.read (some a)
    match strcmp n.str word with
    | .eq =>
      let nodes ← x.nodes.update (some a) fun n => { n with toEntry := n.bump filenum }
      .ok { x with nodes }
    | .gt =>
      if some a = prev then .ok (x.createHead word filenum)
      else x.createAfter word filenum prev (some a)
    | .lt => look word filenum fuel n.next (some a)

def insertWord (word : CString) (filenum : Nat) : Except Fault Index := do
  if ← x.headFollows word then .ok (x.createHead word filenum)
  else x.look word filenum x.nodes.size x.head x.head

end Index

/-- One call of `add_word`. -/
structure Call where
  word : CString
  fname : CString
  deriving DecidableEq, Repr

def addWord (x : Index) (c : Call) : Except Halt Index :=
  match getFilenum c.fname x.filenames with
  | none => .error .tooManyFiles
  | some (filenum, filenames) =>
    ({ x with filenames }.insertWord c.word filenum).mapError .fault

/-- The list as a walk from a pointer reads it. -/
def listFrom (m : Memory Node) (p : Pointer) : Except Fault (List Entry) := do
  let visited ← m.visit Node.next m.size p
  .ok (visited.filterMap fun a => (m.get a).map Node.toEntry)

def Index.contents (x : Index) : Except Fault (List Entry) := listFrom x.nodes x.head

/-- The name in a slot of the array, if one is there. -/
def Index.fileAt (x : Index) (i : Nat) : Option CString := (x.filenames[i]?).join

section Slots

variable {fname : CString} {names : List CString} {k i : Nat} {e : Entry}

/-- The array with its used slots first. -/
def slots (names : List CString) (k : Nat) : List (Option CString) :=
  names.map some ++ List.replicate k none

/-- The names after one more file: a new name takes the first free slot. -/
def noteName (names : List CString) (fname : CString) : List CString :=
  if fname ∈ names then names else names ++ [fname]

theorem getFilenum_mem (known : fname ∈ names) (k : Nat) :
    getFilenum fname (slots names k) = some (names.idxOf fname, slots names k) := by
  induction names with
  | nil => cases known
  | cons name rest ih =>
    by_cases same : fname = name
    · subst same
      simp [slots, getFilenum]
    · have later : fname ∈ rest := (List.mem_cons.mp known).resolve_left same
      have differ : (name == fname) = false := by simpa using Ne.symm same
      have tail := ih later
      simp only [slots] at tail
      simp [slots, getFilenum, same, tail, List.idxOf_cons, differ]

theorem getFilenum_new (new : fname ∉ names) (k : Nat) :
    getFilenum fname (slots names (k + 1)) = some (names.length, slots (names ++ [fname]) k) := by
  induction names with
  | nil => simp [slots, getFilenum, List.replicate_succ]
  | cons name rest ih =>
    obtain ⟨differ, later⟩ : fname ≠ name ∧ fname ∉ rest := by simpa using new
    have tail := ih later
    simp only [slots] at tail
    simp [slots, getFilenum, differ, tail]

theorem getFilenum_full (new : fname ∉ names) : getFilenum fname (slots names 0) = none := by
  induction names with
  | nil => rfl
  | cons name rest ih =>
    obtain ⟨differ, later⟩ : fname ≠ name ∧ fname ∉ rest := by simpa using new
    simpa [slots, getFilenum, differ] using ih later

/-- Behind names, a slot holds what the rest of the array has there. -/
theorem slot_of_names (names : List CString) (array : List (Option CString)) (i : Nat) :
    ((names.map some ++ array.drop names.length)[i]?).join = names[i]?.or (array[i]?).join := by
  by_cases inside : i < names.length
  · simp [List.getElem?_append_left, inside]
  · have past : names.length ≤ i := Nat.le_of_not_lt inside
    rw [List.getElem?_append_right (by simpa using past), List.getElem?_eq_none past,
      List.getElem?_drop]
    simp [past]

theorem slot_of_slots (names : List CString) (k i : Nat) :
    ((slots names k)[i]?).join = names[i]? := by
  have drops : List.replicate k none =
    (List.replicate (names.length + k) (none : Option CString)).drop names.length := by
    simp
  have free : ((List.replicate (names.length + k) (none : Option CString))[i]?).join = none := by
    rw [List.getElem?_replicate]
    split <;> rfl
  rw [slots, drops, slot_of_names, free, Option.or_none]

end Slots

end FreqList
