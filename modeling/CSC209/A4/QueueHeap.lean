import CSC209.A4.HelpQueue
import Mathlib.Logic.Function.Basic

/-!
# The pointer operations of A4

`A4/hcq.c` on an explicit heap of student and TA nodes. A node carries the
string that its `name` points to, since both are allocated and freed together;
`malloc` is taken to succeed and its answer is an argument of the operation.
Following or freeing a pointer that is NULL or whose node is not live is a
fault. Each `while` loop has a fuel argument; running out of it is a fault too.
-/

namespace QueueHeap

open CStrings HelpQueue

abbrev Addr := Nat

structure StudentNode where
  name : CString
  course : Option Course
  nextOverall : Option Addr
  deriving DecidableEq, Repr

structure TaNode where
  name : CString
  currentStudent : Option Addr
  next : Option Addr
  deriving DecidableEq, Repr

inductive Cell (Node : Type) where
  | unused
  | live (node : Node)
  | freed
  deriving DecidableEq, Repr

/-- The heap with the two global pointers. -/
structure Heap where
  students : Addr → Cell StudentNode
  tas : Addr → Cell TaNode
  stuList : Option Addr
  taList : Option Addr

inductive Fault where
  | nullPointer
  | deadPointer
  | outOfFuel
  deriving DecidableEq, Repr

namespace Heap

variable (h : Heap)

def student : Option Addr → Except Fault StudentNode
  | none => .error .nullPointer
  | some a =>
    match h.students a with
    | .live n => .ok n
    | _ => .error .deadPointer

def ta : Option Addr → Except Fault TaNode
  | none => .error .nullPointer
  | some a =>
    match h.tas a with
    | .live n => .ok n
    | _ => .error .deadPointer

def setStudent (a : Addr) (c : Cell StudentNode) : Heap :=
  { h with students := Function.update h.students a c }

def setTa (a : Addr) (c : Cell TaNode) : Heap :=
  { h with tas := Function.update h.tas a c }

/-- `free(p->name); free(p);` for a student. -/
def freeStudent (p : Option Addr) : Except Fault Heap := do
  let _ ← h.student p
  match p with
  | none => .error .nullPointer
  | some a => .ok (h.setStudent a .freed)

def freeTa (p : Option Addr) : Except Fault Heap := do
  let _ ← h.ta p
  match p with
  | none => .error .nullPointer
  | some a => .ok (h.setTa a .freed)

/-- `p->next_overall = q;` -/
def linkStudent (p q : Option Addr) : Except Fault Heap := do
  let n ← h.student p
  match p with
  | none => .error .nullPointer
  | some a => .ok (h.setStudent a (.live { n with nextOverall := q }))

end Heap

def findStudent (h : Heap) (name : CString) : Nat → Option Addr → Except Fault (Option Addr)
  | 0, _ => .error .outOfFuel
  | _ + 1, none => .ok none
  | fuel + 1, some a => do
    let s ← h.student (some a)
    if s.name = name then .ok (some a) else findStudent h name fuel s.nextOverall

def findTa (h : Heap) (name : CString) : Nat → Option Addr → Except Fault (Option Addr)
  | 0, _ => .error .outOfFuel
  | _ + 1, none => .ok none
  | fuel + 1, some a => do
    let t ← h.ta (some a)
    if t.name = name then .ok (some a) else findTa h name fuel t.next

/-- `while (last->next_overall != NULL) last = last->next_overall;` -/
def lastStudent (h : Heap) : Nat → Option Addr → Except Fault (Option Addr)
  | 0, _ => .error .outOfFuel
  | fuel + 1, last => do
    let s ← h.student last
    match s.nextOverall with
    | none => .ok last
    | some b => lastStudent h fuel (some b)

def addStudent (courses : List Course) (new : Addr) (name code : CString) (fuel : Nat) (h : Heap) :
    Except Fault (Nat × Heap) := do
  match ← findStudent h name fuel h.stuList with
  | some _ => .ok (1, h)
  | none =>
    let course := findCourse courses code
    let h := h.setStudent new (.live ⟨name, course, none⟩)
    match course with
    | none => do
      let h ← h.freeStudent (some new)
      .ok (2, h)
    | some _ =>
      match h.stuList with
      | none => .ok (0, { h with stuList := some new })
      | some first => do
        let last ← lastStudent h fuel (some first)
        let h ← h.linkStudent last (some new)
        .ok (0, h)

/-- `while (current->next_overall != thisstudent) current = current->next_overall;` -/
def previousStudent (h : Heap) (thisStudent : Addr) : Nat → Option Addr → Except Fault (Option Addr)
  | 0, _ => .error .outOfFuel
  | fuel + 1, current => do
    let s ← h.student current
    if s.nextOverall = some thisStudent then .ok current
    else previousStudent h thisStudent fuel s.nextOverall

def routeAroundOverall (thisStudent : Addr) (fuel : Nat) (h : Heap) : Except Fault Heap := do
  if h.stuList = some thisStudent then
    let s ← h.student (some thisStudent)
    .ok { h with stuList := s.nextOverall }
  else
    let current ← previousStudent h thisStudent fuel h.stuList
    let s ← h.student (some thisStudent)
    h.linkStudent current s.nextOverall

def giveUpWaiting (name : CString) (fuel : Nat) (h : Heap) : Except Fault (Nat × Heap) := do
  match ← findStudent h name fuel h.stuList with
  | none => .ok (1, h)
  | some thisStudent => do
    let h ← routeAroundOverall thisStudent fuel h
    let h ← h.freeStudent (some thisStudent)
    .ok (0, h)

def addTa (new : Addr) (name : CString) (h : Heap) : Heap :=
  { h.setTa new (.live ⟨name, none, h.taList⟩) with taList := some new }

def takeStudent (ta : Addr) (toServe : Option Addr) (fuel : Nat) (h : Heap) :
    Except Fault Heap := do
  let t ← h.ta (some ta)
  let h ← match t.currentStudent with
    | none => .ok h
    | some servee => h.freeStudent (some servee)
  let h := h.setTa ta (.live { t with currentStudent := toServe })
  match toServe with
  | none => .ok h
  | some s => routeAroundOverall s fuel h

/-- The loop of `remove_ta` behind the head of the list. -/
def removeTaAfter (name : CString) (h : Heap) : Nat → Addr → Except Fault (Nat × Heap)
  | 0, _ => .error .outOfFuel
  | fuel + 1, head => do
    let n ← h.ta (some head)
    match n.next with
    | none => .ok (1, h)
    | some b => do
      let t ← h.ta (some b)
      if t.name = name then
        let h ← takeStudent b none fuel h
        let n ← h.ta (some head)
        let t ← h.ta n.next
        let h := h.setTa head (.live { n with next := t.next })
        let h ← h.freeTa (some b)
        .ok (0, h)
      else removeTaAfter name h fuel b

def removeTa (name : CString) (fuel : Nat) (h : Heap) : Except Fault (Nat × Heap) := do
  match h.taList with
  | none => .ok (1, h)
  | some head => do
    let n ← h.ta (some head)
    if n.name = name then
      let h := { h with taList := n.next }
      let h ← takeStudent head none fuel h
      let h ← h.freeTa (some head)
      .ok (0, h)
    else removeTaAfter name h fuel head

def nextOverall (name : CString) (fuel : Nat) (h : Heap) : Except Fault (Nat × Heap) := do
  let toServeNext := h.stuList
  match ← findTa h name fuel h.taList with
  | none => .ok (1, h)
  | some ta => do
    let h ← takeStudent ta toServeNext fuel h
    .ok (0, h)

/-- One call of the queue module with its arguments. -/
inductive Call where
  | addStudent (name code : CString)
  | giveUpWaiting (name : CString)
  | addTa (name : CString)
  | removeTa (name : CString)
  | nextOverall (name : CString)
  deriving DecidableEq, Repr

/-- The call on the heap; `new` is what `malloc` answers and `add_ta` has no result. -/
def Call.onHeap (courses : List Course) (new : Addr) (fuel : Nat) (h : Heap) :
    Call → Except Fault (Nat × Heap)
  | .addStudent name code => QueueHeap.addStudent courses new name code fuel h
  | .giveUpWaiting name => QueueHeap.giveUpWaiting name fuel h
  | .addTa name => .ok (0, QueueHeap.addTa new name h)
  | .removeTa name => QueueHeap.removeTa name fuel h
  | .nextOverall name => QueueHeap.nextOverall name fuel h

/-- The call on the abstract lists. -/
def Call.onLists (courses : List Course) (new : Addr) (q : Lists) : Call → Nat × Lists
  | .addStudent name code => HelpQueue.addStudent courses new name code q
  | .giveUpWaiting name => HelpQueue.giveUpWaiting name q
  | .addTa name => (0, HelpQueue.addTa new name q)
  | .removeTa name => HelpQueue.removeTa name q
  | .nextOverall name => HelpQueue.nextOverall name q

end QueueHeap
