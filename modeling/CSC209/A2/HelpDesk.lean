import CSC209.CStrings
import CSC209.HaltingRuns
import CSC209.NodeMemory

/-!
# The help centre of A2

`A2/hcq.c` on two node memories, one of students and one of TAs, and the array
of courses; a `Course *` is an index of that array. The strings and the
`arrival_time` that a node points to are allocated and freed with it, so a node
carries them. Times are integers, the counters are unbounded, and `malloc`
succeeds. The block of a name, which `new_student` makes one byte too short, is
put in front of these calls by `NameBlocks`. The second node that `new_student`
allocates is left out, since its copy is the only one that is ever reachable.

`clock k` is the answer to the `k`-th call of `time(NULL)`. `log` is a ghost:
it records what happened to whom at which reading, and no function reads it.
-/

namespace HelpDesk

open CStrings NodeMemory

structure Student where
  name : CString
  arrivalTime : Int
  course : Nat
  nextOverall : Pointer
  nextCourse : Pointer
  deriving DecidableEq, Repr

structure Ta where
  name : CString
  currentStudent : Pointer
  next : Pointer
  deriving DecidableEq, Repr

structure Course where
  code : CString
  description : CString
  head : Pointer
  tail : Pointer
  helped : Int
  bailed : Int
  waitTime : Int
  helpTime : Int
  deriving DecidableEq, Repr

inductive Event where
  | added (student : Addr) (course : Nat) (time : Int)
  | gaveUp (student : Addr) (time : Int)
  | taken (student : Addr) (time : Int)
  | ended (student : Addr) (time : Int)
  deriving DecidableEq, Repr

structure Desk where
  students : Memory Student
  tas : Memory Ta
  courses : List Course
  stuList : Pointer
  taList : Pointer
  ticks : Nat
  log : List Event
  deriving DecidableEq, Repr

/-- `new_course`, applied to the two strings of each line of the configuration. -/
def newCourse (code description : CString) : Course :=
  ⟨code, description, none, none, 0, 0, 0, 0⟩

/-- The empty help centre with its array of courses. -/
def opened (lines : List (CString × CString)) : Desk :=
  ⟨⟨[]⟩, ⟨[]⟩, lines.map fun l => newCourse l.1 l.2, none, none, 0, []⟩

namespace Desk

variable (d : Desk)

def course (c : Nat) : Except Fault Course :=
  match d.courses[c]? with
  | none => .error .deadPointer
  | some course => .ok course

def setCourse (c : Nat) (f : Course → Course) : Desk :=
  { d with courses := d.courses.modify c f }

def record (e : Event) : Desk := { d with log := d.log ++ [e] }

def tick : Desk := { d with ticks := d.ticks + 1 }

def updateStudent (p : Pointer) (f : Student → Student) : Except Fault Desk := do
  let students ← d.students.update p f
  .ok { d with students := students }

def updateTa (p : Pointer) (f : Ta → Ta) : Except Fault Desk := do
  let tas ← d.tas.update p f
  .ok { d with tas := tas }

end Desk

def findStudent (d : Desk) (name : CString) : Except Fault Pointer :=
  d.students.seek Student.nextOverall (fun _ s => s.name == name) d.students.size d.stuList

def findTa (d : Desk) (name : CString) : Except Fault Pointer :=
  d.tas.seek Ta.next (fun _ t => t.name == name) d.tas.size d.taList

def findCourse (courses : List Course) (code : CString) : Option Nat :=
  courses.findIdx? fun c => c.code == code

variable (clock : Nat → Int)

/-- The new node goes behind the last one of the overall queue. -/
def linkOverall (new : Addr) (d : Desk) : Except Fault Desk := do
  match d.stuList with
  | none => .ok { d with stuList := some new }
  | some first => do
    let last ← d.students.seekBefore Student.nextOverall (fun _ => .ok false) d.students.size
      (some first)
    d.updateStudent last fun s => { s with nextOverall := some new }

def linkCourse (new : Addr) (c : Nat) (d : Desk) : Except Fault Desk := do
  let found ← d.course c
  match found.head with
  | none => .ok (d.setCourse c fun c => { c with head := some new, tail := some new })
  | some _ => do
    let d ← d.updateStudent found.tail fun s => { s with nextCourse := some new }
    .ok (d.setCourse c fun c => { c with tail := some new })

def addStudent (name code : CString) (d : Desk) : Except Fault (Nat × Desk) := do
  match findCourse d.courses code with
  | none => .ok (2, d)
  | some c => do
    let now := clock d.ticks
    let new := d.students.size
    let d := { d.tick with students := d.students.alloc ⟨name, now, c, none, none⟩ }
    match ← findStudent d name with
    | some _ => .ok (1, d)
    | none => do
      let d ← linkOverall new d
      let d ← linkCourse new c d
      .ok (0, d.record (.added new c now))

/-- The search of `give_up_waiting` in a course stops at the student, as the one in the overall
queue does, not at the predecessor. -/
def seekInCourse (found : Addr) (c : Nat) (d : Desk) : Except Fault Pointer := do
  let c ← d.course c
  if some found = c.head then .ok c.head
  else d.students.seek Student.nextCourse (fun a _ => a == found) d.students.size c.head

/-- Both branches of the last `if` of `give_up_waiting` store through these two pointers. -/
def copyLinks (found : Addr) (overall inCourse : Pointer) (d : Desk) : Except Fault Desk := do
  let s ← d.students.read (some found)
  let d ← d.updateStudent overall fun t => { t with nextOverall := s.nextOverall }
  let s ← d.students.read (some found)
  d.updateStudent inCourse fun t => { t with nextCourse := s.nextCourse }

def giveUpWaiting (name : CString) (d : Desk) : Except Fault (Nat × Desk) := do
  match ← findStudent d name with
  | none => .ok (1, d)
  | some found => do
    let s ← d.students.read (some found)
    let now := clock d.ticks
    let d := d.tick.setCourse s.course fun c =>
      { c with waitTime := c.waitTime + (now - s.arrivalTime), bailed := c.bailed + 1 }
    let overall ← d.students.seek Student.nextOverall (fun a _ => a == found)
      d.students.size d.stuList
    let inCourse ← seekInCourse found s.course d
    let d ← copyLinks found overall inCourse d
    .ok (0, d.record (.gaveUp found now))

def addTa (name : CString) (d : Desk) : Desk :=
  { d with tas := d.tas.alloc ⟨name, none, d.taList⟩, taList := some d.tas.size }

/-- The pointer of the TA is left as it is: resetting it is up to the caller. -/
def releaseCurrentStudent (ta : Pointer) (d : Desk) : Except Fault Desk := do
  let t ← d.tas.read ta
  match t.currentStudent with
  | none => .ok d
  | some a => do
    let s ← d.students.read (some a)
    let now := clock d.ticks
    let d := d.tick.setCourse s.course fun c =>
      { c with helpTime := c.helpTime + (now - s.arrivalTime), helped := c.helped + 1 }
    let students ← d.students.free (some a)
    .ok ({ d with students := students }.record (.ended a now))

def removeTa (name : CString) (d : Desk) : Except Fault (Nat × Desk) := do
  match d.taList with
  | none => .ok (1, d)
  | some head => do
    let t ← d.tas.read (some head)
    if t.name = name then
      let d ← releaseCurrentStudent clock (some head) { d with taList := t.next }
      let tas ← d.tas.free (some head)
      .ok (0, { d with tas := tas })
    else
      -- `while (head->next != NULL)`: the loop leaves with the TA before the one of the name
      let last ← d.tas.seekBefore Ta.next
        (fun b => do let u ← d.tas.read (some b); .ok (u.name == name)) d.tas.size (some head)
      let t ← d.tas.read last
      match t.next with
      | none => .ok (1, d)
      | some found => do
        let d ← releaseCurrentStudent clock (some found) d
        let u ← d.tas.read (some found)
        let d ← d.updateTa last fun t => { t with next := u.next }
        let tas ← d.tas.free (some found)
        .ok (0, { d with tas := tas })

/-- `course->wait_time += difftime(now, *arrival_time); *arrival_time = now;` -/
def chargeWait (a : Addr) (d : Desk) : Except Fault Desk := do
  let now := clock d.ticks
  let s ← d.students.read (some a)
  let d :=
    d.tick.setCourse s.course fun c => { c with waitTime := c.waitTime + (now - s.arrivalTime) }
  let d ← d.updateStudent (some a) fun s => { s with arrivalTime := now }
  .ok (d.record (.taken a now))

/-- The first student of the course leaves its queue. -/
def dropHead (c : Nat) (d : Desk) : Except Fault Desk := do
  let course ← d.course c
  if course.head = course.tail then
    .ok (d.setCourse c fun c => { c with head := none, tail := none })
  else do
    let s ← d.students.read course.head
    .ok (d.setCourse c fun c => { c with head := s.nextCourse })

def takeNextOverall (taName : CString) (d : Desk) : Except Fault (Nat × Desk) := do
  match ← findTa d taName with
  | none => .ok (1, d)
  | some ta => do
    let d ← releaseCurrentStudent clock (some ta) d
    match d.stuList with
    | none => do
      let d ← d.updateTa (some ta) fun t => { t with currentStudent := none }
      .ok (0, d)
    | some a => do
      let d ← d.updateTa (some ta) fun t => { t with currentStudent := some a }
      let d ← chargeWait clock a d
      let s ← d.students.read (some a)
      let d ← dropHead s.course { d with stuList := s.nextOverall }
      .ok (0, d)

/-- The overall queue is routed around the student. -/
def routeAround (a : Addr) (d : Desk) : Except Fault Desk := do
  if some a = d.stuList then
    let s ← d.students.read (some a)
    .ok { d with stuList := s.nextOverall }
  else
    let previous ← d.students.seekBefore Student.nextOverall (fun b => .ok (b == a))
      d.students.size d.stuList
    let s ← d.students.read (some a)
    d.updateStudent previous fun t => { t with nextOverall := s.nextOverall }

def takeNextCourse (taName code : CString) (d : Desk) : Except Fault (Nat × Desk) := do
  match ← findTa d taName with
  | none => .ok (1, d)
  | some ta => do
    let d ← releaseCurrentStudent clock (some ta) d
    match findCourse d.courses code with
    | none => do
      let d ← d.updateTa (some ta) fun t => { t with currentStudent := none }
      .ok (2, d)
    | some c => do
      let course ← d.course c
      match course.head with
      | none => .ok (0, d)
      | some a => do
        let d ← d.updateTa (some ta) fun t => { t with currentStudent := some a }
        let d ← dropHead c d
        let d ← routeAround a d
        let d ← chargeWait clock a d
        .ok (0, d)

/-- The six numbers that `stats_by_course` prints. -/
structure Stats where
  waiting : Nat
  beingHelped : Nat
  helped : Int
  bailed : Int
  waitTime : Int
  helpTime : Int
  deriving DecidableEq, Repr

/-- 1 if the TA is serving a student of the course. -/
def helpsIn (d : Desk) (found : Nat) (a : Addr) : Except Fault Nat := do
  let t ← d.tas.read (some a)
  match t.currentStudent with
  | none => .ok 0
  | some b => do
    let s ← d.students.read (some b)
    .ok (if s.course = found then 1 else 0)

/-- The second loop of `stats_by_course` on the TAs it visits. -/
def countHelped (d : Desk) (found : Nat) : List Addr → Except Fault Nat
  | [] => .ok 0
  | a :: rest => do
    let here ← helpsIn d found a
    let later ← countHelped d found rest
    .ok (here + later)

/-- An unknown code leaves `found` NULL, and `found->head` is then a fault. -/
def statsByCourse (code : CString) (d : Desk) : Except Fault Stats := do
  match findCourse d.courses code with
  | none => .error .nullPointer
  | some found => do
    let course ← d.course found
    let waiting ← d.students.visit Student.nextCourse d.students.size course.head
    let tas ← d.tas.visit Ta.next d.tas.size d.taList
    let helped ← countHelped d found tas
    .ok ⟨waiting.length, helped, course.helped, course.bailed, course.waitTime, course.helpTime⟩

/-- One call of the interface with its arguments. -/
inductive Call where
  | addStudent (name code : CString)
  | giveUpWaiting (name : CString)
  | addTa (name : CString)
  | removeTa (name : CString)
  | takeNextOverall (taName : CString)
  | takeNextCourse (taName code : CString)
  deriving DecidableEq, Repr

/-- The TA whose current student the call finishes with. -/
def taOf : Call → Option CString
  | .removeTa name => some name
  | .takeNextOverall taName => some taName
  | .takeNextCourse taName _ => some taName
  | _ => none

/-- The call with the code it returns; `add_ta` returns nothing. -/
def call (d : Desk) : Call → Except Fault (Nat × Desk)
  | .addStudent name code => addStudent clock name code d
  | .giveUpWaiting name => giveUpWaiting clock name d
  | .addTa name => .ok (0, addTa name d)
  | .removeTa name => removeTa clock name d
  | .takeNextOverall taName => takeNextOverall clock taName d
  | .takeNextCourse taName code => takeNextCourse clock taName code d

def step (d : Desk) (c : Call) : Except Fault Desk := do
  let (_, d) ← call clock d c
  .ok d

end HelpDesk
