import CSC209.A2.HelpDesk

/-!
# The commands of the help centre

`process_args` of `A2/helpcentre.c` on the words of a line. The printing
commands are given by what they read; the formats of their lines and the
texts of `help` are left out, and an arrival time is not turned into a date.
-/

namespace CommandLine

open CStrings NodeMemory HelpDesk

/-- A line of `print_full_queue`: the name behind it in the overall queue, and in the course's. -/
structure QueueRow where
  name : CString
  code : CString
  arrivalTime : Int
  nextOverall : Option CString
  nextCourse : Option CString
  deriving DecidableEq, Repr

inductive Output where
  | nothing
  | help
  | fullQueue (rows : List QueueRow)
  | currentlyServing (rows : List (CString × Option (CString × CString)))
  | allQueues (rows : List (CString × List CString))
  | stats (numbers : Stats)
  deriving DecidableEq, Repr

/-- `status` is what `process_args` returns, `result` what the function of the command has
returned, and `error` the message on stderr. -/
structure Reply where
  status : Int
  result : Option Nat
  error : Option CString
  output : Output
  deriving DecidableEq, Repr

def nameAt (d : Desk) : Pointer → Except Fault (Option CString)
  | none => .ok none
  | some a => do
    let s ← d.students.read (some a)
    .ok (some s.name)

/-- The next one in the course is only looked at if there is a next one overall. -/
def queueRow (d : Desk) (a : Addr) : Except Fault QueueRow := do
  let s ← d.students.read (some a)
  let c ← d.course s.course
  let nextOverall ← nameAt d s.nextOverall
  let nextCourse ← nameAt d (if s.nextOverall.isSome then s.nextCourse else none)
  .ok ⟨s.name, c.code, s.arrivalTime, nextOverall, nextCourse⟩

def printFullQueue (d : Desk) : Except Fault (List QueueRow) := do
  let l ← d.students.visit Student.nextOverall d.students.size d.stuList
  l.mapM (queueRow d)

def servingRow (d : Desk) (a : Addr) : Except Fault (CString × Option (CString × CString)) := do
  let t ← d.tas.read (some a)
  match t.currentStudent with
  | none => .ok (t.name, none)
  | some b => do
    let s ← d.students.read (some b)
    let c ← d.course s.course
    .ok (t.name, some (s.name, c.code))

def printCurrentlyServing (d : Desk) :
    Except Fault (List (CString × Option (CString × CString))) := do
  let l ← d.tas.visit Ta.next d.tas.size d.taList
  l.mapM (servingRow d)

def courseRow (d : Desk) (c : Course) : Except Fault (CString × List CString) := do
  let l ← d.students.visit Student.nextCourse d.students.size c.head
  let names ← l.mapM fun a => do
    let s ← d.students.read (some a)
    .ok s.name
  .ok (c.code, names)

def printAllQueues (d : Desk) : Except Fault (List (CString × List CString)) :=
  d.courses.mapM (courseRow d)

/-- The reply to a command that prints nothing. -/
def reply (result : Option Nat) (error : Option CString) : Reply := ⟨0, result, error, .nothing⟩

def shown (output : Output) : Reply := ⟨0, none, none, output⟩

def incorrectSyntax : Reply := reply none (some (text "Incorrect syntax."))

def invalidTa (result : Nat) : Option CString :=
  if result = 1 then some (text "Invalid TA name.") else none

def processArgs (clock : Nat → Int) (argv : List CString) (d : Desk) :
    Except Fault (Reply × Desk) :=
  match argv with
  | [] => .ok (reply none none, d)
  | [cmd] =>
    if cmd = text "quit" then .ok ({ reply none none with status := -1 }, d)
    else if cmd = text "help" then .ok (shown .help, d)
    else if cmd = text "sleep" then .ok (reply none none, d)
    else if cmd = text "print_full_queue" then do
      let rows ← printFullQueue d
      .ok (shown (.fullQueue rows), d)
    else if cmd = text "print_currently_serving" then do
      let rows ← printCurrentlyServing d
      .ok (shown (.currentlyServing rows), d)
    else if cmd = text "print_all_queues" then do
      let rows ← printAllQueues d
      .ok (shown (.allQueues rows), d)
    else .ok (incorrectSyntax, d)
  | [cmd, name] =>
    if cmd = text "stats_by_course" then do
      -- the function returns 0 or faults, so that its error text is never printed
      let numbers ← statsByCourse name d
      .ok (⟨0, some 0, none, .stats numbers⟩, d)
    else if cmd = text "give_up" then do
      let (result, d) ← giveUpWaiting clock name d
      .ok (reply (some result)
        (if result = 1 then some (text "There was no student by that name waiting in the queue.")
            else none), d)
    else if cmd = text "add_ta" then .ok (reply none none, addTa name d)
    else if cmd = text "remove_ta" then do
      let (result, d) ← removeTa clock name d
      .ok (reply (some result) (invalidTa result), d)
    else if cmd = text "next" then do
      let (result, d) ← takeNextOverall clock name d
      .ok (reply (some result) (invalidTa result), d)
    else .ok (incorrectSyntax, d)
  | [cmd, name, code] =>
    if cmd = text "add_student" then do
      let (result, d) ← addStudent clock name code d
      .ok (reply (some result)
        (if result = 1 then some (text "This student is already in the queue.")
          else if result = 2 then some (text "Invalid Course -- student not added.") else none), d)
    else if cmd = text "next" then do
      let (result, d) ← takeNextCourse clock name code d
      .ok (reply (some result)
        (if result = 1 then some (text "Invalid TA name.")
          else if result = 2 then some (text "Invalid course code.") else none), d)
    else .ok (incorrectSyntax, d)
  | _ => .ok (incorrectSyntax, d)

section Commands

variable {clock : Nat → Int} {d : Desk}

theorem processArgs_stats (code : CString) : processArgs clock [text "stats_by_course", code] d =
    (statsByCourse code d).map fun numbers => (⟨0, some 0, none, .stats numbers⟩, d) := by
  rw [processArgs, if_pos rfl]
  cases statsByCourse code d <;> rfl

theorem processArgs_giveUp (name : CString) : processArgs clock [text "give_up", name] d =
    (giveUpWaiting clock name d).map fun r => (reply (some r.1)
      (if r.1 = 1 then some (text "There was no student by that name waiting in the queue.") else
          none), r.2) := by
  rw [processArgs, if_neg (by decide), if_pos rfl]
  cases giveUpWaiting clock name d <;> rfl

theorem processArgs_removeTa (name : CString) : processArgs clock [text "remove_ta", name] d =
    (removeTa clock name d).map fun r => (reply (some r.1) (invalidTa r.1), r.2) := by
  rw [processArgs, if_neg (by decide), if_neg (by decide), if_neg (by decide), if_pos rfl]
  cases removeTa clock name d <;> rfl

theorem processArgs_next (taName : CString) : processArgs clock [text "next", taName] d =
    (takeNextOverall clock taName d).map fun r => (reply (some r.1) (invalidTa r.1), r.2) := by
  rw [processArgs, if_neg (by decide), if_neg (by decide), if_neg (by decide),
    if_neg (by decide), if_pos rfl]
  cases takeNextOverall clock taName d <;> rfl

theorem processArgs_addStudent (name code : CString) :
    processArgs clock [text "add_student", name, code] d =
    (addStudent clock name code d).map fun r => (reply (some r.1)
      (if r.1 = 1 then some (text "This student is already in the queue.")
        else if r.1 = 2 then some (text "Invalid Course -- student not added.") else
          none), r.2) := by
  rw [processArgs, if_pos rfl]
  cases addStudent clock name code d <;> rfl

theorem processArgs_nextCourse (taName code : CString) :
    processArgs clock [text "next", taName, code] d =
    (takeNextCourse clock taName code d).map fun r => (reply (some r.1)
      (if r.1 = 1 then some (text "Invalid TA name.")
        else if r.1 = 2 then some (text "Invalid course code.") else none), r.2) := by
  rw [processArgs, if_neg (by decide), if_pos rfl]
  cases takeNextCourse clock taName code d <;> rfl

end Commands

end CommandLine
