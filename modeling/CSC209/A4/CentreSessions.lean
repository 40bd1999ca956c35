import CSC209.A4.HelpCentre
import CSC209.A4.QueueRefinement
import CSC209.A4.StatusReplies
import CSC209.CommandLoop
import Mathlib.Data.Set.Card
import Mathlib.Order.Lattice.Nat

/-!
# Whole sessions at the A4 help centre

`main` of `A4/helpcentre.c` on the heap, from the bytes of its input to the
nodes that are left. `malloc` is any function that answers with an address at
which no node is live, so that the address of a freed node may come back. The
entries of a queue are compared without their addresses. The print commands
walk through the nodes for the lines of a string, build it in a block and then
drop it; the block that there is for a request may be any in each state. The
prompts are left out, and so is the echo of the batch mode, which the test of
`argc` never lets in.
-/

namespace CentreSessions

open CStrings StreamIO LinkedChain HelpQueue QueueHeap QueueReading QueueRefinement
  HelpCentre CommandLoop

def INPUT_BUFFER_SIZE : Nat := 256
def INPUT_ARG_MAX_NUM : Nat := 3
def DELIM : CString := text " \n"

def isDelim (b : Byte) : Bool := b ∈ DELIM

/-- What a command shows: the message of `error`, and the lines of the string that a print command
builds. -/
structure Reply where
  error : Option CString
  built : List CString
  deriving DecidableEq, Repr

/-- The heap, and how many commands have been processed: no list is longer. -/
structure Centre where
  heap : Heap
  commands : Nat

def Centre.opened : Centre := ⟨⟨fun _ => .unused, fun _ => .unused, none, none⟩, 0⟩

/-- A pointer that must not be followed, or a string that does not go into its block. -/
inductive Fault where
  | heap (f : QueueHeap.Fault)
  | overrun
  deriving DecidableEq, Repr

section Commands

/-- The loop of `print_full_queue` over the nodes. -/
def studentLines (h : Heap) : Nat → Option Addr → Except QueueHeap.Fault (List CString)
  | 0, _ => .error .outOfFuel
  | _ + 1, none => .ok []
  | fuel + 1, some a => do
    let s ← h.student (some a)
    match s.course with
    | none => .error .nullPointer
    | some course => do
      let later ← studentLines h fuel s.nextOverall
      .ok (StatusReplies.studentString ⟨a, s.name, course⟩ :: later)

/-- The loop of `print_currently_serving` over the nodes. -/
def taLines (h : Heap) : Nat → Option Addr → Except QueueHeap.Fault (List CString)
  | 0, _ => .error .outOfFuel
  | _ + 1, none => .ok []
  | fuel + 1, some a => do
    let t ← h.ta (some a)
    let servee ← match t.currentStudent with
      | none => .ok none
      | some s => (h.student (some s)).map fun n => some (entry s n)
    let later ← taLines h fuel t.next
    .ok (StatusReplies.taString ⟨a, t.name, servee⟩ :: later)

variable (malloc : Centre → Addr) (block : Centre → Nat → List Byte) (c : Centre)

/-- The lines behind the header. -/
def Centre.fullQueue : Except QueueHeap.Fault (List CString) :=
  studentLines c.heap (c.commands + 1) c.heap.stuList

def Centre.currentlyServing : Except QueueHeap.Fault (List CString) :=
  if c.heap.taList = none then .ok [StatusReplies.noTaMsg]
    else taLines c.heap (c.commands + 1) c.heap.taList

/-- The command has been processed, and has left the heap `h`. -/
def Centre.next (h : Heap) : Centre := ⟨h, c.commands + 1⟩

/-- A call of the queue module; `message` is what is said about its result. -/
def Centre.call (message : Nat → Option CString) (a : Call) : Except Fault (Reply × Centre) :=
  match a.onHeap courses (malloc c) (c.commands + 1) c.heap with
  | .error f => .error (.heap f)
  | .ok (result, h) => .ok (⟨message result, []⟩, c.next h)

/-- The lines are read from the nodes and built behind the header in a block. -/
def Centre.print (start : Int) (header : List CString)
    (lines : Except QueueHeap.Fault (List CString)) :
    Except Fault (Reply × Centre) :=
  match lines with
  | .error f => .error (.heap f)
  | .ok lines =>
    match StatusReplies.build (block c) start header lines with
    | .error _ => .error .overrun
    | .ok _ => .ok (⟨none, header ++ lines⟩, c.next c.heap)

def Centre.printFullQueue : Except Fault (Reply × Centre) :=
  c.print block StatusReplies.FULL_QUEUE_LENGTH [text "Full Queue\r\n"] c.fullQueue

def Centre.printCurrentlyServing : Except Fault (Reply × Centre) :=
  c.print block 0 [] c.currentlyServing

def Centre.refuse : Except Fault (Reply × Centre) :=
  .ok (⟨some (text "Incorrect syntax."), []⟩, c.next c.heap)

def notAdded (result : Nat) : Option CString :=
  if result = 1 then some (text "This student is already in the queue.")
  else if result = 2 then some (text "Invalid Course -- student not added.") else none

def notWaiting (result : Nat) : Option CString :=
  if result = 1 then some (text "There was no student by that name waiting in the queue.") else none

def invalidTa (result : Nat) : Option CString :=
  if result = 1 then some (text "Invalid TA name.") else none

def processArgs (argv : List CString) : Except Fault (Reply × Centre) :=
  match argv with
  | [] => .ok (⟨none, []⟩, c)
  | [cmd, name, code] =>
    if cmd = text "add_student" then c.call malloc notAdded (.addStudent name code) else c.refuse
  | [cmd] =>
    if cmd = text "print_full_queue" then c.printFullQueue block
    else if cmd = text "print_currently_serving" then c.printCurrentlyServing block
    else c.refuse
  | [cmd, name] =>
    if cmd = text "give_up" then c.call malloc notWaiting (.giveUpWaiting name)
    else if cmd = text "add_ta" then c.call malloc (fun _ => none) (.addTa name)
    else if cmd = text "remove_ta" then c.call malloc invalidTa (.removeTa name)
    else if cmd = text "next" then c.call malloc invalidTa (.nextOverall name)
    else c.refuse
  | _ => c.refuse

/-- No command ends the loop: `process_args` always returns 0. -/
def helpcentre : Interpreter Centre Fault Reply where
  process := fun argv c => processArgs malloc block c argv
  quits := fun _ => false

def main (stdin : List Byte) : Except Fault (List (Shown Reply) × Centre) :=
  (helpcentre malloc block).main isDelim INPUT_ARG_MAX_NUM INPUT_BUFFER_SIZE stdin Centre.opened

/-- The lines that are read do not go into the block for them. -/
def Overruns (start : Int) (header : List CString) : Except QueueHeap.Fault (List CString) → Prop
  | .error _ => False
  | .ok lines => ¬ StatusReplies.HasRoom (block c) start header lines

instance (start : Int) (header : List CString) :
    (lines : Except QueueHeap.Fault (List CString)) → Decidable
    (Overruns block c start header lines)
  | .error _ => inferInstanceAs (Decidable False)
  | .ok _ => inferInstanceAs (Decidable (¬ _))

/-- The command prints, and its lines do not go into the block for them. -/
def Spills : List CString → Prop
  | [cmd] =>
    cmd = text "print_full_queue" ∧
        Overruns block c StatusReplies.FULL_QUEUE_LENGTH [text "Full Queue\r\n"] c.fullQueue ∨
      cmd = text "print_currently_serving" ∧ Overruns block c 0 [] c.currentlyServing
  | _ => False

instance : (argv : List CString) → Decidable (Spills block c argv)
  | [_] => inferInstanceAs (Decidable (_ ∨ _))
  | [] | _ :: _ :: _ => inferInstanceAs (Decidable False)

end Commands

section Record

/-- What a print command prints of the lists. -/
def builtFrom (q : Lists) (argv : List CString) : List CString :=
  if argv = [text "print_full_queue"] then (StatusReplies.Reply.fullQueue q.stuList).lines
  else if argv = [text "print_currently_serving"] then
    (StatusReplies.Reply.currentlyServing q.taList).lines
  else []

/-- The same commands on the record of an observer, with nothing that can go wrong. -/
def observed : Interpreter History Fault Reply where
  process := fun argv h =>
    .ok (⟨(HelpCentre.processArgs h.queue argv).2, builtFrom h.queue.toLists argv⟩, h.command argv)
  quits := fun _ => false

def recordedMain (stdin : List Byte) : Except Fault (List (Shown Reply) × History) :=
  observed.main isDelim INPUT_ARG_MAX_NUM INPUT_BUFFER_SIZE stdin History.start

/-- Name and course of those who have neither been taken nor given up, in the order in which they
came. -/
def stillWaiting (past : History) : List (CString × CString) :=
  ((List.range past.calls.length).filter fun i => i ∉ past.taken ∧
      i ∉ past.gaveUp).filterMap (past.calls[·]?)

end Record

section Anonymous

variable {q r : Lists} {name code : CString}

def anonymousStudent (s : Student) : Student := { s with id := 0 }

def anonymousTa (t : Ta) : Ta :=
  { t with id := 0, currentStudent := t.currentStudent.map anonymousStudent }

/-- The lists without the addresses. -/
def anonymous (q : Lists) : Lists := ⟨q.stuList.map anonymousStudent, q.taList.map anonymousTa⟩

theorem findStudent_anonymous (l : List Student) (name : CString) :
    findStudent (l.map anonymousStudent) name = (findStudent l name).map anonymousStudent :=
  List.find?_map

theorem findTa_anonymous (l : List Ta) (name : CString) :
    findTa (l.map anonymousTa) name = (findTa l name).map anonymousTa :=
  List.find?_map

theorem takeStudent_anonymous (name : CString) (toServe : Option Student) (l : List Ta) :
    (HelpQueue.takeStudent name toServe l).map anonymousTa =
      HelpQueue.takeStudent name (toServe.map anonymousStudent) (l.map anonymousTa) := by
  induction l with
  | nil => rfl
  | cons t l ih =>
    by_cases named : t.name = name
    · simp [HelpQueue.takeStudent, named, anonymousTa]
    · simpa [HelpQueue.takeStudent, named, anonymousTa] using ih

/-- A call does not see the addresses. -/
theorem onLists_anonymous (courses : List Course) (new : Addr) (q : Lists) (a : Call) :
    (a.onLists courses new q).1 = (a.onLists courses 0 (anonymous q)).1 ∧
      anonymous (a.onLists courses new q).2 = (a.onLists courses 0 (anonymous q)).2 := by
  cases a with
  | addStudent name code =>
    simp only [Call.onLists, HelpQueue.addStudent, anonymous, findStudent_anonymous]
    cases findStudent q.stuList name with
    | some s => exact ⟨rfl, rfl⟩
    | none =>
      cases findCourse courses code with
      | none => exact ⟨rfl, rfl⟩
      | some course => simp [anonymousStudent]
  | giveUpWaiting name =>
    simp only [Call.onLists, HelpQueue.giveUpWaiting, anonymous, findStudent_anonymous]
    cases findStudent q.stuList name with
    | none => exact ⟨rfl, rfl⟩
    | some s =>
      refine ⟨rfl, ?_⟩
      simp only [Option.map_some, List.eraseP_map]
      rfl
  | addTa name => exact ⟨rfl, rfl⟩
  | removeTa name =>
    simp only [Call.onLists, HelpQueue.removeTa, anonymous, findTa_anonymous]
    cases findTa q.taList name with
    | none => exact ⟨rfl, rfl⟩
    | some t =>
      refine ⟨rfl, ?_⟩
      simp only [Option.map_some, List.eraseP_map]
      rfl
  | nextOverall name =>
    simp only [Call.onLists, HelpQueue.nextOverall, anonymous, findTa_anonymous]
    cases findTa q.taList name with
    | none => exact ⟨rfl, rfl⟩
    | some t => simp [takeStudent_anonymous, List.head?_map, List.map_tail]

theorem onLists_congr (same : anonymous q = anonymous r) (courses : List Course) (new old : Addr)
    (a : Call) :
    (a.onLists courses new q).1 = (a.onLists courses old r).1 ∧
      anonymous (a.onLists courses new q).2 = anonymous (a.onLists courses old r).2 := by
  obtain ⟨result, lists⟩ := onLists_anonymous courses new q a
  obtain ⟨result', lists'⟩ := onLists_anonymous courses old r a
  rw [result, lists, same]
  exact ⟨result'.symm, lists'.symm⟩

/-- A call makes the lists longer by one entry at most. -/
theorem onLists_length (courses : List Course) (new : Addr) (q : Lists) (a : Call) :
    (a.onLists courses new q).2.stuList.length + (a.onLists courses new q).2.taList.length ≤
      q.stuList.length + q.taList.length + 1 := by
  cases a with
  | addStudent name code =>
    rcases addStudent_cases courses new name code q with ⟨_, eq⟩ | ⟨_, _, eq⟩ | ⟨c, _, _, eq⟩
    all_goals
      rw [Call.onLists, eq]
      simp
      try omega
  | giveUpWaiting name =>
    rcases giveUpWaiting_cases name q with ⟨_, eq⟩ | ⟨before, s, after, split, _, _, eq⟩
    · rw [Call.onLists, eq]
      simp
    · rw [Call.onLists, eq, split]
      simp
      omega
  | addTa name => exact Nat.le_refl _
  | removeTa name =>
    rcases removeTa_cases name q with ⟨_, eq⟩ | ⟨before, t, after, split, _, _, eq⟩
    · rw [Call.onLists, eq]
      simp
    · rw [Call.onLists, eq, split]
      simp
      omega
  | nextOverall name =>
    rcases nextOverall_cases name q with ⟨_, eq⟩ | ⟨before, t, after, split, _, _, eq⟩
    · rw [Call.onLists, eq]
      simp
    · rw [Call.onLists, eq, split]
      simp
      omega

/-- The courses of the students who wait are courses that there are. -/
theorem onLists_known (known : ∀ s ∈ q.stuList, s.course ∈ courses) (new : Addr) (a : Call) :
    ∀ s ∈ (a.onLists courses new q).2.stuList, s.course ∈ courses := by
  have sublist : ∀ l : List Student, l.Sublist q.stuList → ∀ s ∈ l, s.course ∈ courses :=
    fun l sub s mem =>
    known s (sub.subset mem)
  cases a with
  | addStudent name code =>
    rcases addStudent_cases courses new name code q with ⟨_, eq⟩ | ⟨_, _, eq⟩ | ⟨c, _, found, eq⟩
    · simpa [Call.onLists, eq] using known
    · simpa [Call.onLists, eq] using known
    · have there : c ∈ courses := List.mem_of_find?_eq_some found
      simp only [Call.onLists, eq, List.mem_append, List.mem_singleton]
      rintro s (waiting | rfl)
      · exact known s waiting
      · exact there
  | giveUpWaiting name => exact sublist _ (Queue.giveUpWaiting_sublist name q).1
  | addTa name => exact known
  | removeTa name =>
    have same : (HelpQueue.removeTa name q).2.stuList = q.stuList :=
      (Queue.removeTa_sublist name q).1
    rw [Call.onLists, same]
    exact known
  | nextOverall name =>
    rcases nextOverall_cases name q with ⟨_, eq⟩ | ⟨_, _, _, _, _, _, eq⟩
    · simpa [Call.onLists, eq] using known
    · rw [Call.onLists, eq]
      exact sublist _ (List.tail_sublist _)

end Anonymous

section Reading

variable {h : Heap} {p : Option Addr} {fuel : Nat}

/-- A waiting student's node: without a course it would read as a course without a code. -/
theorem node_of_known {s : Student} (node : absStudent h s.id = some s)
    (here : s.course ∈ courses) :
    ∃ n, h.students s.id = .live n ∧ n.name = s.name ∧ n.course = some s.course := by
  obtain ⟨n, live, same⟩ := absStudent_some node
  refine ⟨n, live, congrArg Student.name same, ?_⟩
  have held : n.course.getD ⟨[]⟩ = s.course := congrArg Student.course same
  cases coded : n.course with
  | some c =>
    rw [coded] at held
    exact congrArg some held
  | none =>
    rw [coded, Option.getD_none] at held
    rw [← held] at here
    exact absurd here (by decide)

theorem studentLines_chain {l : List Student} (chain : Chain (stuLink h) p (l.map Student.id))
    (nodes : ∀ s ∈ l, absStudent h s.id = some s) (known : ∀ s ∈ l, s.course ∈ courses)
    (enough : l.length < fuel) :
    studentLines h fuel p = .ok (l.map StatusReplies.studentString) := by
  induction l generalizing p fuel with
  | nil =>
    obtain ⟨fuel, rfl⟩ := exists_fuel enough
    obtain rfl : p = none := chain
    rfl
  | cons s rest ih =>
    obtain ⟨fuel, rfl⟩ := exists_fuel enough
    obtain ⟨rfl, next, link, chain⟩ := chain
    obtain ⟨node, nodes⟩ := List.forall_mem_cons.mp nodes
    obtain ⟨here, known⟩ := List.forall_mem_cons.mp known
    obtain ⟨n, live, named, course⟩ := node_of_known node here
    have behind : n.nextOverall = next := Option.some.inj ((stuLink_live live).symm.trans link)
    have later := ih chain nodes known (Nat.lt_of_succ_lt_succ enough)
    simp only [studentLines, student_ok live, bind, Except.bind, course, behind, later, named]
    rfl

theorem taLines_chain {l : List Ta} (chain : Chain (taLink h) p (l.map Ta.id))
    (nodes : ∀ t ∈ l, ∃ next, h.tas t.id = .live ⟨t.name, t.currentStudent.map Student.id, next⟩)
    (held : ∀ s ∈ serving l, absStudent h s.id = some s) (enough : l.length < fuel) :
    taLines h fuel p = .ok (l.map StatusReplies.taString) := by
  induction l generalizing p fuel with
  | nil =>
    obtain ⟨fuel, rfl⟩ := exists_fuel enough
    obtain rfl : p = none := chain
    rfl
  | cons t rest ih =>
    obtain ⟨fuel, rfl⟩ := exists_fuel enough
    obtain ⟨rfl, next, link, chain⟩ := chain
    obtain ⟨⟨next', live⟩, nodes⟩ := List.forall_mem_cons.mp nodes
    obtain rfl : next' = next := Option.some.inj ((taLink_live live).symm.trans link)
    have rest_held : ∀ s ∈ serving rest, absStudent h s.id = some s := fun s mem =>
      held s ((List.sublist_cons_self t rest).filterMap _ |>.subset mem)
    have later := ih chain nodes rest_held (Nat.lt_of_succ_lt_succ enough)
    cases current : t.currentStudent with
    | none =>
      rw [current] at live
      simp [taLines, ta_ok live, bind, Except.bind, later, StatusReplies.taString, current]
    | some s =>
      rw [current] at live
      have served : s ∈ serving (t :: rest) :=
        List.mem_filterMap.mpr ⟨t, List.mem_cons_self, current⟩
      obtain ⟨n, node, same⟩ := absStudent_some (held s served)
      have read : h.student (some s.id) = .ok n := student_ok node
      simp [taLines, ta_ok live, bind, Except.bind, read, Except.map, same, later,
        StatusReplies.taString, current]

theorem studentLines_anonymous (l : List Student) :
    (l.map anonymousStudent).map StatusReplies.studentString =
      l.map StatusReplies.studentString := by
  rw [List.map_map]
  rfl

theorem taLines_anonymous (l : List Ta) :
    (l.map anonymousTa).map StatusReplies.taString = l.map StatusReplies.taString := by
  rw [List.map_map]
  refine List.map_congr_left fun t _ => ?_
  cases current : t.currentStudent with
  | none => simp [StatusReplies.taString, anonymousTa, current]
  | some s => simp [StatusReplies.taString, anonymousTa, anonymousStudent, current]

end Reading

section Steps

/-- The centre holds the queue of the record at some addresses, and no other node is live. -/
structure Mirrors (c : Centre) (past : History) (q : Lists) : Prop where
  represents : Represents c.heap q
  same : anonymous q = anonymous past.queue.toLists
  students : ∀ a, StudentLive c.heap a ↔ a ∈ (q.stuList ++ serving q.taList).map Student.id
  tas : ∀ a, TaLive c.heap a ↔ a ∈ q.taList.map Ta.id
  short : q.stuList.length + q.taList.length ≤ c.commands
  known : ∀ s ∈ q.stuList, s.course ∈ courses

/-- No node is live at the address. -/
def Free (c : Centre) (a : Addr) : Prop := ¬ StudentLive c.heap a ∧ ¬ TaLive c.heap a

instance (c : Centre) (a : Addr) : Decidable (Free c a) := inferInstanceAs (Decidable (_ ∧ _))

/-- `malloc` answers with a free address, if there is one. -/
def Fresh (malloc : Centre → Addr) : Prop := ∀ c, (∃ a, Free c a) → Free c (malloc c)

variable {malloc : Centre → Addr} {block : Centre → Nat → List Byte} {c : Centre}
  {past : History} {q : Lists} {argv : List CString}

theorem opened_mirrors : Mirrors Centre.opened History.start ⟨[], []⟩ where
  represents := {
    stuChain := rfl
    taChain := rfl
    students := by simp [serving]
    tas := by simp
    valid := Queue.empty.valid }
  same := rfl
  students := by simp [StudentLive, Centre.opened, serving]
  tas := by simp [TaLive, Centre.opened]
  short := Nat.le_refl _
  known := by simp

/-- There is room for one node more. -/
theorem Mirrors.exists_free (m : Mirrors c past q) : ∃ a, Free c a := by
  let used := (q.stuList ++ serving q.taList).map Student.id ++ q.taList.map Ta.id
  obtain ⟨a, unused⟩ := Infinite.exists_notMem_finset used.toFinset
  simp only [used, List.mem_toFinset, List.mem_append, not_or] at unused
  exact ⟨a, fun live => unused.1 ((m.students a).mp live), fun live => unused.2 ((m.tas a).mp live)⟩

/-- A command that leaves the lists alone. -/
theorem Mirrors.idle (m : Mirrors c past q) (argv : List CString) :
    Mirrors (c.next c.heap) (past.observe argv past.queue) q where
  represents := m.represents
  same := m.same
  students := m.students
  tas := m.tas
  short := Nat.le_succ_of_le m.short
  known := m.known

/-- A call does on the heap what it does on the queue of the record. -/
theorem Mirrors.called (m : Mirrors c past q) (fresh : Fresh malloc)
    (message : Nat → Option CString) (a : Call) (old : Nat) (queue : Queue)
    (after : queue.toLists = (a.onLists courses old past.queue.toLists).2)
    (argv : List CString) :
    ∃ c' q', c.call malloc message a =
      .ok (⟨message (a.onLists courses old past.queue.toLists).1, []⟩, c') ∧
      Mirrors c' (past.observe argv queue) q' := by
  obtain ⟨unusedStudent, unusedTa⟩ := fresh c m.exists_free
  obtain ⟨h, ran, rep, students, tas⟩ :=
    call_refines m.represents courses a unusedStudent unusedTa (Nat.lt_succ_of_le m.short)
  obtain ⟨result, lists⟩ := onLists_congr m.same courses (malloc c) old a
  refine ⟨c.next h, _, ?_,
    ⟨rep, ?_, fun x => ?_, fun x => ?_, ?_, onLists_known m.known (malloc c) a⟩⟩
  · simp only [Centre.call, ran, result]
  · rw [lists, ← after]
    rfl
  · exact (students x).trans (or_iff_left fun gone => gone.2 ((m.students x).mp gone.1))
  · exact (tas x).trans (or_iff_left fun gone => gone.2 ((m.tas x).mp gone.1))
  · exact (onLists_length courses (malloc c) q a).trans (Nat.succ_le_succ m.short)

theorem Mirrors.fullQueue (m : Mirrors c past q) :
    c.fullQueue = .ok (past.queue.stuList.map StatusReplies.studentString) := by
  have nodes : ∀ s ∈ q.stuList, absStudent c.heap s.id = some s := fun s mem =>
    m.represents.students s (List.mem_append_left _ mem)
  have enough : q.stuList.length < c.commands + 1 :=
    Nat.lt_succ_of_le ((Nat.le_add_right _ _).trans m.short)
  have read := studentLines_chain m.represents.stuChain nodes m.known enough
  have same : q.stuList.map anonymousStudent = past.queue.stuList.map anonymousStudent :=
    congrArg Lists.stuList m.same
  rwa [← studentLines_anonymous, same, studentLines_anonymous] at read

theorem Mirrors.currentlyServing (m : Mirrors c past q) :
    c.currentlyServing = .ok (StatusReplies.Reply.currentlyServing past.queue.taList).lines := by
  have held : ∀ s ∈ serving q.taList, absStudent c.heap s.id = some s := fun s mem =>
    m.represents.students s (List.mem_append_right _ mem)
  have enough : q.taList.length < c.commands + 1 :=
    Nat.lt_succ_of_le ((Nat.le_add_left _ _).trans m.short)
  have read := taLines_chain m.represents.taChain m.represents.tas held enough
  have same : q.taList.map anonymousTa = past.queue.taList.map anonymousTa :=
    congrArg Lists.taList m.same
  have first : c.heap.taList = (q.taList.map Ta.id).head? := m.represents.taChain.pointer_eq
  rw [← taLines_anonymous, same, taLines_anonymous] at read
  rw [Centre.currentlyServing]
  cases tas : past.queue.taList with
  | nil =>
    have empty : q.taList = [] := by simpa [tas] using same
    rw [if_pos (by rw [first, empty]; rfl)]
    rfl
  | cons t rest =>
    have some_ta : c.heap.taList ≠ none := by
      rw [first]
      intro none
      have : q.taList = [] := by simpa using none
      simp [this, tas] at same
    rw [if_neg some_ta, read, tas]
    rfl

/-- What a print command does with the lines of a reply, from whether they go into the block. -/
theorem print_of_lines {start : Int} {header lines : List CString} (r : StatusReplies.Reply)
    (same : header ++ lines = r.lines) (small : IsInt start) (sign : 0 ≤ start) :
    (Overruns block c start header (.ok lines) →
      c.print block start header (.ok lines) = .error .overrun) ∧
      (¬ Overruns block c start header (.ok lines) →
        c.print block start header (.ok lines) = .ok (⟨none, r.lines⟩, c.next c.heap)) := by
  rw [Overruns, Centre.print,
    ← StatusReplies.build_ok_iff small sign (same ▸ r.clean_lines) (same ▸ r.lines_ne_nil)]
  cases built : StatusReplies.build (block c) start header lines with
  | error e => simp
  | ok b => simp [same]

/-- A print command whose lines do not go into the block stops the session. -/
theorem Mirrors.stops (m : Mirrors c past q) (spills : Spills block c argv) :
    processArgs malloc block c argv = .error .overrun := by
  match argv, spills with
  | [cmd], .inl ⟨full, overruns⟩ =>
    subst full
    rw [m.fullQueue] at overruns
    have printed :
        processArgs malloc block c [text "print_full_queue"] = c.printFullQueue block := rfl
    rw [printed, Centre.printFullQueue, m.fullQueue]
    exact (print_of_lines (.fullQueue past.queue.stuList) rfl (by decide) (by decide)).1 overruns
  | [cmd], .inr ⟨serving, overruns⟩ =>
    subst serving
    rw [m.currentlyServing] at overruns
    have printed : processArgs malloc block c [text "print_currently_serving"] =
      c.printCurrentlyServing block := rfl
    rw [printed, Centre.printCurrentlyServing, m.currentlyServing]
    exact
      (print_of_lines (.currentlyServing past.queue.taList) rfl (by decide) (by decide)).1 overruns

/-- A command shows on the heap what it shows on the record. -/
def Shows (malloc : Centre → Addr) (block : Centre → Nat → List Byte) (c : Centre) (past : History)
    (argv : List CString) : Prop :=
  ∃ c' q', processArgs malloc block c argv =
      .ok (⟨(HelpCentre.processArgs past.queue argv).2, builtFrom past.queue.toLists argv⟩, c') ∧
    Mirrors c' (past.command argv) q'

theorem Mirrors.refused (m : Mirrors c past q) (same : processArgs malloc block c argv = c.refuse)
    (nothing : HelpCentre.processArgs past.queue argv =
      (past.queue, some (text "Incorrect syntax.")))
    (unprinted : builtFrom past.queue.toLists argv = []) : Shows malloc block c past argv := by
  refine ⟨c.next c.heap, q, ?_, ?_⟩
  · rw [same, nothing, unprinted]
    rfl
  · rw [History.command, nothing]
    exact m.idle argv

theorem Mirrors.obeyed (m : Mirrors c past q) (fresh : Fresh malloc)
    (message : Nat → Option CString) (a : Call) (old : Nat) {queue : Queue}
    (after : queue.toLists = (a.onLists courses old past.queue.toLists).2)
    (same : processArgs malloc block c argv = c.call malloc message a)
    (does : HelpCentre.processArgs past.queue argv =
      (queue, message (a.onLists courses old past.queue.toLists).1))
    (unprinted : builtFrom past.queue.toLists argv = []) : Shows malloc block c past argv := by
  obtain ⟨c', q', ran, later⟩ := m.called fresh message a old queue after argv
  refine ⟨c', q', ?_, ?_⟩
  · rw [same, does, unprinted]
    exact ran
  · rw [History.command, does]
    exact later

theorem Mirrors.shows (m : Mirrors c past q) (fresh : Fresh malloc) (argv : List CString)
    (fits : ¬ Spills block c argv) : Shows malloc block c past argv := by
  match argv with
  | [] => exact ⟨c, q, rfl, m.represents, m.same, m.students, m.tas, m.short, m.known⟩
  | [cmd] =>
    by_cases full : cmd = text "print_full_queue"
    · subst full
      have room : ¬ Overruns block c StatusReplies.FULL_QUEUE_LENGTH
        [text "Full Queue\r\n"] c.fullQueue := fun overruns =>
        fits (.inl ⟨rfl, overruns⟩)
      rw [m.fullQueue] at room
      have printed :
          processArgs malloc block c [text "print_full_queue"] = c.printFullQueue block := rfl
      refine ⟨c.next c.heap, q, ?_, m.idle _⟩
      rw [printed, Centre.printFullQueue, m.fullQueue]
      exact (print_of_lines (.fullQueue past.queue.stuList) rfl (by decide) (by decide)).2 room
    by_cases serving : cmd = text "print_currently_serving"
    · subst serving
      have room : ¬ Overruns block c 0 [] c.currentlyServing :=
        fun overruns => fits (.inr ⟨rfl, overruns⟩)
      rw [m.currentlyServing] at room
      have printed : processArgs malloc block c [text "print_currently_serving"] =
        c.printCurrentlyServing block := rfl
      refine ⟨c.next c.heap, q, ?_, m.idle _⟩
      rw [printed, Centre.printCurrentlyServing, m.currentlyServing]
      exact
        (print_of_lines (.currentlyServing past.queue.taList) rfl (by decide) (by decide)).2 room
    · apply m.refused
      · simp [processArgs, full, serving]
      · simp [HelpCentre.processArgs, full, serving]
      · simp [builtFrom, full, serving]
  | [cmd, name] =>
    have unprinted : builtFrom past.queue.toLists [cmd, name] = [] := by simp [builtFrom]
    by_cases giveUp : cmd = text "give_up"
    · subst giveUp
      exact m.obeyed fresh notWaiting (.giveUpWaiting name) 0 rfl rfl rfl unprinted
    by_cases addTa : cmd = text "add_ta"
    · subst addTa
      exact m.obeyed fresh (fun _ => none) (.addTa name) past.queue.nextTa rfl rfl rfl unprinted
    by_cases removeTa : cmd = text "remove_ta"
    · subst removeTa
      exact m.obeyed fresh invalidTa (.removeTa name) 0 rfl rfl rfl unprinted
    by_cases next : cmd = text "next"
    · subst next
      exact m.obeyed fresh invalidTa (.nextOverall name) 0 rfl rfl rfl unprinted
    · apply m.refused
      · simp [processArgs, giveUp, addTa, removeTa, next]
      · simp [HelpCentre.processArgs, giveUp, addTa, removeTa, next]
      · exact unprinted
  | [cmd, name, code] =>
    have unprinted : builtFrom past.queue.toLists [cmd, name, code] = [] := by simp [builtFrom]
    by_cases add : cmd = text "add_student"
    · subst add
      exact m.obeyed fresh notAdded
        (.addStudent name code) past.queue.nextStudent rfl rfl rfl unprinted
    · exact m.refused (if_neg add) (if_neg add) unprinted
  | _ :: _ :: _ :: _ :: _ => exact m.refused rfl rfl (by simp [builtFrom])

end Steps

section Results

variable {malloc : Centre → Addr} {block : Centre → Nat → List Byte}

/-- The words on the lines of the input. -/
def commandsOf (stdin : List Byte) : List (List CString) :=
  (lines INPUT_BUFFER_SIZE stdin).map fun line => words isDelim (cstr line)

/-- The words reach `process_args`: those of an empty line and of a line with too many words do
not. -/
def reaches (argv : List CString) : Bool := decide (argv ≠ [] ∧ argv.length ≤ INPUT_ARG_MAX_NUM)

def obeyed (stdin : List Byte) : List (List CString) := (commandsOf stdin).filter reaches

/-- A command line as the loop passes it on. -/
def bounded (argv : List CString) : Option (List CString) :=
  if argv.length ≤ INPUT_ARG_MAX_NUM then some argv else none

/-- The record after a session, from the commands that are obeyed. -/
theorem observed_obey (commands : List (List CString)) (past : History) :
    ∃ output, observed.obey (commands.map bounded) past =
      .ok (output, (commands.filter reaches).foldl History.command past) := by
  induction commands generalizing past with
  | nil => exact ⟨[], rfl⟩
  | cons argv later ih =>
    by_cases short : argv.length ≤ INPUT_ARG_MAX_NUM
    · rw [List.map_cons, bounded, if_pos short]
      match argv with
      | [] =>
        obtain ⟨output, ran⟩ := ih past
        exact ⟨output, ran⟩
      | word :: argv =>
        obtain ⟨output, ran⟩ := ih (past.command (word :: argv))
        have processed : reaches (word :: argv) = true := by simpa [reaches] using short
        have first : observed.process (word :: argv) past =
          .ok (⟨(HelpCentre.processArgs past.queue (word :: argv)).2,
            builtFrom past.queue.toLists (word :: argv)⟩, past.command (word :: argv)) := rfl
        rw [Interpreter.obey, first, List.filter_cons_of_pos processed, List.foldl_cons]
        · simp only [observed] at ran ⊢
          simp only [ran]
          exact ⟨_, rfl⟩
        · exact fun none => List.cons_ne_nil _ _ none
    · obtain ⟨output, ran⟩ := ih past
      have refused : ¬ reaches argv = true := by simp [reaches, short]
      rw [List.map_cons, bounded, if_neg short, List.filter_cons_of_neg refused,
        Interpreter.obey, ran]
      exact ⟨_, rfl⟩

/-- A print command comes whose lines do not go into the block for them. -/
def Overflows (malloc : Centre → Addr) (block : Centre → Nat → List Byte)
    (stdin : List Byte) : Prop :=
  (helpcentre malloc block).Meets (Spills block) ((commandsOf stdin).map bounded) Centre.opened

instance (malloc : Centre → Addr) (block : Centre → Nat → List Byte) (stdin : List Byte) :
    Decidable (Overflows malloc block stdin) :=
  inferInstanceAs (Decidable (Interpreter.Meets ..))

theorem main_mirrors (block : Centre → Nat → List Byte) (fresh : Fresh malloc) (stdin : List Byte) :
    (Overflows malloc block stdin ∧ main malloc block stdin = .error .overrun) ∨
      (¬ Overflows malloc block stdin ∧ ∃ output c q, main malloc block stdin = .ok (output, c) ∧
        recordedMain stdin = .ok (output, History.after (obeyed stdin)) ∧
        Mirrors c (History.after (obeyed stdin)) q) := by
  obtain ⟨output, recorded⟩ := observed_obey (commandsOf stdin) History.start
  have never : (helpcentre malloc block).quits = observed.quits := rfl
  have stops : ∀ argv c past, (∃ q, Mirrors c past q) → Spills block c argv →
      (helpcentre malloc block).process argv c = .error .overrun := by
    rintro argv c past ⟨q, m⟩ spills
    exact m.stops spills
  have each : ∀ argv c past, (∃ q, Mirrors c past q) → ¬ Spills block c argv →
      Interpreter.Alike (fun c past => ∃ q,
          Mirrors c past q) ((helpcentre malloc block).process argv c)
        (observed.process argv past) := by
    rintro argv c past ⟨q, m⟩ fits
    obtain ⟨c', q', ran, later⟩ := m.shows fresh argv fits
    have process : (helpcentre malloc block).process argv c = processArgs malloc block c argv := rfl
    rw [process, ran]
    exact ⟨rfl, q', later⟩
  have split : main malloc block stdin =
      (helpcentre malloc block).obey ((commandsOf stdin).map bounded) Centre.opened := by
    rw [main, Interpreter.main_eq]
    rfl
  have read : recordedMain stdin = .ok (output, History.after (obeyed stdin)) := by
    rw [recordedMain, Interpreter.main_eq]
    exact recorded
  rw [split]
  rcases Interpreter.obey_alike never stops each ((commandsOf stdin).map bounded) ⟨_,
    opened_mirrors⟩ with
    stopped | ⟨fits, alike⟩
  · exact .inl stopped
  · rw [recorded] at alike
    refine .inr ⟨fits, ?_⟩
    match (helpcentre malloc block).obey ((commandsOf stdin).map bounded) Centre.opened, alike with
    | .ok (shown, c), ⟨same, q, m⟩ => exact ⟨shown, c, q, rfl, by rw [same, read], m⟩

section Accounts

variable {c : Centre} {past : History} {q : Lists}

theorem serving_anonymous (l : List Ta) :
    serving (l.map anonymousTa) = (serving l).map anonymousStudent := by
  rw [serving, serving, List.filterMap_map, List.map_filterMap]
  rfl

/-- Each student node that was ever kept is live, or was freed when its student left. -/
theorem Mirrors.live_students (m : Mirrors c past q) (l : Ledger past) :
    {a | StudentLive c.heap a}.ncard + past.gaveUp.length + past.finished.length =
      past.calls.length := by
  have ids :
      {a | StudentLive c.heap a} = ((q.stuList ++ serving q.taList).map Student.id).toFinset := by
    ext a
    simpa using m.students a
  have stu : q.stuList.length = past.queue.stuList.length := by
    have same := congrArg (fun q => q.stuList.length) m.same
    simpa [anonymous] using same
  have tas : (serving q.taList).length = (serving past.queue.taList).length := by
    have same := congrArg (fun q => (serving q.taList).length) m.same
    simpa [anonymous, serving_anonymous] using same
  have all := l.accounts.length_eq
  have number := l.recorded
  rw [ids, Set.ncard_coe_finset, List.toFinset_card_of_nodup m.represents.valid.students]
  simp only [List.length_map, List.length_append, List.length_range] at all ⊢
  omega

theorem Mirrors.live_tas (m : Mirrors c past q) :
    {a | TaLive c.heap a}.ncard = past.queue.taList.length := by
  have ids : {a | TaLive c.heap a} = (q.taList.map Ta.id).toFinset := by
    ext a
    simpa using m.tas a
  have same := congrArg (fun q => q.taList.length) m.same
  rw [ids, Set.ncard_coe_finset, List.toFinset_card_of_nodup m.represents.valid.tas]
  simpa [anonymous] using same

/-- Those who wait are the arrivals that are left, in their order. -/
theorem Mirrors.waiting (m : Mirrors c past q) (l : Ledger past) :
    q.stuList.map (fun s => (s.name, s.course.code)) = stillWaiting past := by
  have names : q.stuList.map (fun s => (s.name, s.course.code)) =
      past.queue.stuList.map (fun s => (s.name, s.course.code)) := by
    have same := congrArg (fun q => q.stuList.map (fun s => (s.name, s.course.code))) m.same
    simpa only [anonymous, List.map_map, Function.comp_def, anonymousStudent] using same
  have each : past.queue.stuList.filterMap (fun s => past.calls[s.id]?) =
      past.queue.stuList.filterMap (fun s => some (s.name, s.course.code)) :=
    List.filterMap_congr fun s waiting => l.identity s (List.mem_append_left _ waiting)
  rw [stillWaiting, l.recorded, ← l.queue_eq, List.filterMap_map, names]
  exact (List.filterMap_eq_map ▸ each).symm

end Accounts

/-- Whatever is typed, whichever free addresses `malloc` answers with and whatever its blocks
hold, no pointer is followed or freed that is NULL or dangling: the session stops only at a print
command whose lines do not go into their block. Otherwise it shows what it shows on the record,
and ends with the students who have neither been taken nor given up waiting in the order in which
they came; a student node is live at the end unless its student gave up or was finished with, and
a TA node unless the TA was removed. -/
theorem balances (malloc : Centre → Addr) (block : Centre → Nat → List Byte) (fresh : Fresh malloc)
    (stdin : List Byte) :
    (∀ e, main malloc block stdin = .error e ↔ Overflows malloc block stdin ∧ e = .overrun) ∧
      ∀ output c, main malloc block stdin = .ok (output, c) →
        recordedMain stdin = .ok (output, History.after (obeyed stdin)) ∧
        ∃ q, Represents c.heap q ∧
          anonymous q = anonymous (History.after (obeyed stdin)).queue.toLists ∧
          q.stuList.map (fun s => (s.name, s.course.code)) =
            stillWaiting (History.after (obeyed stdin)) ∧
          {a | StudentLive c.heap a}.ncard + (History.after (obeyed stdin)).gaveUp.length +
            (History.after (obeyed stdin)).finished.length =
            (History.after (obeyed stdin)).calls.length ∧
          {a | TaLive c.heap a}.ncard = (History.after (obeyed stdin)).queue.taList.length := by
  have l : Ledger (History.after (obeyed stdin)) := ledger_after (obeyed stdin)
  rcases main_mirrors block fresh stdin with
    ⟨spills, stopped⟩ | ⟨fits, output, c, q, ended, recorded, m⟩
  · rw [stopped]
    refine ⟨fun e => ?_, fun _ _ => (nomatch ·)⟩
    simp [spills, eq_comm]
  · rw [ended]
    refine ⟨fun e => by simp [fits], fun output' c' same => ?_⟩
    obtain ⟨rfl, rfl⟩ := Prod.mk.inj (Except.ok.inj same)
    exact ⟨recorded, q, m.represents, m.same, m.waiting l, m.live_students l, m.live_tas⟩

/-- The first address at which nothing is live. -/
noncomputable def firstFit (c : Centre) : Addr :=
  ((List.range (c.commands + 1)).find? fun a => Free c a).getD (sInf {a | Free c a})

theorem firstFit_fresh : Fresh firstFit := by
  intro c some_free
  rw [firstFit]
  cases low : (List.range (c.commands + 1)).find? fun a => Free c a with
  | none => exact Nat.sInf_mem some_free
  | some a => simpa using List.find?_some low

/-- A student is refused a course, one is taken and finished with, and one gives up. -/
def morning : List Byte :=
  text "add_ta tim\nadd_student ann CSC209\nadd_student bob CSC999\n" ++
    text "add_student bob CSC108\nadd_student cy CSC148\nnext tim\n" ++
    text "print_currently_serving\nnext tim\n\ngive_up cy\nadd_student ann CSC209 now\n" ++
    text "add_student dee CSC148\n"

/-- Eight bytes more than were asked for, all of them 0. -/
def cleared (_ : Centre) (size : Nat) : List Byte := List.replicate (size + 8) NUL

theorem balances_morning :
    ∃ output c q, main firstFit cleared morning = .ok (output, c) ∧ Represents c.heap q ∧
      q.stuList.map (fun s => (s.name, s.course.code)) = [(text "dee", text "CSC148")] ∧
      {a | StudentLive c.heap a}.ncard = 2 ∧ {a | TaLive c.heap a}.ncard = 1 := by
  obtain ⟨stops, shows⟩ := balances firstFit cleared firstFit_fresh morning
  have fits : ¬ Overflows firstFit cleared morning := by decide +kernel
  have returns : ∀ e, main firstFit cleared morning ≠ .error e := by
    simpa only [fits, false_and, iff_false] using stops
  match ended : main firstFit cleared morning with
  | .error e => exact absurd ended (returns e)
  | .ok (output, c) =>
    obtain ⟨_, q, rep, _, waiting, students, tas⟩ := shows output c ended
    have record : (History.after (obeyed morning)).calls = [(text "ann", text "CSC209"),
      (text "bob", text "CSC108"), (text "cy", text "CSC148"), (text "dee", text "CSC148")] ∧
      (History.after (obeyed morning)).taken = [0, 1] ∧
        (History.after (obeyed morning)).gaveUp = [2] ∧
      (History.after (obeyed morning)).finished = [0] ∧
        (History.after (obeyed morning)).queue.taList.length = 1 := by
      decide +kernel
    obtain ⟨calls, taken, gaveUp, finished, staff⟩ := record
    rw [stillWaiting, calls, taken, gaveUp] at waiting
    rw [calls, gaveUp, finished] at students
    rw [staff] at tas
    refine ⟨output, c, q, rfl, rep, waiting.trans (by decide), ?_, tas⟩
    simpa using students

end Results

end CentreSessions
