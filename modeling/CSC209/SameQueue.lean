import CSC209.QueueBoard
import CSC209.A2.NameBlocks
import CSC209.A4.Enrolment
import CSC209.A4.QueueRefinement

/-!
# A2 and A4 keep the same queue

Both versions run the same commands from the empty state, A2 on its two linked
queues and A4 on its one. After every command the waiting students and the TAs
that their pointers lead to are the same, as long as `malloc` gives each name
of a student more than A2 asks for; A4 prints names into blocks of their size.
-/

namespace SameQueue

open CStrings LinkedChain HaltingRuns QueueBoard
open HelpDesk (Desk opened)
open QueueHeap (Addr Heap)
open QueueReading (stuLink taLink studentName StudentLive TaLive)
open Enrolment (Enrolled)

section Reading

def deskStudent (d : Desk) (a : Addr) : Option (CString × CString) := do
  let s ← d.students.get a
  let c ← d.courses[s.course]?
  some (s.name, c.code)

def deskTa (d : Desk) (a : Addr) : Option (CString × Option CString) := do
  let t ← d.tas.get a
  match t.currentStudent with
  | none => some (t.name, none)
  | some b => do
    let s ← d.students.get b
    some (t.name, some s.name)

def heapStudent (h : Heap) (a : Addr) : Option (CString × CString) :=
  match h.students a with
  | .live s => do
    let c ← s.course
    some (s.name, c.code)
  | _ => none

def heapTa (h : Heap) (a : Addr) : Option (CString × Option CString) :=
  match h.tas a with
  | .live t =>
    match t.currentStudent with
    | none => some (t.name, none)
    | some b => do
      let served ← studentName h b
      some (t.name, some served)
  | _ => none

/-- Both waiting lists read alike, and both lists of TAs. -/
structure Same (d : Desk) (h : Heap) : Prop where
  waiting : ∃ l, Reads (d.students.link HelpDesk.Student.nextOverall) (deskStudent d) d.stuList l ∧
    Reads (stuLink h) (heapStudent h) h.stuList l
  staff : ∃ l, Reads (d.tas.link HelpDesk.Ta.next) (deskTa d) d.taList l ∧
    Reads (taLink h) (heapTa h) h.taList l

end Reading

section Runs

structure Both where
  desk : Desk
  heap : Heap
  commands : Nat

/-- A command, and what `malloc` answers to A4. -/
structure Input where
  command : Command
  new : Addr

inductive Halt where
  | desk (f : NodeMemory.Fault)
  | heap (f : QueueHeap.Fault)

variable (clock : Nat → Int) (block : Desk → Nat → Nat) (courses : List HelpQueue.Course)

/-- There are at most as many nodes as there were commands, so this is fuel enough for a loop. -/
def callHeap (b : Both) (i : Input) : Except QueueHeap.Fault (Nat × Heap) :=
  i.command.onHeap.onHeap courses i.new (b.commands + 1) b.heap

def callDesk (b : Both) (i : Input) : Except NodeMemory.Fault (Nat × Desk) :=
  NameBlocks.call clock block b.desk i.command.onDesk

/-- The same command in both. -/
def step (b : Both) (i : Input) : Except Halt Both :=
  match callDesk clock block b i, callHeap courses b i with
  | .ok (_, d), .ok (_, h) => .ok ⟨d, h, b.commands + 1⟩
  | .error f, _ => .error (.desk f)
  | .ok _, .error f => .error (.heap f)

def start (lines : List (CString × CString)) : Both :=
  ⟨opened lines, ⟨fun _ => .unused, fun _ => .unused, none, none⟩, 0⟩

/-- `malloc` answers with a block that is not in use. -/
def Fresh (b : Both) (i : Input) : Prop := ¬ StudentLive b.heap i.new ∧ ¬ TaLive b.heap i.new

instance (b : Both) (i : Input) : Decidable (Fresh b i) := inferInstanceAs (Decidable (_ ∧ _))

/-- Both calls return, both successfully or neither, and leave the same lists. -/
def Agree (b : Both) (i : Input) : Prop :=
  ∃ n d m h, callDesk clock block b i = .ok (n, d) ∧ callHeap courses b i = .ok (m, h) ∧
    (n = 0 ↔ m = 0) ∧ Same d h

/-- The command does not add a student whose name fills the block that A2 gets for it. -/
def LeavesRoom (b : Both) (i : Input) : Prop :=
  ¬ NameBlocks.Overruns block b.desk i.command.onDesk

instance (b : Both) (i : Input) : Decidable (LeavesRoom block b i) :=
  inferInstanceAs (Decidable (¬ _))

end Runs

section Entries

variable {d : Desk} {h : Heap} {q : DeskLists.Lists} {r : HelpQueue.Lists} {codes : List CString}

theorem deskStudent_eq (rep : DeskReading.Represents d q)
    (courses : q.courses.map DeskLists.Course.code = codes)
    {s : DeskLists.Student} (hs : s ∈ q.queue) :
    deskStudent d s.id = some (s.name, codes[s.course]?.getD []) := by
  have mem : s ∈ q.queue ++ q.serving := List.mem_append_left _ hs
  obtain ⟨node, hnode, entry⟩ := DeskReading.get_of_entry (rep.students s mem)
  obtain ⟨c, hc⟩ := rep.course_of_mem mem
  have code : codes[s.course]? = some c.code := by
    rw [← courses, ← rep.courses]
    simp [hc, DeskReading.tally]
  have course : d.courses[node.course]? = some c := by
    rw [entry] at hc
    exact hc
  have name : node.name = s.name := by rw [entry]
  simp [deskStudent, hnode, course, code, name]

theorem deskTa_eq (rep : DeskReading.Represents d q) (fresh : DeskStatistics.NoStale q)
    {t : DeskLists.Ta} (ht : t ∈ q.staff) : deskTa d t.id = some (staffEntry t) := by
  obtain ⟨next, hnode⟩ := rep.tas t ht
  cases hold : t.hold with
  | idle => simp [deskTa, hnode, hold, staffEntry, DeskLists.Hold.pointer, DeskLists.Hold.served]
  | serving s =>
    have mem : s ∈ q.queue ++ q.serving :=
      List.mem_append_right _ (List.mem_filterMap.mpr ⟨t, ht,
          by simp [hold, DeskLists.Hold.served]⟩)
    obtain ⟨node, hs, entry⟩ := DeskReading.get_of_entry (rep.students s mem)
    have name : node.name = s.name := by rw [entry]
    simp [deskTa, hnode, hold, hs, name, staffEntry, DeskLists.Hold.pointer, DeskLists.Hold.served]
  | released a => exact absurd hold (fresh t ht a)

theorem heapStudent_eq (rep : QueueReading.Represents h r) (enrolled : Enrolled h)
    {s : HelpQueue.Student} (hs : s ∈ r.stuList) :
    heapStudent h s.id = some (s.name, s.course.code) := by
  obtain ⟨node, hnode, entry⟩ :=
    QueueReading.absStudent_some (rep.students s (List.mem_append_left _ hs))
  obtain ⟨c, hc⟩ := Option.ne_none_iff_exists'.mp (enrolled _ _ hnode)
  have name : node.name = s.name := congrArg HelpQueue.Student.name entry
  have course : c = s.course := by
    simpa [QueueReading.entry, hc] using congrArg HelpQueue.Student.course entry
  simp [heapStudent, hnode, hc, name, course]

theorem heapTa_eq (rep : QueueReading.Represents h r) {t : HelpQueue.Ta} (ht : t ∈ r.taList) :
    heapTa h t.id = some (taEntry t) := by
  obtain ⟨next, hnode⟩ := rep.tas t ht
  cases current : t.currentStudent with
  | none => simp [heapTa, hnode, current, taEntry]
  | some s =>
    have mem : s ∈ r.stuList ++ HelpQueue.serving r.taList :=
      List.mem_append_right _ (List.mem_filterMap.mpr ⟨t, ht, current⟩)
    obtain ⟨node, hs, entry⟩ := QueueReading.absStudent_some (rep.students s mem)
    have name : node.name = s.name := congrArg HelpQueue.Student.name entry
    simp [heapTa, studentName, hnode, current, hs, name, taEntry]

theorem same_of_boards (rep : DeskReading.Represents d q) (fresh : DeskStatistics.NoStale q)
    (courses : q.courses.map DeskLists.Course.code = codes) (rep' : QueueReading.Represents h r)
    (enrolled : Enrolled h) (boards : deskBoard codes q = listBoard r) : Same d h where
  waiting :=
    ⟨(listBoard r).waiting, boards ▸ reads_map rep.overall fun _ => deskStudent_eq rep courses,
      reads_map rep'.stuChain fun _ => heapStudent_eq rep' enrolled⟩
  staff :=
    ⟨(listBoard r).staff, boards ▸ reads_map rep.staff fun _ => deskTa_eq rep fresh,
      reads_map rep'.taChain fun _ => heapTa_eq rep'⟩

end Entries

section Simulation

variable {clock : Nat → Int} {block : Desk → Nat → Nat} {courses : List HelpQueue.Course}
  {b b' : Both} {i : Input}
  {lines : List (CString × CString)} {inputs : List Input} {codes : List CString} {c : Command}

/-- Both states hold lists with one board, and it has at most one entry for each command. -/
def Alike (codes : List CString) (b : Both) : Prop :=
  ∃ q r, DeskReading.Represents b.desk q ∧ DeskStatistics.NoStale q ∧
    q.courses.map DeskLists.Course.code = codes ∧ QueueReading.Represents b.heap r ∧
      Enrolled b.heap ∧
    deskBoard codes q = listBoard r ∧ r.stuList.length + r.taList.length ≤ b.commands

theorem alike_start : Alike (lines.map Prod.fst) (start lines) := by
  refine ⟨_, ⟨[], []⟩, DeskRefinement.opened_represents lines,
    by simp [DeskStatistics.NoStale, DeskLists.opened],
    by simp [DeskLists.opened], ?_, by simp [Enrolled, start], rfl, by simp [start]⟩
  exact ⟨rfl, rfl, by simp [HelpQueue.serving], by simp,
    ⟨by simp, by simp [HelpQueue.serving], by simp⟩⟩

/-- A command adds at most one entry. -/
theorem act_length (codes : List CString) (board : Board) (c : Command) :
    (act codes board c).2.waiting.length + (act codes board c).2.staff.length ≤
      board.waiting.length + board.staff.length + 1 := by
  cases c with
  | addStudent name code =>
    by_cases good : (∀ s ∈ board.waiting, s.1 ≠ name) ∧ ∃ c ∈ codes, c = code
    · simp only [act, if_pos good, List.length_append, List.length_singleton]
      omega
    · simp only [act, if_neg good]
      omega
  | addTa name =>
    simp only [act, List.length_cons]
    omega
  | removeTa name =>
    have fewer := (List.eraseP_sublist (p := fun t : CString × Option CString => t.1 = name)
      (l := board.staff)).length_le
    by_cases known : ∃ t ∈ board.staff, t.1 = name
    · simp only [act, if_pos known]
      omega
    · simp only [act, if_neg known]
      omega
  | next taName =>
    by_cases known : ∃ t ∈ board.staff, t.1 = taName
    · simp only [act, if_pos known, List.length_replaceF, List.length_tail]
      omega
    · simp only [act, if_neg known]
      omega

theorem not_forgets (q : DeskLists.Lists) (c : Command) : ¬ DeskStatistics.Forgets q c.onDesk := by
  cases c <;> simp [Command.onDesk, DeskStatistics.Forgets]

theorem step_ok {n m : Nat} {d : Desk} {h : Heap} (desk : callDesk clock block b i = .ok (n, d))
    (heap : callHeap courses b i = .ok (m, h)) :
    step clock block courses b i = .ok ⟨d, h, b.commands + 1⟩ := by
  simp [step, desk, heap]

/-- Where A2 has room for the name, both calls follow the board, so neither fails and they agree. -/
theorem alike_step (clock : Nat → Int) (alike : Alike (courses.map HelpQueue.Course.code) b)
    (unused : Fresh b i) (room : LeavesRoom block b i) :
    ∃ b', step clock block courses b i = .ok b' ∧
      Alike (courses.map HelpQueue.Course.code) b' ∧ Agree clock block courses b i := by
  obtain ⟨q, r, rep, fresh, codes, rep', enrolled, boards, bound⟩ := alike
  obtain ⟨d, returns⟩ := DeskStatistics.step_returns clock (a := i.command.onDesk) rep fresh
  obtain ⟨n, q1, lists, desk, rep1⟩ := (QueueAgreement.step_ok_iff rep).mp returns
  have desk : callDesk clock block b i = .ok (n, d) := guarded_ok_iff.mpr ⟨room, desk⟩
  have enough : r.stuList.length + r.taList.length < b.commands + 1 := by omega
  obtain ⟨h, heap, rep1', _⟩ :=
    QueueRefinement.call_refines rep' courses i.command.onHeap unused.1 unused.2 enough
  obtain ⟨succeeds, board⟩ := deskBoard_call codes lists
  obtain ⟨succeeds', board'⟩ := listBoard_call courses i.new r i.command
  rw [boards] at succeeds board
  have fresh1 :=
    (DeskStatistics.noStale_iff fresh (DeskLists.call_cases lists)).mpr (not_forgets q i.command)
  have codes1 := (DeskStatistics.codes_kept clock _).call codes lists
  have enrolled1 := enrolled.call heap
  have boards1 := board.trans board'.symm
  have length := act_length (courses.map HelpQueue.Course.code) (listBoard r) i.command
  rw [← board'] at length
  have bound1 : (i.command.onHeap.onLists courses i.new r).2.stuList.length +
      (i.command.onHeap.onLists courses i.new r).2.taList.length ≤ b.commands + 1 := by
    simp only [listBoard, List.length_map] at length
    omega
  exact ⟨_, step_ok desk heap,
    ⟨q1, _, rep1, fresh1, codes1, rep1', enrolled1, boards1, bound1⟩,
    n, d, _, h, desk, heap, succeeds.trans succeeds'.symm,
    same_of_boards rep1 fresh1 codes1 rep1' enrolled1 boards1⟩

/-- A name that fills its block is written past the end of it, and A2 does not return. -/
theorem agree_iff (clock : Nat → Int) (alike : Alike (courses.map HelpQueue.Course.code) b)
    (unused : Fresh b i) : Agree clock block courses b i ↔ LeavesRoom block b i := by
  constructor
  · rintro ⟨n, d, m, h, desk, _⟩
    exact (guarded_ok_iff.mp desk).1
  · intro room
    obtain ⟨_, _, _, agree⟩ := alike_step clock alike unused room
    exact agree

/-- After every command both versions have the same students waiting and the same TAs, and it
succeeded in both or in neither, exactly as long as A2 has room for the names. -/
theorem queues_same_iff (clock : Nat → Int) (block : Desk → Nat → Nat)
    (codes : courses.map HelpQueue.Course.code = lines.map Prod.fst)
    (allowed : Along (step clock block courses) Fresh (start lines) inputs) :
    Along (step clock block courses) (Agree clock block courses) (start lines) inputs ↔
      Along (step clock block courses) (LeavesRoom block) (start lines) inputs := by
  refine along_congr (codes ▸ alike_start) allowed ?_ fun b i alike unused =>
    agree_iff clock alike unused
  intro b i b' alike unused agree h
  obtain ⟨b1, done, alike1, _⟩ :=
    alike_step clock alike unused ((agree_iff clock alike unused).mp agree)
  obtain rfl := Except.ok.inj (done.symm.trans h)
  exact alike1

def oneStudent : List Input :=
  [⟨.addTa (text "Tom"), 0⟩, ⟨.addStudent (text "Ann") (text "CSC209"), 1⟩, ⟨.next (text "Tom"), 2⟩]

theorem queues_same_iff_oneStudent :
    let block := fun (_ : Desk) n => NameBlocks.usableSize n
    let start := start [(text "CSC209", text "Intro")]
    Along (step (fun _ => 0) block [⟨text "CSC209"⟩]) (Agree (fun _ => 0) block [⟨text "CSC209"⟩])
        start oneStudent ↔
      Along (step (fun _ => 0) block [⟨text "CSC209"⟩]) (LeavesRoom block) start oneStudent :=
  queues_same_iff (fun _ => 0) (fun _ n => NameBlocks.usableSize n) (by decide) (by decide)

/-- A student with a name of 24 letters asks twice. -/
def longName : List Input :=
  [⟨.addStudent (text "Hubert-Blaine-Wolfeschle") (text "CSC209"), 0⟩,
    ⟨.addStudent (text "Hubert-Blaine-Wolfeschle") (text "CSC209"), 1⟩]

/-- The name fills the 24 bytes that `malloc` gives for 24. -/
theorem long_name_overruns : ¬ ∀ (clock : Nat → Int) (block : Desk → Nat → Nat)
    (courses : List HelpQueue.Course) (lines : List (CString × CString)) (inputs : List Input),
    courses.map HelpQueue.Course.code = lines.map Prod.fst →
      Along (step clock block courses) Fresh (start lines) inputs →
        Along (step clock block courses) (Agree clock block courses) (start lines) inputs := by
  intro always
  have first := (always (fun _ => 0) (fun _ n => NameBlocks.usableSize n) [⟨text "CSC209"⟩]
    [(text "CSC209", text "Intro")] longName (by decide) (by decide)).1
  obtain ⟨n, d, m, h, desk, _⟩ := first
  have stops : callDesk (fun _ => 0) (fun _ n => NameBlocks.usableSize n)
      (start [(text "CSC209", text "Intro")])
      ⟨.addStudent (text "Hubert-Blaine-Wolfeschle") (text "CSC209"), 0⟩ = .error .overrun := by
    decide
  rw [stops] at desk
  cases desk

end Simulation

end SameQueue
