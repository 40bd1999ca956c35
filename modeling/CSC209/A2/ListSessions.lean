import CSC209.A2.DeskStatistics
import CSC209.A2.Sessions

/-!
# A session on lists

The whole help centre again, on one list of students and one of TAs: the
commands, what they print and where they fault. The printing commands only
read, and read the same from the lists as from the nodes. The lists have no
blocks: a session stops where the name of a new student fills its own.
-/

namespace ListSessions

open CStrings NodeMemory LinkedChain HelpDesk DeskReading DeskRefinement CommandLine
  CommandLoop Sessions
open DeskLists (Lists Hold)

section Reports

variable (q : Lists)

def codeOf (c : Nat) : CString := ((q.courses[c]?).map DeskLists.Course.code).getD []

def fullQueueFrom : List DeskLists.Student → List QueueRow
  | [] => []
  | s :: rest => ⟨s.name, codeOf q s.course, s.arrivalTime, rest.head?.map DeskLists.Student.name,
      (inCourse rest s.course).head?.map DeskLists.Student.name⟩ :: fullQueueFrom rest

def fullQueue : List QueueRow := fullQueueFrom q q.queue

def servingOf (t : DeskLists.Ta) : Except Fault (CString × Option (CString × CString)) :=
  match t.hold with
  | .idle => .ok (t.name, none)
  | .serving s => .ok (t.name, some (s.name, codeOf q s.course))
  | .released _ => .error .deadPointer

def currentlyServing : Except Fault (List (CString × Option (CString × CString))) :=
  q.staff.mapM (servingOf q)

def allQueues : List (CString × List CString) :=
  q.courses.mapIdx fun c x => (x.code, (inCourse q.queue c).map DeskLists.Student.name)

def helpsIn (c : Nat) (t : DeskLists.Ta) : Except Fault Nat :=
  match t.hold with
  | .idle => .ok 0
  | .serving s => .ok (if s.course = c then 1 else 0)
  | .released _ => .error .deadPointer

def countHelped (c : Nat) : List DeskLists.Ta → Except Fault Nat
  | [] => .ok 0
  | t :: rest => do
    let here ← helpsIn c t
    let later ← countHelped c rest
    .ok (here + later)

def statsOf (code : CString) : Except Fault Stats :=
  match q.findCourse code with
  | none => .error .nullPointer
  | some c => do
    let helped ← countHelped c q.staff
    match q.courses[c]? with
    | none => .error .deadPointer
    | some x =>
        .ok ⟨(inCourse q.queue c).length, helped, x.helped, x.bailed, x.waitTime, x.helpTime⟩

end Reports

section Readings

variable {d : Desk} {q : Lists}

theorem course_read (rep : Represents d q) {c : Nat} (low : c < q.courses.length) :
    ∃ x, d.course c = .ok x ∧ x.code = codeOf q c := by
  obtain ⟨x, there⟩ := rep.course_of_lt low
  have same : q.courses[c]? = some (tally x) := by
    rw [← rep.courses, List.getElem?_map, there]
    rfl
  exact ⟨x, by simp [Desk.course, there], by simp [codeOf, same, tally]⟩

theorem nameAt_head (rep : Represents d q) {l : List DeskLists.Student}
    (sub : ∀ s ∈ l, s ∈ q.queue ++ q.serving) :
    nameAt d (ids l).head? = .ok (l.head?.map DeskLists.Student.name) := by
  cases l with
  | nil => rfl
  | cons s l =>
    obtain ⟨n, read, same⟩ := get_of_entry (rep.students s (sub s List.mem_cons_self))
    have named : n.name = s.name := by rw [same]
    simp [nameAt, Memory.read_some_of_get read, bind, Except.bind, named]

/-- The node of a waiting student: its links lead to the students behind it. -/
theorem waiting_node (rep : Represents d q) {before rest : List DeskLists.Student}
    {s : DeskLists.Student} (split : q.queue = before ++ s :: rest) :
    ∃ n, d.students.get s.id = some n ∧ s = ⟨s.id, n.name, n.arrivalTime, n.course⟩ ∧
      n.nextOverall = (ids rest).head? ∧ n.nextCourse = (ids (inCourse rest s.course)).head? := by
  have mem : s ∈ q.queue ++ q.serving := List.mem_append_left _ (by rw [split]; simp)
  obtain ⟨n, read, same⟩ := get_of_entry (rep.students s mem)
  obtain ⟨x, there⟩ := rep.course_of_mem mem
  refine ⟨n, read, same, ?_, ?_⟩
  · have chain := rep.overall
    rw [split, ids_append, ids_cons] at chain
    obtain ⟨p, _, _, next, link, later⟩ := segment_append.mp chain
    rw [← Chain.pointer_eq later]
    simpa [Memory.link, read] using link
  · have chain := (rep.byCourse s.course x there).1
    rw [split, inCourse_append, inCourse_cons_same rfl, ids_append, ids_cons] at chain
    obtain ⟨p, _, _, next, link, later⟩ := segment_append.mp chain
    rw [← Chain.pointer_eq later]
    simpa [Memory.link, read] using link

theorem queueRows_eq (rep : Represents d q) (before : List DeskLists.Student)
    {l : List DeskLists.Student} (split : q.queue = before ++ l) :
    (ids l).mapM (queueRow d) = .ok (fullQueueFrom q l) := by
  induction l generalizing before with
  | nil => rfl
  | cons s rest ih =>
    obtain ⟨n, read, same, overall, course⟩ := waiting_node rep split
    have behind : ∀ t ∈ rest, t ∈ q.queue ++ q.serving := fun t mem => by
      rw [split]
      simp [mem]
    obtain ⟨code, known⟩ := rep.known s (by rw [split]; simp)
    obtain ⟨x, found, coded⟩ := course_read rep (lt_of_findCourse known)
    have fields : n.name = s.name ∧ n.arrivalTime = s.arrivalTime ∧ n.course = s.course := by
      rw [same]
      exact ⟨rfl, rfl, rfl⟩
    have here : queueRow d s.id = .ok ⟨s.name, codeOf q s.course, s.arrivalTime,
      rest.head?.map DeskLists.Student.name,
        (inCourse rest s.course).head?.map DeskLists.Student.name⟩ := by
      have first := nameAt_head rep behind
      have second := nameAt_head rep (l := inCourse rest s.course) fun t mem =>
        behind t (mem_of_mem_inCourse mem)
      have looked :
          (if (ids rest).head?.isSome then (ids (inCourse rest s.course)).head? else none) =
          (ids (inCourse rest s.course)).head? := by
        cases rest <;> rfl
      simp only [queueRow, Memory.read_some_of_get read, bind, Except.bind, fields, found, overall,
        course, first, looked, second, coded]
    rw [ids_cons, List.mapM_cons, here, ih (before ++ [s]) (by simpa using split)]
    rfl

theorem printFullQueue_eq (rep : Represents d q) : printFullQueue d = .ok (fullQueue q) := by
  rw [printFullQueue, Memory.visit_chain rep.overall (Memory.chain_length_le rep.overall)]
  exact queueRows_eq rep [] rfl

theorem servingRow_eq (rep : Represents d q) {t : DeskLists.Ta} (mem : t ∈ q.staff) :
    servingRow d t.id = servingOf q t := by
  obtain ⟨next, read⟩ := rep.tas t mem
  rw [servingOf]
  simp only [servingRow, Memory.read_some_of_get read, bind, Except.bind]
  cases hold : t.hold with
  | idle => simp [Hold.pointer]
  | released a =>
    have gone := (rep.released t mem a hold).2
    simp [Hold.pointer, Memory.read, gone]
  | serving s =>
    have served : s ∈ q.queue ++ q.serving :=
      List.mem_append_right _ (List.mem_filterMap.mpr ⟨t, mem, by simp [hold, Hold.served]⟩)
    obtain ⟨n, node, same⟩ := get_of_entry (rep.students s served)
    obtain ⟨code, known⟩ := rep.known s served
    obtain ⟨x, found, coded⟩ := course_read rep (lt_of_findCourse known)
    have fields : n.name = s.name ∧ n.course = s.course := by
      rw [same]
      exact ⟨rfl, rfl⟩
    simp [Hold.pointer, node, fields, found, coded]

theorem printCurrentlyServing_eq (rep : Represents d q) :
    printCurrentlyServing d = currentlyServing q := by
  rw [printCurrentlyServing, Memory.visit_chain rep.staff (Memory.chain_length_le rep.staff),
    currentlyServing]
  have rows : ∀ l : List DeskLists.Ta, (∀ t ∈ l, t ∈ q.staff) →
      (l.map DeskLists.Ta.id).mapM (servingRow d) = l.mapM (servingOf q) := by
    intro l sub
    induction l with
    | nil => rfl
    | cons t l ih =>
      obtain ⟨here, later⟩ := List.forall_mem_cons.mp sub
      rw [List.map_cons, List.mapM_cons, List.mapM_cons, servingRow_eq rep here, ih later]
  exact rows q.staff fun t mem => mem

theorem namesOf_eq (rep : Represents d q) {l : List DeskLists.Student}
    (sub : ∀ s ∈ l, s ∈ q.queue ++ q.serving) :
    ((ids l).mapM fun a => do
      let s ← d.students.read (some a)
      (.ok s.name : Except Fault CString)) = .ok (l.map DeskLists.Student.name) := by
  induction l with
  | nil => rfl
  | cons s l ih =>
    obtain ⟨here, later⟩ := List.forall_mem_cons.mp sub
    obtain ⟨n, read, same⟩ := get_of_entry (rep.students s here)
    have named : n.name = s.name := by rw [same]
    rw [ids_cons, List.mapM_cons, ih later, Memory.read_some_of_get read]
    simp [bind, Except.bind, pure, Except.pure, named]

theorem courseRow_eq (rep : Represents d q) {c : Nat} {x : Course}
    (there : d.courses[c]? = some x) :
    courseRow d x = .ok (x.code, (inCourse q.queue c).map DeskLists.Student.name) := by
  have chain := (rep.byCourse c x there).1
  have names := namesOf_eq rep (l := inCourse q.queue c) fun s mem =>
    List.mem_append_left _ (mem_of_mem_inCourse mem)
  rw [courseRow, Memory.visit_chain chain (Memory.chain_length_le chain)]
  simp only [bind, Except.bind] at names ⊢
  rw [names]

theorem mapM_mapIdx {α β : Type} {f : α → Except Fault β} {g : Nat → α → β} {l : List α}
    (each : ∀ i x, l[i]? = some x → f x = .ok (g i x)) : l.mapM f = .ok (l.mapIdx g) := by
  induction l generalizing g with
  | nil => rfl
  | cons x l ih =>
    have later := ih (g := fun i => g (i + 1)) fun i y there => each (i + 1) y there
    rw [List.mapM_cons, each 0 x rfl, later, List.mapIdx_cons]
    rfl

theorem printAllQueues_eq (rep : Represents d q) : printAllQueues d = .ok (allQueues q) := by
  rw [printAllQueues, mapM_mapIdx fun c x there => courseRow_eq rep there, allQueues, ← rep.courses]
  congr 1
  apply List.ext_getElem?
  intro c
  rw [List.getElem?_mapIdx, List.getElem?_mapIdx, List.getElem?_map, Option.map_map]
  rfl

theorem countHelped_eq (rep : Represents d q) (c : Nat) {l : List DeskLists.Ta}
    (sub : ∀ t ∈ l, t ∈ q.staff) :
    HelpDesk.countHelped d c (l.map DeskLists.Ta.id) = countHelped c l := by
  induction l with
  | nil => rfl
  | cons t l ih =>
    obtain ⟨here, later⟩ := List.forall_mem_cons.mp sub
    rw [List.map_cons, HelpDesk.countHelped, countHelped, ih later,
      DeskStatistics.helpsIn_eq rep here]
    rfl

theorem statsByCourse_eq (rep : Represents d q) (code : CString) :
    statsByCourse code d = statsOf q code := by
  rw [statsByCourse, statsOf, findCourse_eq rep.courses]
  cases found : q.findCourse code with
  | none => rfl
  | some c =>
    obtain ⟨x, there⟩ := rep.course_of_lt (lt_of_findCourse found)
    have same : q.courses[c]? = some (tally x) := by
      rw [← rep.courses, List.getElem?_map, there]
      rfl
    have chain := (rep.byCourse c x there).1
    have waiting := Memory.visit_chain chain (Memory.chain_length_le chain)
    have staff := Memory.visit_chain rep.staff (Memory.chain_length_le rep.staff)
    have counted := countHelped_eq rep c (l := q.staff) fun t mem => mem
    simp only [Desk.course, there, bind, Except.bind, waiting, staff, counted, same]
    cases countHelped c q.staff <;> simp [ids, tally]

end Readings

section Session

/-- The reply to a call of the interface, with the lists that it leaves. -/
def called (result : Except Fault (Nat × Lists)) (error : Nat → Option CString) :
    Except Fault (Reply × Lists) :=
  result.map fun r => (reply (some r.1) (error r.1), r.2)

def printed (q : Lists) (output : Except Fault Output) : Except Fault (Reply × Lists) :=
  output.map fun o => (shown o, q)

def notWaiting (result : Nat) : Option CString :=
  if result = 1 then some (text "There was no student by that name waiting in the queue.") else none

def notAdded (result : Nat) : Option CString :=
  if result = 1 then some (text "This student is already in the queue.")
  else if result = 2 then some (text "Invalid Course -- student not added.") else none

def notTaken (result : Nat) : Option CString :=
  if result = 1 then some (text "Invalid TA name.")
  else if result = 2 then some (text "Invalid course code.") else none

/-- The commands on the lists. -/
def processArgs (clock : Nat → Int) (argv : List CString) (q : Lists) :
    Except Fault (Reply × Lists) :=
  match argv with
  | [] => .ok (reply none none, q)
  | [cmd] =>
    if cmd = text "quit" then .ok ({ reply none none with status := -1 }, q)
    else if cmd = text "help" then .ok (shown .help, q)
    else if cmd = text "sleep" then .ok (reply none none, q)
    else if cmd = text "print_full_queue" then printed q (.ok (.fullQueue (fullQueue q)))
    else if cmd = text "print_currently_serving" then
      printed q ((currentlyServing q).map .currentlyServing)
    else if cmd = text "print_all_queues" then printed q (.ok (.allQueues (allQueues q)))
    else .ok (incorrectSyntax, q)
  | [cmd, name] =>
    if cmd = text "stats_by_course" then
      (statsOf q name).map fun numbers => (⟨0, some 0, none, .stats numbers⟩, q)
    else if cmd = text "give_up" then
      called (.ok (DeskLists.giveUpWaiting clock name q)) notWaiting
    else if cmd = text "add_ta" then .ok (reply none none, DeskLists.hire q name)
    else if cmd = text "remove_ta" then called (DeskLists.removeTa clock name q) invalidTa
    else if cmd = text "next" then called (DeskLists.takeNextOverall clock name q) invalidTa
    else .ok (incorrectSyntax, q)
  | [cmd, name, code] =>
    if cmd = text "add_student" then
      called (.ok (DeskLists.addStudent clock name code q)) notAdded
    else if cmd = text "next" then
      called (DeskLists.takeNextCourse clock name code q) notTaken
    else .ok (incorrectSyntax, q)
  | _ => .ok (incorrectSyntax, q)

def listCentre (clock : Nat → Int) : Interpreter Lists Fault Reply where
  process := processArgs clock
  quits := fun r => r.status = -1

def main (clock : Nat → Int) (stdin : List Byte) :
    Lists → Except Fault (List (Shown Reply) × Lists) :=
  (listCentre clock).main isDelim INPUT_ARG_MAX_NUM INPUT_BUFFER_SIZE stdin

variable {clock : Nat → Int} {d : Desk} {q : Lists}

theorem called_alike {result : Except Fault (Nat × Desk)} {on : Except Fault (Nat × Lists)}
    (h : Simulates result on) (error : Nat → Option CString) :
    Interpreter.Alike Represents (result.map fun r =>
      (reply (some r.1) (error r.1), r.2)) (called on error) := by
  cases on with
  | error e =>
    rw [show result = .error e from h]
    exact rfl
  | ok r =>
    obtain ⟨d', rfl, rep⟩ := h
    exact ⟨rfl, rep⟩

theorem printed_alike (rep : Represents d q) {α : Type} {x y : Except Fault α} (same : x = y)
    (output : α → Output) :
    Interpreter.Alike Represents (x >>= fun a =>
      .ok (shown (output a), d)) (printed q (y.map output)) := by
  subst same
  cases x with
  | error e => exact rfl
  | ok a => exact ⟨rfl, rep⟩

theorem processArgs_alike (clock : Nat → Int) (argv : List CString) (rep : Represents d q) :
    Interpreter.Alike Represents (CommandLine.processArgs clock argv d)
      (processArgs clock argv q) := by
  match argv with
  | [] => exact ⟨rfl, rep⟩
  | [cmd] =>
    rw [CommandLine.processArgs, processArgs]
    split
    · exact ⟨rfl, rep⟩
    split
    · exact ⟨rfl, rep⟩
    split
    · exact ⟨rfl, rep⟩
    split
    · exact printed_alike rep (printFullQueue_eq rep) Output.fullQueue
    split
    · exact printed_alike rep (printCurrentlyServing_eq rep) Output.currentlyServing
    split
    · exact printed_alike rep (printAllQueues_eq rep) Output.allQueues
    · exact ⟨rfl, rep⟩
  | [cmd, name] =>
    by_cases stats : cmd = text "stats_by_course"
    · subst stats
      rw [processArgs_stats, statsByCourse_eq rep]
      show Interpreter.Alike Represents _ ((statsOf q name).map _)
      cases statsOf q name with
      | error e => exact rfl
      | ok numbers => exact ⟨rfl, rep⟩
    by_cases giveUp : cmd = text "give_up"
    · subst giveUp
      rw [processArgs_giveUp]
      exact called_alike (giveUpWaiting_refines rep name) notWaiting
    by_cases add : cmd = text "add_ta"
    · subst add
      exact ⟨rfl, addTa_represents rep name⟩
    by_cases remove : cmd = text "remove_ta"
    · subst remove
      rw [processArgs_removeTa]
      exact called_alike (removeTa_refines rep name) invalidTa
    by_cases next : cmd = text "next"
    · subst next
      rw [processArgs_next]
      exact called_alike (takeNextOverall_refines rep name) invalidTa
    · rw [CommandLine.processArgs, processArgs, if_neg stats, if_neg giveUp, if_neg add,
        if_neg remove, if_neg next,
        if_neg stats, if_neg giveUp, if_neg add, if_neg remove, if_neg next]
      exact ⟨rfl, rep⟩
  | [cmd, name, code] =>
    by_cases add : cmd = text "add_student"
    · subst add
      rw [processArgs_addStudent]
      exact called_alike (addStudent_refines rep name code) notAdded
    by_cases next : cmd = text "next"
    · subst next
      rw [processArgs_nextCourse]
      exact called_alike (takeNextCourse_refines rep name code) notTaken
    · rw [CommandLine.processArgs, processArgs, if_neg add, if_neg next, if_neg add, if_neg next]
      exact ⟨rfl, rep⟩
  | _ :: _ :: _ :: _ :: _ => exact ⟨rfl, rep⟩

/-- The loop with a block for the name of each new student. -/
def blockCentre (clock : Nat → Int) (block : Desk → Nat → Nat) : Interpreter Desk Fault Reply where
  process := NameBlocks.processArgs clock block
  quits := fun r => r.status = -1

def blockMain (clock : Nat → Int) (block : Desk → Nat → Nat) (stdin : List Byte) :
    Desk → Except Fault (List (Shown Reply) × Desk) :=
  (blockCentre clock block).main isDelim INPUT_ARG_MAX_NUM INPUT_BUFFER_SIZE stdin

/-- A student is added whose name fills its block. -/
def Overfills (clock : Nat → Int) (block : Desk → Nat → Nat) (stdin : List Byte)
    (d : Desk) : Prop :=
  (blockCentre clock block).Meets (NameBlocks.Fills block) ((commandsOf stdin).map bounded) d

instance (clock : Nat → Int) (block : Desk → Nat → Nat) (stdin : List Byte) (d : Desk) :
    Decidable (Overfills clock block stdin d) := inferInstanceAs (Decidable (Interpreter.Meets ..))

theorem blockMain_eq (clock : Nat → Int) (block : Desk → Nat → Nat) (stdin : List Byte) (d : Desk) :
    blockMain clock block stdin d =
      (blockCentre clock block).obey ((commandsOf stdin).map bounded) d := by
  rw [blockMain, Interpreter.main_eq]
  rfl

theorem main_alike (clock : Nat → Int) (block : Desk → Nat → Nat)
    (config : List (CString × CString)) (stdin : List Byte) :
    (Overfills clock block stdin (opened config) ∧
      blockMain clock block stdin (opened config) = .error .overrun) ∨
      (¬ Overfills clock block stdin (opened config) ∧
        Interpreter.Alike Represents (blockMain clock block stdin (opened config))
          (main clock stdin (DeskLists.opened config))) := by
  have stops : ∀ argv d q, Represents d q → NameBlocks.Fills block d argv →
      (blockCentre clock block).process argv d = .error .overrun := fun _ _ _ _ fills =>
    NameBlocks.processArgs_of_fills fills
  have each : ∀ argv d q, Represents d q → ¬ NameBlocks.Fills block d argv →
      Interpreter.Alike Represents ((blockCentre clock block).process argv d)
        ((listCentre clock).process argv q) := by
    intro argv d q rep fits
    have same : (blockCentre clock block).process argv d = CommandLine.processArgs clock argv d :=
      NameBlocks.processArgs_of_fits fits
    rw [same]
    exact processArgs_alike clock argv rep
  have listed : main clock stdin (DeskLists.opened config) =
      (listCentre clock).obey ((commandsOf stdin).map bounded) (DeskLists.opened config) := by
    rw [main, Interpreter.main_eq]
    rfl
  rw [blockMain_eq, listed]
  exact Interpreter.obey_alike (R := Represents) rfl stops each _ (opened_represents config)

/-- Whatever is typed, as long as each name leaves room in its block the help centre prints what
it prints on lists, row by row, and ends with a desk that holds the lists, or it faults at the
same command in the same way; a name that fills its block ends the session there. -/
theorem prints_lists (clock : Nat → Int) (block : Desk → Nat → Nat)
    (config : List (CString × CString)) (stdin : List Byte) :
    (∀ output d, blockMain clock block stdin (opened config) = .ok (output, d) →
      ∃ q, main clock stdin (DeskLists.opened config) = .ok (output, q) ∧ Represents d q) ∧
    ∀ e, blockMain clock block stdin (opened config) = .error e ↔
      (Overfills clock block stdin (opened config) ∧ e = .overrun) ∨
        (¬ Overfills clock block stdin (opened config) ∧
          main clock stdin (DeskLists.opened config) = .error e) := by
  rcases main_alike clock block config stdin with ⟨fills, stopped⟩ | ⟨fits, alike⟩
  · rw [stopped]
    refine ⟨fun _ _ => (nomatch ·), fun e => ?_⟩
    simp [fills, eq_comm]
  · match blockMain clock block stdin (opened config),
      main clock stdin (DeskLists.opened config), alike with
    | .ok (shown, d), .ok (_, q), ⟨rfl, rep⟩ =>
      refine ⟨fun output d' ended => ?_, fun e => by simp [fits]⟩
      obtain ⟨rfl, rfl⟩ := Prod.mk.inj (Except.ok.inj ended)
      exact ⟨q, rfl, rep⟩
    | .error _, .error _, rfl => exact ⟨fun _ _ => (nomatch ·), fun _ => by simp [fits]⟩

/-- Two of three students are taken, and the queues are printed before and after. -/
def evening : List Byte :=
  text "add_ta tim\nadd_student ann CSC209\nadd_student bob CSC108\n" ++
    text "add_student cy CSC209\nprint_full_queue\nnext tim\nnext tim CSC209\n" ++
    text "print_currently_serving\nprint_all_queues\nstats_by_course CSC209\nquit\n"

theorem prints_lists_evening :
    let config := [(text "CSC108", text "intro"), (text "CSC209", text "systems")]
    ∃ output d q, blockMain (fun _ => 0) (fun _ => NameBlocks.usableSize) evening (opened config) =
      .ok (output, d) ∧
      main (fun _ => 0) evening (DeskLists.opened config) = .ok (output, q) ∧ Represents d q := by
  intro config
  have lists := (prints_lists (fun _ => 0) (fun _ => NameBlocks.usableSize) config evening).1
  have ended : ((blockMain (fun _ => 0) (fun _ => NameBlocks.usableSize) evening
      (opened config)).toOption).isSome = true := by
    decide +kernel
  cases out : blockMain (fun _ => 0) (fun _ => NameBlocks.usableSize) evening (opened config) with
  | error e =>
    rw [out] at ended
    cases ended
  | ok p =>
    obtain ⟨q, same, rep⟩ := lists p.1 p.2 out
    exact ⟨p.1, p.2, q, rfl, same, rep⟩

end Session

section Faults

open DeskStatistics (NoStale)

variable {clock : Nat → Int} {q : Lists} {codes : List CString}

/-- No TA points at a released student, and the courses are those of the configuration. -/
structure Calm (codes : List CString) (q : Lists) : Prop where
  fresh : NoStale q
  courses : q.courses.map DeskLists.Course.code = codes

theorem call_returns (clock : Nat → Int) (calm : Calm codes q) (a : Call) :
    ∃ n q', DeskLists.call clock q a = .ok (n, q') := by
  have released : ∀ i, ∃ m, DeskLists.releaseCurrentStudent clock i q = .ok m := by
    intro i
    rw [DeskLists.releaseCurrentStudent]
    cases hold : q.holdOf i with
    | idle => exact ⟨q, rfl⟩
    | serving s => exact ⟨_, rfl⟩
    | released x => exact absurd hold (calm.fresh.holdOf x)
  cases a with
  | addStudent name code => exact ⟨_, _, rfl⟩
  | giveUpWaiting name => exact ⟨_, _, rfl⟩
  | addTa name => exact ⟨_, _, rfl⟩
  | removeTa name =>
    rw [DeskLists.call, DeskLists.removeTa]
    cases q.findTa name with
    | none => exact ⟨1, q, rfl⟩
    | some i =>
      obtain ⟨m, done⟩ := released i
      exact ⟨0, _, by simp only [done]; rfl⟩
  | takeNextOverall taName =>
    rw [DeskLists.call, DeskLists.takeNextOverall]
    cases q.findTa taName with
    | none => exact ⟨1, q, rfl⟩
    | some i =>
      obtain ⟨m, done⟩ := released i
      simp only [done, bind, Except.bind]
      cases m.queue <;> exact ⟨_, _, rfl⟩
  | takeNextCourse taName code =>
    rw [DeskLists.call, DeskLists.takeNextCourse]
    cases q.findTa taName with
    | none => exact ⟨1, q, rfl⟩
    | some i =>
      obtain ⟨m, done⟩ := released i
      simp only [done, bind, Except.bind]
      cases m.findCourse code with
      | none => exact ⟨_, _, rfl⟩
      | some c =>
        dsimp only
        cases m.queue.find? fun s => s.course == c <;> exact ⟨_, _, rfl⟩

theorem Calm.call (calm : Calm codes q) {a : Call}
    (overall : ∀ taName code, a ≠ .takeNextCourse taName code) {n : Nat} {q' : Lists}
    (made : DeskLists.call clock q a = .ok (n, q')) : Calm codes q' := by
  refine ⟨(DeskStatistics.noStale_iff calm.fresh (DeskLists.call_cases made)).mpr fun forgets => ?_,
    (DeskStatistics.codes_kept clock codes).call calm.courses made⟩
  cases a with
  | takeNextCourse taName code => exact overall taName code rfl
  | _ => exact forgets

theorem called_returns (calm : Calm codes q) (a : Call)
    (overall : ∀ taName code, a ≠ .takeNextCourse taName code) (error : Nat → Option CString) :
    ∃ r q', called (DeskLists.call clock q a) error = .ok (r, q') ∧ r.status = 0 ∧
      Calm codes q' := by
  obtain ⟨n, q', made⟩ := call_returns clock calm a
  exact ⟨_, q', by rw [made]; rfl, rfl, calm.call overall made⟩

theorem serving_returns (calm : Calm codes q) : ∃ rows, currentlyServing q = .ok rows := by
  have each : ∀ l : List DeskLists.Ta, (∀ t ∈ l, t ∈ q.staff) →
    ∃ rows, l.mapM (servingOf q) = .ok rows := by
    intro l sub
    induction l with
    | nil => exact ⟨[], rfl⟩
    | cons t l ih =>
      obtain ⟨here, later⟩ := List.forall_mem_cons.mp sub
      obtain ⟨rows, done⟩ := ih later
      rw [List.mapM_cons, done, servingOf]
      cases hold : t.hold with
      | idle => exact ⟨_, rfl⟩
      | serving s => exact ⟨_, rfl⟩
      | released x => exact absurd hold (calm.fresh t here x)
  exact each q.staff fun t mem => mem

theorem helped_returns (calm : Calm codes q) (c : Nat) : ∃ k, countHelped c q.staff = .ok k := by
  have each : ∀ l : List DeskLists.Ta, (∀ t ∈ l, t ∈ q.staff) → ∃ k, countHelped c l = .ok k := by
    intro l sub
    induction l with
    | nil => exact ⟨0, rfl⟩
    | cons t l ih =>
      obtain ⟨here, later⟩ := List.forall_mem_cons.mp sub
      obtain ⟨k, done⟩ := ih later
      rw [countHelped, done, helpsIn]
      cases hold : t.hold with
      | idle => exact ⟨_, rfl⟩
      | serving s => exact ⟨_, rfl⟩
      | released x => exact absurd hold (calm.fresh t here x)
  exact each q.staff fun t mem => mem

/-- The statistics of the courses that there are can be printed, and of no other. -/
theorem stats_returns_iff (calm : Calm codes q) (code : CString) :
    (∃ numbers, statsOf q code = .ok numbers) ↔ code ∈ codes := by
  have known : code ∈ codes ↔ ∃ c, q.findCourse code = some c := by
    rw [← calm.courses, ← Option.isSome_iff_exists, Lists.findCourse, List.findIdx?_isSome,
      List.any_eq_true]
    simp
  rw [known, statsOf]
  cases found : q.findCourse code with
  | none => simp
  | some c =>
    obtain ⟨k, done⟩ := helped_returns calm c
    have low := lt_of_findCourse found
    have there : q.courses[c]? = some q.courses[c] := List.getElem?_eq_getElem low
    simp [done, there, bind, Except.bind]

/-- Without a `next` for one course, a command of a calm session returns, unless it asks for the
statistics of a course that there is not. -/
theorem processArgs_returns (clock : Nat → Int) (calm : Calm codes q) {argv : List CString}
    (notQuit : argv ≠ [text "quit"]) (overall : ∀ taName code, argv ≠ [text "next", taName, code])
    (known : ∀ code, argv = [text "stats_by_course", code] → code ∈ codes) :
    ∃ r q', processArgs clock argv q = .ok (r, q') ∧ r.status = 0 ∧ Calm codes q' := by
  match argv with
  | [] => exact ⟨_, q, rfl, rfl, calm⟩
  | [cmd] =>
    rw [processArgs]
    split
    · next quit => exact absurd (by rw [quit]) notQuit
    split
    · exact ⟨_, q, rfl, rfl, calm⟩
    split
    · exact ⟨_, q, rfl, rfl, calm⟩
    split
    · exact ⟨_, q, rfl, rfl, calm⟩
    split
    · obtain ⟨rows, done⟩ := serving_returns calm
      exact ⟨_, q, by rw [done]; rfl, rfl, calm⟩
    split
    · exact ⟨_, q, rfl, rfl, calm⟩
    · exact ⟨_, q, rfl, rfl, calm⟩
  | [cmd, name] =>
    rw [processArgs]
    split
    · next stats =>
      obtain ⟨numbers, done⟩ := (stats_returns_iff calm name).mpr (known name (by rw [stats]))
      exact ⟨_, q, by rw [done]; rfl, rfl, calm⟩
    split
    · exact called_returns calm (.giveUpWaiting name) (by simp) notWaiting
    split
    · have made : DeskLists.call clock q (.addTa name) = .ok (0, DeskLists.hire q name) := rfl
      exact ⟨_, _, rfl, rfl, calm.call (by simp) made⟩
    split
    · exact called_returns calm (.removeTa name) (by simp) invalidTa
    split
    · exact called_returns calm (.takeNextOverall name) (by simp) invalidTa
    · exact ⟨_, q, rfl, rfl, calm⟩
  | [cmd, name, code] =>
    rw [processArgs]
    split
    · exact called_returns calm (.addStudent name code) (by simp) notAdded
    split
    · next next => exact absurd (by rw [next]) (overall name code)
    · exact ⟨_, q, rfl, rfl, calm⟩
  | _ :: _ :: _ :: _ :: _ => exact ⟨_, q, rfl, rfl, calm⟩

/-- The commands of a session that are obeyed. -/
def obeyed (stdin : List Byte) : List (List CString) :=
  (commandsOf stdin).takeWhile (· ≠ [text "quit"])

theorem obey_returns_iff (commands : List (List CString)) (calm : Calm codes q)
    (overall : ∀ argv ∈ commands.takeWhile (· ≠ [text "quit"]), ∀ taName code,
      argv ≠ [text "next", taName, code]) :
    (∃ output q', (listCentre clock).obey (commands.map bounded) q = .ok (output, q')) ↔
      ∀ code, [text "stats_by_course", code] ∈ commands.takeWhile (· ≠ [text "quit"]) →
        code ∈ codes := by
  induction commands generalizing q with
  | nil => simp [Interpreter.obey]
  | cons argv later ih =>
    by_cases quit : argv = [text "quit"]
    · subst quit
      have ends : (listCentre clock).obey (([text "quit"] :: later).map bounded) q =
          .ok ([.reply { reply none none with status := -1 }], q) := by
        simp [Interpreter.obey, listCentre, processArgs, bounded, INPUT_ARG_MAX_NUM, reply]
      exact iff_of_true ⟨_, _, ends⟩ (by simp)
    · have goes_on : (argv :: later).takeWhile (· ≠ [text "quit"]) =
        argv :: later.takeWhile (· ≠ [text "quit"]) := by
        rw [List.takeWhile_cons_of_pos (by simpa using quit)]
      rw [goes_on] at overall ⊢
      obtain ⟨here, behind⟩ := List.forall_mem_cons.mp overall
      -- a line that is passed over, or has too many words
      have passed : (∀ code, argv ≠ [text "stats_by_course", code]) →
          ((∃ output q', (listCentre clock).obey (later.map bounded) q = .ok (output, q')) ↔
            ∀ code, [text "stats_by_course", code] ∈ argv :: later.takeWhile (· ≠ [text "quit"]) →
              code ∈ codes) := by
        intro other
        rw [ih calm behind]
        simp only [List.mem_cons, (other _).symm, false_or]
      rw [List.map_cons]
      by_cases long : argv.length ≤ INPUT_ARG_MAX_NUM
      · rw [bounded, if_pos long]
        by_cases nonempty : argv = []
        · subst nonempty
          exact passed (by simp)
        by_cases known : ∀ code, argv = [text "stats_by_course", code] → code ∈ codes
        · obtain ⟨r, m, first, zero, kept⟩ := processArgs_returns clock calm quit here known
          rw [Interpreter.obey_ok_iff nonempty first (by simp [listCentre, zero]), ih kept behind]
          simp only [List.mem_cons]
          exact ⟨fun all code mem => mem.elim (fun eq => known code eq.symm) (all code),
            fun all code mem => all code (.inr mem)⟩
        · push Not at known
          obtain ⟨code, rfl, unknown⟩ := known
          refine iff_of_false ?_ fun all => unknown (all code List.mem_cons_self)
          rintro ⟨output, q', ran⟩
          have fails : ∀ numbers, statsOf q code ≠ .ok numbers := fun numbers done =>
            unknown ((stats_returns_iff calm code).mp ⟨numbers, done⟩)
          cases stats : statsOf q code with
          | ok numbers => exact fails numbers stats
          | error e => simp [Interpreter.obey, listCentre, processArgs, stats, Except.map] at ran
      · have longer : bounded argv = none := by rw [bounded, if_neg long]
        rw [longer]
        refine Iff.trans ?_ (passed fun code eq => long (eq ▸ Nat.le_succ 2))
        rw [Interpreter.obey]
        cases (listCentre clock).obey (later.map bounded) q with
        | error e => simp
        | ok p => exact iff_of_true ⟨_, _, rfl⟩ ⟨p.1, p.2, rfl⟩

/-- In a session in which nobody asks for the next student of one course, the only commands that
fault are those that add a student whose name fills its block, and those for the statistics of a
course that is not in the configuration. -/
theorem returns_iff (clock : Nat → Int) (block : Desk → Nat → Nat)
    (config : List (CString × CString)) (stdin : List Byte)
    (overall : ∀ argv ∈ obeyed stdin, ∀ taName code, argv ≠ [text "next", taName, code]) :
    (∃ output d, blockMain clock block stdin (opened config) = .ok (output, d)) ↔
      ¬ Overfills clock block stdin (opened config) ∧
        ∀ code, [text "stats_by_course", code] ∈ obeyed stdin →
          ∃ description, (code, description) ∈ config := by
  have calm : Calm (config.map Prod.fst) (DeskLists.opened config) := by
    refine ⟨by simp [NoStale, DeskLists.opened], ?_⟩
    rw [DeskLists.opened, List.map_map]
    rfl
  rcases main_alike clock block config stdin with ⟨fills, stopped⟩ | ⟨fits, alike⟩
  · simp [stopped, fills]
  · have known :
        (∀ code, [text "stats_by_course", code] ∈ obeyed stdin → code ∈ config.map Prod.fst) ↔
        ∀ code, [text "stats_by_course", code] ∈ obeyed stdin →
          ∃ description, (code, description) ∈ config := by
      simp only [List.mem_map, Prod.exists, exists_and_right, exists_eq_right]
    rw [alike.ok_iff, main, Interpreter.main_eq, and_iff_right fits, ← known]
    exact obey_returns_iff (commandsOf stdin) calm overall

theorem returns_iff_unknown :
    ¬ ∃ output d, blockMain (fun _ => 0) (fun _ => NameBlocks.usableSize)
      (text "add_ta tim\nadd_student ann CSC209\nstats_by_course CSC999\n")
      (opened [(text "CSC209", text "systems")]) = .ok (output, d) := by
  have typed : obeyed (text "add_ta tim\nadd_student ann CSC209\nstats_by_course CSC999\n") =
      [[text "add_ta", text "tim"], [text "add_student", text "ann", text "CSC209"],
        [text "stats_by_course", text "CSC999"]] := by decide +kernel
  rw [returns_iff (fun _ => 0) _ [(text "CSC209", text "systems")] _ (by rw [typed]; simp; decide)]
  rintro ⟨_, all⟩
  obtain ⟨description, mem⟩ := all (text "CSC999") (by rw [typed]; simp)
  have same := (Prod.mk.inj (List.mem_singleton.mp mem)).1
  exact absurd same (by decide)

end Faults

end ListSessions
