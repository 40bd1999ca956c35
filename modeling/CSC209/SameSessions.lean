import CSC209.A2.ListSessions
import CSC209.A4.CentreSessions
import CSC209.SameQueue

/-!
# One session at two help centres

The interpreters of A2 and of A4 read the same bytes. On the command lines that
mean the same to both, and as long as every string goes into its block, they
show the same messages, print the same queues and end with the same lists on
their heaps. `give_up` is not one of these lines, since a student of A2 who
gives up stays in the list, nor is what only A2 has.
-/

namespace SameSessions

open CStrings StreamIO CommandLoop QueueBoard HelpCentre
open CentreSessions (Centre Mirrors Fresh builtFrom)
open ListSessions (Calm)

section Shared

/-- The first word and the number of words of the lines that mean something else, or nothing, to
A4. -/
def unshared : List (CString × Nat) :=
  [(text "quit", 1), (text "help", 1), (text "sleep", 1), (text "print_all_queues", 1),
    (text "stats_by_course", 2), (text "give_up", 2), (text "next", 3)]

def Shared (argv : List CString) : Prop := ∀ cmd ∈ argv.head?, (cmd, argv.length) ∉ unshared

instance (argv : List CString) : Decidable (Shared argv) :=
  inferInstanceAs (Decidable (∀ cmd ∈ argv.head?, _))

/-- What A4 builds where A2 prints the rows. -/
def linesOf : CommandLine.Output → List CString
  | .fullQueue rows => text "Full Queue\r\n" :: rows.map fun r =>
      StatusReplies.studentString ⟨0, r.name, ⟨r.code⟩⟩
  | .currentlyServing rows =>
    if rows = [] then [StatusReplies.noTaMsg]
    else rows.map fun r => StatusReplies.taString ⟨0, r.1, r.2.map fun s => ⟨0, s.1, ⟨s.2⟩⟩⟩
  | _ => []

def alreadyWaiting : CString := text "This student is already in the queue."

def invalidCourse : CString := text "Invalid Course -- student not added."

/-- The same lines and the same message. Only a student who waits already and names a course that
there is not is refused for the course by A2 and for the name by A4. -/
structure Matches (r : CommandLine.Reply) (r' : CentreSessions.Reply) : Prop where
  built : r'.built = linesOf r.output
  error : r'.error = r.error ∨ r.error = some invalidCourse ∧ r'.error = some alreadyWaiting

end Shared

/-- On the same line, A2 replies `r` and goes on with `q'` as A4 does on its own lists. -/
structure Follows (past : History) (argv : List CString) (r : CommandLine.Reply)
  (q' : DeskLists.Lists) : Prop where
  fits : Matches r ⟨(HelpCentre.processArgs past.queue argv).2, builtFrom past.queue.toLists argv⟩
  boards :
  deskBoard (courses.map HelpQueue.Course.code) q' = listBoard (past.command argv).queue.toLists

section Calls

variable {clock : Nat → Int} {q q' : DeskLists.Lists} {past : History} {queue : HelpQueue.Queue}
  {c : Command} {n : Nat} {argv : List CString} {r : CommandLine.Reply} {name code : CString}
  {message : Nat → Option CString}

theorem called_follows (c : Command) (old : Nat) (message' : Nat → Option CString)
    (known : q.courses.map DeskLists.Course.code = courses.map HelpQueue.Course.code)
    (boards : deskBoard (courses.map HelpQueue.Course.code) q = listBoard past.queue.toLists)
    (after : queue.toLists = (c.onHeap.onLists courses old past.queue.toLists).2)
    (does : HelpCentre.processArgs past.queue argv =
      (queue, message' (c.onHeap.onLists courses old past.queue.toLists).1))
    (unprinted : builtFrom past.queue.toLists argv = [])
    (fits : ∀ n q', DeskLists.call clock q c.onDesk = .ok (n, q') →
      (n = 0 ↔ (c.onHeap.onLists courses old past.queue.toLists).1 = 0) →
      message' (c.onHeap.onLists courses old past.queue.toLists).1 = message n ∨
        message n = some invalidCourse ∧
        message' (c.onHeap.onLists courses old past.queue.toLists).1 = some alreadyWaiting)
    (made : ListSessions.called (DeskLists.call clock q c.onDesk) message = .ok (r, q')) :
    Follows past argv r q' := by
  cases called : DeskLists.call clock q c.onDesk with
  | error e => simp [ListSessions.called, called, Except.map] at made
  | ok p =>
    obtain ⟨rfl, rfl⟩ : CommandLine.reply (some p.1) (message p.1) = r ∧ p.2 = q' := by
      simpa [ListSessions.called, called, Except.map] using made
    obtain ⟨succeeds, board⟩ := deskBoard_call known called
    obtain ⟨succeeds', board'⟩ := listBoard_call courses old past.queue.toLists c
    rw [boards] at succeeds board
    refine ⟨⟨unprinted, ?_⟩, ?_⟩
    · rw [does]
      exact fits p.1 p.2 called (succeeds.trans succeeds'.symm)
    · have command : (past.command argv).queue = (HelpCentre.processArgs past.queue argv).1 := rfl
      rw [command, does, after]
      exact board.trans board'.symm

/-- For a TA both versions return 0 or 1. -/
theorem ta_result (notAdd : ∀ name code, c ≠ .addStudent name code)
    (h : DeskLists.call clock q c.onDesk = .ok (n, q'))
    (old : Nat) (past : HelpQueue.Lists) : n ≤ 1 ∧ (c.onHeap.onLists courses old past).1 ≤ 1 := by
  constructor
  · cases c with
    | addStudent name code => exact absurd rfl (notAdd name code)
    | addTa name => cases DeskLists.call_cases h <;> omega
    | removeTa name => cases DeskLists.call_cases h <;> omega
    | next taName => cases DeskLists.call_cases h <;> omega
  · cases c with
    | addStudent name code => exact absurd rfl (notAdd name code)
    | addTa name => exact Nat.zero_le 1
    | removeTa name =>
      rcases HelpQueue.removeTa_cases name past with ⟨_, eq⟩ | ⟨_, _, _, _, _, _, eq⟩
      all_goals simp [Command.onHeap, QueueHeap.Call.onLists, eq]
    | next taName =>
      rcases HelpQueue.nextOverall_cases taName past with ⟨_, eq⟩ | ⟨_, _, _, _, _, _, eq⟩
      all_goals simp [Command.onHeap, QueueHeap.Call.onLists, eq]

theorem ta_fits (notAdd : ∀ name code, c ≠ .addStudent name code)
    (h : DeskLists.call clock q c.onDesk = .ok (n, q')) (old : Nat) (past : HelpQueue.Lists)
    (same : n = 0 ↔ (c.onHeap.onLists courses old past).1 = 0) :
    (c.onHeap.onLists courses old past).1 = n := by
  obtain ⟨low, low'⟩ := ta_result notAdd h old past
  omega

theorem add_fits (known : q.courses.map DeskLists.Course.code = courses.map HelpQueue.Course.code)
    (h : DeskLists.call clock q (.addStudent name code) = .ok (n, q')) (old : Nat)
    (past : HelpQueue.Lists)
    (same : n = 0 ↔ (HelpQueue.addStudent courses old name code past).1 = 0) :
    CentreSessions.notAdded (HelpQueue.addStudent courses old name code past).1 =
      ListSessions.notAdded n ∨
      ListSessions.notAdded n = some invalidCourse ∧
        CentreSessions.notAdded (HelpQueue.addStudent courses old name code past).1 =
          some alreadyWaiting := by
  have there : q.findCourse code = none ↔ HelpQueue.findCourse courses code = none := by
    have courses_eq := congrArg (code ∉ ·) known
    simpa [DeskLists.Lists.findCourse, HelpQueue.findCourse] using courses_eq
  rcases HelpQueue.addStudent_cases courses old name code past with
      ⟨_, eq⟩ | ⟨_, unknown, eq⟩ | ⟨_, _, _, eq⟩
  · rw [eq] at same ⊢
    cases DeskLists.call_cases h with
    | unknownCourse => exact .inr ⟨rfl, rfl⟩
    | alreadyWaiting => exact .inl rfl
    | added => simp at same
    | unknownTa => exact .inl rfl
  · rw [eq] at same ⊢
    cases DeskLists.call_cases h with
    | unknownCourse => exact .inl rfl
    | alreadyWaiting _ _ c s found => simp [there.mpr unknown] at found
    | added _ _ c found => simp [there.mpr unknown] at found
    | unknownTa _ _ none => cases none
  · rw [eq] at same ⊢
    have zero : n = 0 := same.mpr rfl
    subst zero
    exact .inl rfl

end Calls

section Prints

variable {q : DeskLists.Lists} {codes : List CString}

theorem waiting_rows (known : q.courses.map DeskLists.Course.code = codes)
    (l : List DeskLists.Student) :
    (ListSessions.fullQueueFrom q l).map (fun r => (r.name, r.code)) = l.map fun s =>
    (s.name, codes[s.course]?.getD []) := by
  induction l with
  | nil => rfl
  | cons s rest ih =>
    have code : ListSessions.codeOf q s.course = codes[s.course]?.getD [] := by
      rw [← known, List.getElem?_map]
      rfl
    rw [ListSessions.fullQueueFrom, List.map_cons, List.map_cons, ih, code]

theorem staff_rows {l : List DeskLists.Ta} {rows : List (CString × Option (CString × CString))}
    (read : l.mapM (ListSessions.servingOf q) = .ok rows) :
    rows.map (fun r => (r.1, r.2.map Prod.fst)) = l.map staffEntry := by
  induction l generalizing rows with
  | nil =>
    obtain rfl := Except.ok.inj read
    rfl
  | cons t l ih =>
    rw [List.mapM_cons] at read
    obtain ⟨row, first, read⟩ := HaltingRuns.bind_ok_iff.mp read
    obtain ⟨later, others, read⟩ := HaltingRuns.bind_ok_iff.mp read
    obtain rfl := Except.ok.inj read
    have here : (row.1, row.2.map Prod.fst) = staffEntry t := by
      rw [ListSessions.servingOf] at first
      cases hold : t.hold with
      | idle =>
        obtain rfl : (t.name, none) = row := by simpa [hold] using first
        simp [staffEntry, hold, DeskLists.Hold.served]
      | serving s =>
        obtain rfl : (t.name, some (s.name, ListSessions.codeOf q s.course)) = row := by
          simpa [hold] using first
        simp [staffEntry, hold, DeskLists.Hold.served]
      | released a => simp [hold] at first
    rw [List.map_cons, List.map_cons, here, ih others]

variable {past : History}

theorem fullQueue_matches (known : q.courses.map DeskLists.Course.code = codes)
    (boards : deskBoard codes q = listBoard past.queue.toLists) :
    (StatusReplies.Reply.fullQueue past.queue.stuList).lines = linesOf
    (.fullQueue (ListSessions.fullQueue q)) := by
  have rows : (ListSessions.fullQueue q).map (fun r => (r.name, r.code)) =
      past.queue.stuList.map fun s => (s.name, s.course.code) :=
    (waiting_rows known q.queue).trans (congrArg Board.waiting boards)
  have lines := congrArg (List.map fun w => StatusReplies.studentString ⟨0, w.1, ⟨w.2⟩⟩) rows
  rw [List.map_map, List.map_map] at lines
  exact congrArg (text "Full Queue\r\n" :: ·) lines.symm

theorem currentlyServing_matches {rows : List (CString × Option (CString × CString))}
    (read : ListSessions.currentlyServing q = .ok rows)
    (boards : deskBoard codes q = listBoard past.queue.toLists) :
    (StatusReplies.Reply.currentlyServing past.queue.taList).lines = linesOf
    (.currentlyServing rows) := by
  have same : rows.map (fun r => (r.1, r.2.map Prod.fst)) = past.queue.taList.map taEntry :=
    (staff_rows read).trans (congrArg Board.staff boards)
  have lines := congrArg
    (List.map fun t => StatusReplies.taString ⟨0, t.1, t.2.map fun name => ⟨0, name, ⟨[]⟩⟩⟩) same
  rw [List.map_map, List.map_map] at lines
  have desk :
      rows.map (fun r => StatusReplies.taString ⟨0, r.1, r.2.map fun s => ⟨0, s.1, ⟨s.2⟩⟩⟩) =
      past.queue.taList.map StatusReplies.taString := by
    refine Eq.trans (List.map_congr_left fun r _ => ?_)
      (lines.trans (List.map_congr_left fun t _ => ?_))
    · cases serves : r.2 <;> simp [StatusReplies.taString, serves]
    · cases serves : t.currentStudent <;> simp [StatusReplies.taString, taEntry, serves]
  cases staff : past.queue.taList with
  | nil =>
    rw [staff] at desk
    simp [linesOf, List.map_eq_nil_iff.mp desk, StatusReplies.Reply.lines]
  | cons t rest =>
    rw [staff] at desk
    have some_row : rows ≠ [] := by
      rintro rfl
      cases desk
    rw [linesOf, if_neg some_row, desk, StatusReplies.Reply.lines]

end Prints

section Steps

variable {clock : Nat → Int} {q q' : DeskLists.Lists} {past : History} {argv : List CString}
  {r : CommandLine.Reply}

/-- A line that both refuse. -/
theorem refused_follows
    (boards : deskBoard (courses.map HelpQueue.Course.code) q = listBoard past.queue.toLists)
    (does : HelpCentre.processArgs past.queue argv = (past.queue, some (text "Incorrect syntax.")))
    (unprinted : builtFrom past.queue.toLists argv = [])
    (refused : ListSessions.processArgs clock argv q = .ok (CommandLine.incorrectSyntax, q))
    (made : ListSessions.processArgs clock argv q = .ok (r, q')) : Follows past argv r q' := by
  obtain ⟨rfl, rfl⟩ := Prod.mk.inj (Except.ok.inj (refused.symm.trans made))
  have command : (past.command argv).queue = (HelpCentre.processArgs past.queue argv).1 := rfl
  refine ⟨⟨unprinted, .inl ?_⟩, ?_⟩
  · rw [does]
    rfl
  · rw [command, does]
    exact boards

/-- A shared line does to the lists of A2 what it does to those of A4. -/
theorem processArgs_follows
    (known : q.courses.map DeskLists.Course.code = courses.map HelpQueue.Course.code)
    (boards : deskBoard (courses.map HelpQueue.Course.code) q = listBoard past.queue.toLists)
    (shared : Shared argv)
    (made : ListSessions.processArgs clock argv q = .ok (r, q')) : Follows past argv r q' := by
  match argv with
  | [] =>
    obtain ⟨rfl, rfl⟩ := Prod.mk.inj (Except.ok.inj made)
    exact ⟨⟨rfl, .inl rfl⟩, boards⟩
  | [cmd] =>
    have other : cmd ≠ text "quit" ∧ cmd ≠ text "help" ∧ cmd ≠ text "sleep" ∧
      cmd ≠ text "print_all_queues" := by
      simpa [Shared, unshared] using shared
    obtain ⟨quit, help, sleep, all⟩ := other
    by_cases full : cmd = text "print_full_queue"
    · subst full
      have shows : ListSessions.processArgs clock [text "print_full_queue"] q =
          .ok (CommandLine.shown (.fullQueue (ListSessions.fullQueue q)), q) := rfl
      obtain ⟨rfl, rfl⟩ := Prod.mk.inj (Except.ok.inj (shows.symm.trans made))
      exact ⟨⟨fullQueue_matches known boards, .inl rfl⟩, boards⟩
    by_cases serving : cmd = text "print_currently_serving"
    · subst serving
      have shows : ListSessions.processArgs clock [text "print_currently_serving"] q =
          (ListSessions.currentlyServing q).map fun rows =>
            (CommandLine.shown (.currentlyServing rows), q) := by
        rw [ListSessions.processArgs, ListSessions.printed]
        cases ListSessions.currentlyServing q <;> rfl
      rw [shows] at made
      cases read : ListSessions.currentlyServing q with
      | error e => simp [read, Except.map] at made
      | ok rows =>
        obtain ⟨rfl, rfl⟩ : CommandLine.shown (.currentlyServing rows) = r ∧ q = q' := by
          simpa [read, Except.map] using made
        exact ⟨⟨currentlyServing_matches read boards, .inl rfl⟩, boards⟩
    · refine refused_follows boards ?_ ?_ ?_ made
      · simp [HelpCentre.processArgs, full, serving]
      · simp [builtFrom, full, serving]
      · simp [ListSessions.processArgs, quit, help, sleep, all, full, serving]
  | [cmd, name] =>
    have unprinted : builtFrom past.queue.toLists [cmd, name] = [] := by simp [builtFrom]
    have other : cmd ≠ text "stats_by_course" ∧ cmd ≠ text "give_up" := by
      simpa [Shared, unshared] using shared
    obtain ⟨stats, giveUp⟩ := other
    by_cases addTa : cmd = text "add_ta"
    · subst addTa
      obtain ⟨rfl, rfl⟩ := Prod.mk.inj (Except.ok.inj made)
      have hired :
          DeskLists.call clock q (Command.addTa name).onDesk = .ok (0, DeskLists.hire q name) := rfl
      obtain ⟨_, board⟩ := deskBoard_call known hired
      obtain ⟨_, board'⟩ :=
        listBoard_call courses past.queue.nextTa past.queue.toLists (.addTa name)
      rw [boards] at board
      exact ⟨⟨unprinted, .inl rfl⟩, board.trans board'.symm⟩
    by_cases removeTa : cmd = text "remove_ta"
    · subst removeTa
      refine called_follows
        (.removeTa name) 0 CentreSessions.invalidTa known boards rfl rfl unprinted
        (fun n q' made same => .inl ?_) made
      rw [ta_fits (fun _ _ => by simp) made 0 _ same]
      rfl
    by_cases next : cmd = text "next"
    · subst next
      refine called_follows (.next name) 0 CentreSessions.invalidTa known boards rfl rfl unprinted
        (fun n q' made same => .inl ?_) made
      rw [ta_fits (fun _ _ => by simp) made 0 _ same]
      rfl
    · refine refused_follows boards ?_ unprinted ?_ made
      · simp [HelpCentre.processArgs, giveUp, addTa, removeTa, next]
      · simp [ListSessions.processArgs, stats, giveUp, addTa, removeTa, next]
  | [cmd, name, code] =>
    have unprinted : builtFrom past.queue.toLists [cmd, name, code] = [] := by simp [builtFrom]
    have next : cmd ≠ text "next" := by simpa [Shared, unshared] using shared
    by_cases add : cmd = text "add_student"
    · subst add
      exact called_follows (.addStudent name code) past.queue.nextStudent CentreSessions.notAdded
        known boards rfl rfl unprinted
        (fun n q' made same => add_fits known made _ _ same) made
    · refine refused_follows boards ?_ unprinted ?_ made
      · simp [HelpCentre.processArgs, add]
      · simp [ListSessions.processArgs, add, next]
  | _ :: _ :: _ :: _ :: _ => exact refused_follows boards rfl (by simp [builtFrom]) rfl made

end Steps

section Runs

variable {clock : Nat → Int} {usable : HelpDesk.Desk → Nat → Nat} {malloc : Centre → QueueHeap.Addr}
  {block : Centre → Nat → List Byte} {d : HelpDesk.Desk} {c : Centre}

/-- The nodes of A2 and those of A4 hold lists that read alike. -/
def Twins (d : HelpDesk.Desk) (c : Centre) : Prop :=
  ∃ q past r, DeskReading.Represents d q ∧ Calm (courses.map HelpQueue.Course.code) q ∧
    Mirrors c past r ∧
    deskBoard (courses.map HelpQueue.Course.code) q = listBoard past.queue.toLists

theorem Twins.step (clock : Nat → Int) (fresh : Fresh malloc) (twins : Twins d c)
    {argv : List CString} (shared : Shared argv)
    (fits : ¬ NameBlocks.Fills usable d argv) (fits' : ¬ CentreSessions.Spills block c argv) :
    ∃ r d' r' c', NameBlocks.processArgs clock usable argv d = .ok (r, d') ∧
      CentreSessions.processArgs malloc block c argv = .ok (r', c') ∧ r.status = 0 ∧ Matches r r' ∧
      Twins d' c' := by
  obtain ⟨q, past, l, rep, calm, mirrors, boards⟩ := twins
  have notQuit : argv ≠ [text "quit"] := by
    rintro rfl
    exact absurd shared (by decide)
  have noCourse : ∀ taName code, argv ≠ [text "next", taName, code] := by
    rintro taName code rfl
    simp [Shared, unshared] at shared
  have noStats :
      ∀ code, argv = [text "stats_by_course", code] → code ∈ courses.map HelpQueue.Course.code := by
    rintro code rfl
    simp [Shared, unshared] at shared
  obtain ⟨r, q', made, zero, calm'⟩ :=
    ListSessions.processArgs_returns clock calm notQuit noCourse noStats
  obtain ⟨c', l', made', mirrors'⟩ := mirrors.shows fresh argv fits'
  have follows := processArgs_follows calm.courses boards shared made
  have alike := ListSessions.processArgs_alike clock argv rep
  rw [made] at alike
  rw [NameBlocks.processArgs_of_fits fits]
  match on_desk : CommandLine.processArgs clock argv d, alike with
  | .ok (_, d'), ⟨rfl, rep'⟩ =>
    exact ⟨r, d', _, c', rfl, made', zero, follows.fits, q', _, l', rep', calm', mirrors',
      follows.boards⟩

theorem listBoard_anonymous (r : HelpQueue.Lists) :
    listBoard (CentreSessions.anonymous r) = listBoard r := by
  simp only [listBoard, CentreSessions.anonymous, List.map_map]
  congr 1
  refine List.map_congr_left fun t _ => ?_
  cases serves : t.currentStudent <;>
    simp [taEntry, CentreSessions.anonymousTa, CentreSessions.anonymousStudent, serves]

theorem Twins.same (twins : Twins d c) : SameQueue.Same d c.heap := by
  obtain ⟨q, past, r, rep, calm, mirrors, boards⟩ := twins
  have boards' : deskBoard (courses.map HelpQueue.Course.code) q = listBoard r := by
    rw [boards, ← listBoard_anonymous, ← mirrors.same, listBoard_anonymous]
  have students :
      ∀ s ∈ r.stuList, SameQueue.heapStudent c.heap s.id = some (s.name, s.course.code) := by
    intro s mem
    have node := mirrors.represents.students s (List.mem_append_left _ mem)
    obtain ⟨n, live, named, course⟩ := CentreSessions.node_of_known node (mirrors.known s mem)
    simp [SameQueue.heapStudent, live, named, course]
  exact {
    waiting := ⟨(listBoard r).waiting, boards' ▸ LinkedChain.reads_map rep.overall fun _ =>
        SameQueue.deskStudent_eq rep calm.courses,
      LinkedChain.reads_map mirrors.represents.stuChain students⟩
    staff := ⟨(listBoard r).staff,
      boards' ▸ LinkedChain.reads_map rep.staff fun _ => SameQueue.deskTa_eq rep calm.fresh,
      LinkedChain.reads_map mirrors.represents.taChain fun _ =>
        SameQueue.heapTa_eq mirrors.represents⟩ }

theorem opened_twins {config : List (CString × CString)}
    (known : config.map Prod.fst = courses.map HelpQueue.Course.code) :
    Twins (HelpDesk.opened config) Centre.opened := by
  refine ⟨_, History.start, ⟨[], []⟩, DeskRefinement.opened_represents config,
    ⟨by simp [DeskStatistics.NoStale, DeskLists.opened], ?_⟩, CentreSessions.opened_mirrors, rfl⟩
  rw [← known, DeskLists.opened, List.map_map]
  rfl

/-- A student who waits already is refused, and so is a course that there is not. -/
def afternoon : List Byte :=
  text "add_ta tim\nadd_student ann CSC209\nadd_student bob CSC108\n" ++
    text "add_student ann CSC999\nprint_full_queue\nnext tim\nremove_ta sue\n" ++
    text "print_currently_serving\nadd_ta sue\nnext sue now please\nnext tim\n"

end Runs

end SameSessions
