import CSC209.A4.HelpCentre
import CSC209.A4.ServerInvariant

/-!
# The server serves in the order of arrival

The server and the interpreter of `helpcentre.c` drive the same queue. Here a
run of the server is put beside the command lines that its steps stand for: a
role, a course, a `next` or a departure of some client. The history of these
commands tells who came, who was taken and who left, and the clients that the
server calls carry the names of those taken, in the order of their arrival.
-/

namespace ServerHistories

open CStrings HelpQueue InputBuffer HaltingRuns HelpServer
open HelpCentre (History Ledger)

/-- What the removal of a client does to the queue. -/
def departure (c : Client) : Option (List CString) :=
  match c.type, c.name with
  | .student, some name => some [text "give_up", name]
  | .ta, some name => some [text "remove_ta", name]
  | _, _ => none

/-- What a line of a client does to the queue. -/
def request (c : Client) (command : CString) : Option (List CString) :=
  match c.state, c.name with
  | .waitingType, some name => if command = text "T" then some [text "add_ta", name] else none
  | .waitingSCourse, some name =>
    if ∃ k ∈ courses, command = k.code then some [text "add_student", name, command] else none
  | .waitingTCommand, some name => if command = text "next" then some [text "next", name] else none
  | _, _ => none

/-- The command line that a step of the server stands for. -/
def commandOf (s : Server) (e : Event) : Option (List CString) :=
  match removed s with
  | some c => departure c
  | none => (line s e).bind fun r => request r.1 r.2

/-- Whom a `next` writes to: what is written, and the name of the client. -/
def calledNow (s : Server) (e : Event) (t : Server) : List (CString × Option CString) :=
  if (commandOf s e).bind List.head? = some (text "next") then
    (t.sent.drop s.sent.length).map fun m => (m.2,
        (s.clientList.find? fun c => c.id = m.1).bind Client.name)
  else []

/-- The server, the command lines behind its queue, and the clients that were called. -/
structure Chronicle where
  server : Server
  commands : List (List CString)
  called : List (CString × Option CString)

def step (s : Chronicle) (e : Event) : Except Halt Chronicle := do
  let server ← s.server.step e
  .ok ⟨server, s.commands ++ (commandOf s.server e).toList, s.called ++ calledNow s.server e server⟩

def start (listenFd : Int) : Chronicle := ⟨HelpServer.start listenFd, [], []⟩

def Legal (s : Chronicle) (e : Event) : Prop := HelpServer.Legal s.server e

instance (s : Chronicle) (e : Event) : Decidable (Legal s e) :=
  inferInstanceAs (Decidable (HelpServer.Legal _ _))

def Chronicle.history (s : Chronicle) : History := History.after s.commands

section Steps

variable {s t : Server} {e : Event} {c : Client} {name command : CString} {past : History}

theorem departure_withdrawn (queue : Queue) (hn : c.name = some name) :
    c.withdrawn name queue = (departure c).elim queue fun argv =>
      (HelpCentre.processArgs queue argv).1 := by
  cases ht : c.type with
  | notSet => simp [departure, ht, withdrawn_notSet name queue ht]
  | student =>
    rw [withdrawn_student name queue ht]
    simp only [departure, ht, hn, Option.elim_some]
    rfl
  | ta =>
    rw [withdrawn_ta name queue ht]
    simp only [departure, ht, hn, Option.elim_some]
    rfl

theorem execute_queue (h : s.execute e c command = .ok t) (active : c.state ≠ .disconnect) :
    t.queue = (request c command).elim s.queue fun argv =>
      (HelpCentre.processArgs s.queue argv).1 := by
  unfold Server.execute at h
  cases hs : c.state with
  | waitingName =>
    simp only [hs] at h
    obtain rfl := written h
    simp [request, hs]
  | waitingType =>
    simp only [hs] at h
    split at h
    · next student =>
      obtain rfl := written h
      have other : text "S" ≠ text "T" := by decide
      cases hn : c.name <;> simp [request, hs, hn, student, other]
    split at h
    · next ta =>
      obtain ⟨name, used, h⟩ := bind_ok_iff.mp h
      obtain rfl := written h
      simp only [request, hs, useName_ok.mp used, if_pos ta, Option.elim_some]
      rfl
    · next notS notT =>
      obtain ⟨_, rfl⟩ := write_ok h
      cases hn : c.name <;> simp [request, hs, hn, notT]
  | waitingSCourse =>
    simp only [hs] at h
    split at h
    · next valid =>
      obtain ⟨name, used, h⟩ := bind_ok_iff.mp h
      obtain rfl := written h
      simp only [request, hs, useName_ok.mp used, if_pos valid, Option.elim_some]
      rfl
    · next invalid =>
      obtain rfl := written h
      cases hn : c.name with
      | none => simp [request, hs, hn]
      | some name => simp only [request, hs, hn, if_neg invalid, Option.elim_none, modify_queue]
  | waitingSCommand =>
    simp only [hs] at h
    split at h
    all_goals
      obtain ⟨_, rfl⟩ := write_ok h
      simp [request, hs]
  | waitingTCommand =>
    simp only [hs] at h
    split at h
    · next stats =>
      obtain ⟨_, rfl⟩ := write_ok h
      have other : text "stats" ≠ text "next" := by decide
      cases hn : c.name <;> simp [request, hs, hn, stats, other]
    split at h
    · next next =>
      simp only [bind_ok_iff] at h
      obtain ⟨u, hcall, name, used, h⟩ := h
      obtain rfl := Except.ok.inj h
      have same : u.queue = s.queue := by
        obtain ⟨_, rfl⟩ | ⟨_, _, _, _, _, rfl⟩ := callStudent_ok hcall <;> rfl
      simp only [request, hs, useName_ok.mp used, if_pos next, Option.elim_some, same]
      rfl
    · next notStats notNext =>
      obtain ⟨_, rfl⟩ := write_ok h
      cases hn : c.name <;> simp [request, hs, hn, notNext]
  | disconnect => exact absurd hs active

theorem commandOf_silent (stays : removed s = none) (silent : line s e = none) :
    commandOf s e = none := by
  simp [commandOf, stays, silent]

/-- The queue after a step is the queue after the command that the step stands for. -/
theorem step_queue (h : s.step e = .ok t) :
    t.queue = (commandOf s e).elim s.queue fun argv => (HelpCentre.processArgs s.queue argv).1 := by
  cases outcome_of_step h with
  | selected ready hr =>
    have unserved : served s = none := by simp [served, hr]
    rw [commandOf_silent (by simp [removed, unserved]) (by simp [line, reads, unserved])]
    rfl
  | accepted rest client hr =>
    have unserved : served s = none := by simp [served, hr]
    rw [commandOf_silent (by simp [removed, unserved]) (by simp [line, reads, unserved])]
    rfl
  | removed fd rest c name queue hr hl hf gone hclose hn hq =>
    rw [commandOf, gone]
    exact hq.trans (departure_withdrawn s.queue hn)
  | waited fd rest c input hr hl hf heard hw =>
    rw [commandOf_silent (removed_of_reads heard) (by simp [line, heard, hw])]
    rfl
  | executed fd rest c input w u hr hl hf heard hw hle run =>
    have said : line s e = some (c, input.command w) := by simp [line, heard, hw]
    obtain ⟨fd', rest', hr', _, turn⟩ := step_line heard hw
    rw [h] at turn
    obtain ⟨v, made, ended⟩ := bind_ok_iff.mp turn.symm
    split at ended
    · cases ended
    have after := execute_queue made (active_of_reads heard)
    rw [commandOf, removed_of_reads heard, said]
    exact (congrArg Server.queue (Except.ok.inj ended)).symm.trans after

theorem departure_head {argv : List CString} (said : departure c = some argv) :
    argv.head? ≠ some (text "next") := by
  unfold departure at said
  split at said
  · obtain rfl := Option.some.inj said
    exact show some (text "give_up") ≠ some (text "next") by decide
  · obtain rfl := Option.some.inj said
    exact show some (text "remove_ta") ≠ some (text "next") by decide
  · cases said

theorem request_head {argv : List CString} (said : request c command = some argv)
    (next : argv.head? = some (text "next")) :
    c.state = .waitingTCommand ∧ command = text "next" ∧ ∃ name, c.name = some name ∧
    argv = [text "next", name] := by
  unfold request at said
  split at said
  · split at said
    · obtain rfl := Option.some.inj said
      exact absurd next (show some (text "add_ta") ≠ some (text "next") by decide)
    · cases said
  · split at said
    · obtain rfl := Option.some.inj said
      exact absurd next (show some (text "add_student") ≠ some (text "next") by decide)
    · cases said
  · next name hs hn =>
    split at said
    · next asked =>
      obtain rfl := Option.some.inj said
      exact ⟨hs, asked, name, hn, rfl⟩
    · cases said
  · cases said

/-- A `next` writes to nobody if nobody waits, and else to one client with the name at the head of
the queue. -/
theorem execute_next (h : s.execute e c (text "next") = .ok t) (ta : c.state = .waitingTCommand) :
    (s.queue.stuList = [] ∧ t.sent = s.sent) ∨ ∃ x rest o, s.queue.stuList = x :: rest ∧
    o ∈ s.clientList ∧
      o.name = some x.name ∧ t.sent = s.sent ++ [(o.id, STU_ACCEPT_MSG)] := by
  cases executed_of_ok h (by simp [ta]) with
  | named hs => simp [hs] at ta
  | student hs => simp [hs] at ta
  | ta _ hs => simp [hs] at ta
  | enrolled _ hs => simp [hs] at ta
  | refused hs => simp [hs] at ta
  | replied msg _ _ other => exact absurd ⟨ta, rfl⟩ other
  | idle name _ _ hn empty => exact .inl ⟨empty, rfl⟩
  | called name x rest o _ _ hn waiting found =>
    obtain ⟨before, after, list, _, named, _⟩ := findClientStudent_found found
    exact .inr ⟨x, rest, o, waiting, by simp [list], named, rfl⟩

theorem taken_next (past : History) (listed : name ∈ past.queue.taList.map Ta.name) :
    (past.command [text "next", name]).taken =
      past.taken ++ HelpCentre.left past.queue.stuList past.queue.stuList.tail := by
  have queue : (past.queue.nextOverall name).2.stuList = past.queue.stuList.tail :=
    nextOverall_stuList name past.queue.toLists listed
  rw [← queue]
  rfl

theorem calledNow_next (said : commandOf s e = some [text "next", name]) (t : Server) :
    calledNow s e t = (t.sent.drop s.sent.length).map fun m =>
      (m.2, (s.clientList.find? fun c => c.id = m.1).bind Client.name) := by
  rw [calledNow, said]
  exact if_pos rfl

/-- A client is found by its number. -/
theorem find_client (inv : Inv s) (hc : c ∈ s.clientList) :
    (s.clientList.find? fun d => d.id = c.id) = some c := by
  cases found : s.clientList.find? fun d => d.id = c.id with
  | none => simpa using List.find?_eq_none.mp found c hc
  | some d =>
    have same : d.id = c.id := by simpa using List.find?_some found
    rw [client_unique inv.ids hc (List.mem_of_find?_eq_some found) same]

/-- Those whom a step calls are those whom its command takes from the queue. -/
theorem step_called (inv : Inv s) (l : Ledger past) (same : past.queue = s.queue)
    (h : s.step e = .ok t) :
    ∃ new, ((commandOf s e).elim past past.command).taken = past.taken ++ new ∧
      (∀ i ∈ new, i < past.calls.length) ∧
      calledNow s e t = new.map fun i => (STU_ACCEPT_MSG, (past.calls[i]?).map Prod.fst) := by
  cases said : commandOf s e with
  | none => exact ⟨[], by simp, by simp, by simp [calledNow, said]⟩
  | some argv =>
    by_cases next : argv.head? = some (text "next")
    · cases gone : removed s with
      | some c =>
        rw [commandOf, gone] at said
        exact absurd next (departure_head said)
      | none =>
        have stands := said
        rw [commandOf, gone] at said
        obtain ⟨⟨c, command⟩, spoke, asked⟩ := Option.bind_eq_some_iff.mp said
        obtain ⟨ta, rfl, name, hn, rfl⟩ := request_head asked next
        obtain ⟨input, w, heard, hw, hcommand⟩ := line_some spoke
        obtain ⟨fd, rest, hr, hf, turn⟩ := step_line heard hw
        rw [h, hcommand] at turn
        obtain ⟨u, made, ended⟩ := bind_ok_iff.mp turn.symm
        split at ended
        · cases ended
        obtain rfl := Except.ok.inj ended
        obtain ⟨hc, live⟩ := findClient_mem hf
        have listed : name ∈ past.queue.taList.map Ta.name :=
          same ▸ inv.listed hc live ((inv.consistent c hc).ta ta) hn
        refine ⟨_, taken_next past listed, fun i mem => ?_, (calledNow_next stands _).trans ?_⟩
        · obtain ⟨x, waits, rfl⟩ := List.mem_map.mp mem
          have waiting : x ∈ past.queue.stuList := (List.mem_filter.mp waits).1
          exact l.recorded ▸ past.queue.students_old x (List.mem_append_left _ waiting)
        rw [same]
        rcases execute_next made ta with ⟨empty, silent⟩ | ⟨x, later, o, waiting, ho, named, sent⟩
        · have nobody : s.queue.stuList = [] := empty
          have quiet : (u.setInput c (input.shifted w).pointed).sent = s.sent := silent
          rw [nobody, quiet, List.drop_length]
          rfl
        · have first : s.queue.stuList = x :: later := waiting
          have written : (u.setInput c (input.shifted w).pointed).sent = s.sent ++
            [(o.id, STU_ACCEPT_MSG)] := sent
          have nodup : ((x :: later).map Student.id).Nodup := by
            have all := s.queue.valid.students
            rw [first, List.map_append] at all
            exact all.of_append_left
          have recorded : past.calls[x.id]? = some (x.name, x.course.code) :=
            l.identity x (by simp [same, first])
          have gone : HelpCentre.left (x :: later) later = [x.id] :=
            HelpCentre.left_middle [] x later nodup
          rw [first, List.tail_cons, gone, written, List.drop_left]
          simp [find_client inv ho, named, recorded]
    · refine ⟨[], ?_, by simp, ?_⟩
      · simp [History.command, History.observe, next]
      · simp [calledNow, said, next]

end Steps

section Runs

variable {s t : Chronicle} {e : Event} {listenFd : Int}

theorem server_reachable (reached : Reachable step Legal (start listenFd) s) :
    Reachable Server.step HelpServer.Legal (HelpServer.start listenFd) s.server := by
  induction reached with
  | start => exact .start
  | next e _ legal h ih =>
    obtain ⟨server, moved, h⟩ := bind_ok_iff.mp h
    obtain rfl := Except.ok.inj h
    exact .next e ih legal moved

/-- The commands and the calls of a chronicle are those of its queue. -/
structure Kept (s : Chronicle) : Prop where
  queue : s.history.queue = s.server.queue
  called :
  s.called = s.history.taken.map fun i => (STU_ACCEPT_MSG, (s.history.calls[i]?).map Prod.fst)

theorem history_append (commands : List (List CString)) (said : Option (List CString)) :
    History.after (commands ++ said.toList) =
      said.elim (History.after commands) (History.after commands).command := by
  cases said with
  | none => simp
  | some argv => simp [History.after, List.foldl_append]

/-- Nobody who has been added is forgotten. -/
theorem calls_grow (past : History) (said : Option (List CString)) :
    past.calls <+: (said.elim past past.command).calls := by
  cases said with
  | none => exact List.prefix_rfl
  | some argv => exact List.prefix_append _ _

theorem Kept.step (kept : Kept s) (inv : HelpServer.Inv s.server)
    (h : ServerHistories.step s e = .ok t) : Kept t := by
  obtain ⟨server, moved, h⟩ := bind_ok_iff.mp h
  obtain rfl := Except.ok.inj h
  have l : Ledger s.history := HelpCentre.ledger_after s.commands
  obtain ⟨new, taken, known, now⟩ := step_called inv l kept.queue moved
  have after : History.after (s.commands ++ (commandOf s.server e).toList) =
      (commandOf s.server e).elim s.history s.history.command := history_append _ _
  refine ⟨?_, ?_⟩
  · rw [Chronicle.history, after]
    refine Eq.trans ?_ (step_queue moved).symm
    rw [← kept.queue]
    cases commandOf s.server e <;> rfl
  · have same : ∀ i ∈ s.history.taken ++ new,
        ((commandOf s.server e).elim s.history s.history.command).calls[i]? =
          s.history.calls[i]? := by
      intro i mem
      have low : i < s.history.calls.length := by
        rcases List.mem_append.mp mem with old | fresh
        · exact l.recorded ▸ l.number_lt (List.mem_append_left _ old)
        · exact known i fresh
      obtain ⟨more, grown⟩ := calls_grow s.history (commandOf s.server e)
      rw [← grown, List.getElem?_append_left low]
    rw [Chronicle.history, after, taken, kept.called, now, ← List.map_append]
    exact List.map_congr_left fun i mem => by rw [same i mem]

/-- In every state that the server reaches, its queue is the one that `helpcentre` has after the
same commands. The clients that it has called, each with the message that it is their turn, have
the names of the students who were taken, and these were taken in the order in which they came:
everyone who was ever entered into the queue has one place, and nobody who waits came before
somebody who was called. -/
theorem calls_in_order (reached : Reachable step Legal (start listenFd) s) :
    s.history.queue = s.server.queue ∧
      s.called =
        s.history.taken.map (fun i => (STU_ACCEPT_MSG, (s.history.calls[i]?).map Prod.fst)) ∧
      s.history.taken.Pairwise (· < ·) ∧
      (∀ i ∈ s.history.taken, ∀ x ∈ s.server.queue.stuList, i < x.id) ∧
      (∀ i < s.history.calls.length, ∃! p, s.history.At i p) ∧
      ∀ x ∈ s.server.queue.stuList ++ serving s.server.queue.taList,
        s.history.calls[x.id]? = some (x.name, x.course.code) := by
  have kept : Kept s := by
    induction reached with
    | start => exact ⟨rfl, rfl⟩
    | next e before legal h ih => exact ih.step (inv_reachable (server_reachable before)) h
  have l : Ledger s.history := HelpCentre.ledger_after s.commands
  have places : ∀ i < s.history.calls.length, ∃! p, s.history.At i p := by
    intro i low
    obtain ⟨p, there⟩ := l.place_exists (l.recorded ▸ low)
    exact ⟨p, there, fun r other => l.place_unique other there⟩
  obtain ⟨taken, _, apart⟩ := List.pairwise_append.mp l.order
  refine ⟨kept.queue, kept.called, taken, fun i mem x waits => ?_, places, ?_⟩
  · exact apart i mem x.id (List.mem_map_of_mem (kept.queue ▸ waits))
  · rw [← kept.queue]
    exact l.identity

/-- Three students come. The first one types too much and is removed, and the others are called. -/
def rush : List Event :=
  let comes :=
    fun fd name => connects fd ++ sends fd name ++ sends fd (text "S") ++ sends fd (text "CSC209")
  comes 4 (text "ann") ++ comes 5 (text "bob") ++ connects 6 ++ sends 6 (text "tim") ++
    sends 6 (text "T") ++
    visits 4 { quiet with bytes := some (List.replicate 40 65) } ++ visits 4 quiet ++
      sends 6 (text "next") ++
    comes 7 (text "cy") ++ sends 6 (text "next")

def rushCommands : List (List CString) :=
  [[text "add_student", text "ann", text "CSC209"], [text "add_student", text "bob", text "CSC209"],
    [text "add_ta", text "tim"], [text "give_up", text "ann"], [text "next", text "tim"],
    [text "add_student", text "cy", text "CSC209"], [text "next", text "tim"]]

theorem calls_in_order_rush : ∃ s, Reachable step Legal (start 3) s ∧ s.commands = rushCommands ∧
    s.called = [(STU_ACCEPT_MSG, some (text "bob")), (STU_ACCEPT_MSG, some (text "cy"))] ∧
    s.history.taken.Pairwise (· < ·) ∧ s.history.taken = [1, 2] ∧ ∃! p, s.history.At 0 p := by
  obtain ⟨s, ran, commands, called⟩ :
      ∃ s, run step (start 3) rush = .ok s ∧ (s.commands = rushCommands ∧
      s.called = [(STU_ACCEPT_MSG, some (text "bob")), (STU_ACCEPT_MSG, some (text "cy"))]) :=
    exists_of_run (by decide +kernel)
  have reached : Reachable step Legal (start 3) s := reachable_of_run (by decide +kernel) ran
  obtain ⟨_, _, order, _, places, _⟩ := calls_in_order reached
  have taken : s.history.taken = [1, 2] := by
    rw [Chronicle.history, commands]
    decide +kernel
  have three : s.history.calls.length = 3 := by
    rw [Chronicle.history, commands]
    decide +kernel
  exact ⟨s, reached, commands, called, order, taken, places 0 (by omega)⟩

end Runs

end ServerHistories
