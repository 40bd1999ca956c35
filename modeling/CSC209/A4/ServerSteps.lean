import CSC209.A4.HelpServer
import CSC209.HaltingRuns

/-!
# What a step of the server can do

`served`, `removed` and `line` read off a state and the kernel's answers which
client a step works on and with which command. `Outcome` lists, with their
guards, all the ways in which a step can end in a next state; every later
argument about the server goes through it and no longer unfolds `step`.
-/

namespace HelpServer

open CStrings HelpQueue InputBuffer HaltingRuns

/-- The client whose descriptor comes next in the loop. -/
def served (s : Server) : Option Client :=
  match s.readFdSet with
  | [] => none
  | fd :: _ => if fd = s.listenFd then none else (findClient fd s.clientList).toOption.join

/-- The client that this turn removes. -/
def removed (s : Server) : Option Client :=
  (served s).filter fun c => c.state = .disconnect ∨ INPUT_BUFFER_SIZE ≤ c.input.inbuf

/-- The client that reads in this turn, and its buffer after the read. -/
def reads (s : Server) (e : Event) : Option (Client × Input) :=
  (served s).bind fun c =>
    if c.state = .disconnect ∨ INPUT_BUFFER_SIZE ≤ c.input.inbuf then none
    else e.bytes.map fun bytes => (c, c.input.received (bytes.take c.input.room.toNat))

/-- The client and the command that it completes in this turn. -/
def line (s : Server) (e : Event) : Option (Client × CString) :=
  (reads s e).bind fun r => r.2.newline.map fun w => (r.1, r.2.command w)

/-- The ways in which a command is executed. -/
inductive Executed (e : Event) (c : Client) (command : CString) (s : Server) : Server → Prop where
  | named : c.state = .waitingName →
      Executed e c command s (({ s with sent := s.sent ++ [(c.id, TYPE_MSG)] } : Server).modify c.id
        fun d => { d with name := some command, state := .waitingType })
  | student : c.state = .waitingType → command = text "S" →
      Executed e c command s
        (({ s with sent := s.sent ++ [(c.id, VALID_COURSES_MSG)] } : Server).modify c.id
          fun d => { d with type := .student, state := .waitingSCourse })
  | ta (name : CString) : c.state = .waitingType → command = text "T" → c.name = some name →
      Executed e c command s (({ s with
          sent := s.sent ++ [(c.id, TA_COMMANDS_MSG)]
          queue := s.queue.addTa name } : Server).modify c.id fun d =>
        { d with type := .ta, state := .waitingTCommand, taEntry := some s.queue.nextTa })
  | enrolled (name : CString) : c.state = .waitingSCourse → (∃ k ∈ courses, command = k.code) →
      c.name = some name →
      Executed e c command s (({ s with
          sent := s.sent ++ [(c.id, STU_QUEUE_MSG)]
          queue := (s.queue.addStudent courses name command).2 } : Server).modify c.id fun d =>
        { d with
          state := .waitingSCommand
          chosen := some command
          entry := if (s.queue.addStudent courses name command).1 = 0 then some s.queue.nextStudent
            else none })
  | refused : c.state = .waitingSCourse → (¬ ∃ k ∈ courses, command = k.code) →
      Executed e c command s (({ s with sent := s.sent ++ [(c.id, STU_INVALID_COURSE_MSG)] } :
        Server).modify c.id fun d => { d with state := .disconnect })
  | replied (msg : CString) : c.state ≠ .waitingName → c.state ≠ .waitingSCourse →
      ¬ (c.state = .waitingTCommand ∧ command = text "next") →
      Executed e c command s { s with sent := s.sent ++ [(c.id, msg)] }
  | idle (name : CString) : c.state = .waitingTCommand → command = text "next" →
      c.name = some name → s.queue.stuList = [] →
      Executed e c command s { s with queue := (s.queue.nextOverall name).2 }
  | called (name : CString) (student : Student) (rest : List Student) (toServe : Client) :
      c.state = .waitingTCommand → command = text "next" → c.name = some name →
      s.queue.stuList = student :: rest →
      findClientStudent student s.clientList = .ok (some toServe) →
      Executed e c command s { ({ s with sent := s.sent ++ [(toServe.id, STU_ACCEPT_MSG)] } :
          Server).modify toServe.id (fun d => { d with state := .disconnect }) with
        queue := (s.queue.nextOverall name).2 }

section Inversion

variable {e : Event} {s t : Server} {c : Client}

theorem write_ok {msg : CString} (h : s.write e c msg = .ok t) :
    (0 ≤ c.socket ∧ e.writes c.socket = true) ∧ t = { s with sent := s.sent ++ [(c.id, msg)] } := by
  unfold Server.write at h
  split at h
  · rename_i hw
    exact ⟨hw, (Except.ok.inj h).symm⟩
  · cases h

theorem write_error {msg : CString} {h : Halt} (hw : s.write e c msg = .error h) : h = .exit := by
  unfold Server.write at hw
  split at hw
  · cases hw
  · exact (Except.error.inj hw).symm

theorem useName_ok {name : CString} : c.useName = .ok name ↔ c.name = some name := by
  unfold Client.useName
  cases c.name <;> simp

/-- What is done behind a message finds it sent. -/
theorem written {msg : CString} {f : Server → Server}
    (h : (s.write e c msg >>= fun u => .ok (f u)) = .ok t) :
    t = f { s with sent := s.sent ++ [(c.id, msg)] } := by
  obtain ⟨u, hw, h⟩ := bind_ok_iff.mp h
  obtain ⟨_, rfl⟩ := write_ok hw
  exact (Except.ok.inj h).symm

/-- Nobody waits, or the client with the name of the student in front is told to come. -/
theorem callStudent_ok (h : s.callStudent e = .ok t) :
    (s.queue.stuList = [] ∧ t = s) ∨
      ∃ student rest toServe, s.queue.stuList = student :: rest ∧
        findClientStudent student s.clientList = .ok (some toServe) ∧
        t = ({ s with sent := s.sent ++ [(toServe.id, STU_ACCEPT_MSG)] } : Server).modify
          toServe.id fun d => { d with state := .disconnect } := by
  unfold Server.callStudent at h
  split at h
  · next empty => exact .inl ⟨empty, (Except.ok.inj h).symm⟩
  · next student rest waiting =>
    obtain ⟨found, hfound, h⟩ := bind_ok_iff.mp h
    cases found with
    | none => cases h
    | some toServe => exact .inr ⟨student, rest, toServe, waiting, hfound, written h⟩

theorem executed_of_ok {command : CString} (h : s.execute e c command = .ok t)
    (active : c.state ≠ .disconnect) : Executed e c command s t := by
  unfold Server.execute at h
  cases hs : c.state with
  | waitingName =>
    simp only [hs] at h
    exact written h ▸ .named hs
  | waitingType =>
    simp only [hs] at h
    split at h
    · rename_i student
      exact written h ▸ .student hs student
    split at h
    · rename_i ta
      obtain ⟨name, hn, h⟩ := bind_ok_iff.mp h
      exact written h ▸ .ta name hs ta (useName_ok.mp hn)
    · obtain ⟨_, rfl⟩ := write_ok h
      exact .replied _ (by simp [hs]) (by simp [hs]) (by simp [hs])
  | waitingSCourse =>
    simp only [hs] at h
    split at h
    · rename_i valid
      obtain ⟨name, hn, h⟩ := bind_ok_iff.mp h
      exact written h ▸ .enrolled name hs valid (useName_ok.mp hn)
    · rename_i invalid
      exact written h ▸ .refused hs invalid
  | waitingSCommand =>
    simp only [hs] at h
    split at h
    · obtain ⟨_, rfl⟩ := write_ok h
      exact .replied _ (by simp [hs]) (by simp [hs]) (by simp [hs])
    · obtain ⟨_, rfl⟩ := write_ok h
      exact .replied _ (by simp [hs]) (by simp [hs]) (by simp [hs])
  | waitingTCommand =>
    simp only [hs] at h
    split at h
    · rename_i stats
      obtain ⟨_, rfl⟩ := write_ok h
      exact .replied _ (by simp [hs]) (by simp [hs])
        fun hn => absurd (stats.symm.trans hn.2) (by decide)
    split at h
    · rename_i next
      simp only [bind_ok_iff] at h
      obtain ⟨u, hcall, name, hn, h⟩ := h
      have named := useName_ok.mp hn
      obtain ⟨empty, rfl⟩ | ⟨student, rest, toServe, waiting, hfound, rfl⟩ := callStudent_ok hcall
      · exact Except.ok.inj h ▸ .idle name hs next named empty
      · exact Except.ok.inj h ▸ .called name student rest toServe hs next named waiting hfound
    · rename_i other
      obtain ⟨_, rfl⟩ := write_ok h
      exact .replied _ (by simp [hs]) (by simp [hs]) (fun hn => other hn.2)
  | disconnect => exact absurd hs active

end Inversion

/-- The queue once a client of that name and of the type of `c` has withdrawn. -/
def Client.withdrawn (c : Client) (name : CString) (queue : Queue) : Queue :=
  match c.type with
  | .notSet => queue
  | .student => (queue.giveUpWaiting name).2
  | .ta => (queue.removeTa name).2

section Withdrawal

variable {c : Client} (name : CString) (queue : Queue)

theorem withdrawn_notSet (ht : c.type = .notSet) : c.withdrawn name queue = queue := by
  rw [Client.withdrawn, ht]

theorem withdrawn_student (ht : c.type = .student) :
    c.withdrawn name queue = (queue.giveUpWaiting name).2 := by
  rw [Client.withdrawn, ht]

theorem withdrawn_ta (ht : c.type = .ta) : c.withdrawn name queue = (queue.removeTa name).2 := by
  rw [Client.withdrawn, ht]

/-- Only a student client takes an entry off the waiting list. -/
theorem withdrawn_stuList (other : c.type ≠ .student) :
    (c.withdrawn name queue).stuList = queue.stuList := by
  cases ht : c.type with
  | notSet => rw [withdrawn_notSet name queue ht]
  | student => exact absurd ht other
  | ta =>
    rw [withdrawn_ta name queue ht]
    exact (Queue.removeTa_sublist name queue.toLists).1

/-- Only a TA client takes an entry off the TA list. -/
theorem withdrawn_taList (other : c.type ≠ .ta) :
    (c.withdrawn name queue).taList = queue.taList := by
  cases ht : c.type with
  | notSet => rw [withdrawn_notSet name queue ht]
  | student =>
    rw [withdrawn_student name queue ht]
    exact (Queue.giveUpWaiting_sublist name queue.toLists).2
  | ta => exact absurd ht other

end Withdrawal

/-- The ways in which a step ends in a next state. -/
inductive Outcome (s : Server) (e : Event) : Server → Prop where
  | selected (ready : List Int) : s.readFdSet = [] →
      Outcome s e { s with readFdSet := s.activeFdSet.filter fun fd => fd ∈ ready }
  | accepted (rest : List Int) (client : Client) : s.readFdSet = s.listenFd :: rest →
      (∀ c ∈ s.clientList, c.freed = false) → 0 ≤ e.accepted → e.accepted < FD_SETSIZE →
      client = { id := s.nextClient, state := .waitingName, socket := e.accepted,
                 input := Input.start (e.block.getD 0 NUL) (e.block.getD 1 NUL), name := none,
                 type := .notSet, freed := false, chosen := none, entry := none, taEntry := none } →
      Outcome s e { s with
        readFdSet := rest
        clientList := s.clientList ++ [client]
        nextClient := s.nextClient + 1
        openFds := s.openFds ++ [(e.accepted, s.nextClient)]
        sent := s.sent ++ [(s.nextClient, WELCOME_MSG)]
        activeFdSet := if e.accepted ∈ s.activeFdSet then s.activeFdSet
          else s.activeFdSet.orderedInsert (· ≤ ·) e.accepted }
  | removed (fd : Int) (rest : List Int) (c : Client) (name : CString) (queue : Queue) :
      s.readFdSet = fd :: rest → fd ≠ s.listenFd → findClient fd s.clientList = .ok (some c) →
      removed s = some c → e.closes = true → c.name = some name →
      queue = c.withdrawn name s.queue →
      Outcome s e { s with
        readFdSet := rest
        clientList := (Server.unlink c s.clientList).map fun d =>
          if d.id = c.id then { d with freed := true } else d
        queue := queue
        openFds := s.openFds.filter fun o => o.1 ≠ fd
        activeFdSet := s.activeFdSet.filter fun a => a ≠ fd }
  | waited (fd : Int) (rest : List Int) (c : Client) (input : Input) :
      s.readFdSet = fd :: rest → fd ≠ s.listenFd → findClient fd s.clientList = .ok (some c) →
      reads s e = some (c, input) → input.newline = none →
      Outcome s e (({ s with readFdSet := rest } : Server).setInput c input.pointed)
  | executed (fd : Int) (rest : List Int) (c : Client) (input : Input) (w : Nat) (u : Server) :
      s.readFdSet = fd :: rest → fd ≠ s.listenFd → findClient fd s.clientList = .ok (some c) →
      reads s e = some (c, input) → input.newline = some w → w ≤ input.inbuf →
      Executed e c (input.command w) { s with readFdSet := rest } u →
      Outcome s e (u.setInput c (input.shifted w).pointed)

section Inversion

variable {e : Event} {s t : Server} {fd : Int} {rest : List Int} {c : Client}

/-- `find_client` stops at the first node with that socket, after nodes that are all live. -/
theorem findClient_found {l : List Client} (hf : findClient fd l = .ok (some c)) :
    ∃ before after, l = before ++ c :: after ∧ c.freed = false ∧ c.socket = fd ∧
      ∀ b ∈ before, b.freed = false ∧ b.socket ≠ fd := by
  induction l with
  | nil => cases hf
  | cons d rest ih =>
    unfold findClient at hf
    split at hf
    · cases hf
    rename_i live
    split at hf
    · rename_i here
      obtain rfl : d = c := by simpa using hf
      exact ⟨[], rest, rfl, by simpa using live, here, by simp⟩
    · rename_i elsewhere
      obtain ⟨before, after, rfl, hc, hs, hb⟩ := ih hf
      refine ⟨d :: before, after, rfl, hc, hs, ?_⟩
      intro b hm
      rcases List.mem_cons.mp hm with rfl | hm
      · exact ⟨by simpa using live, elsewhere⟩
      · exact hb b hm

theorem findClient_socket {l : List Client} (hf : findClient fd l = .ok (some c)) :
    c.socket = fd := by
  obtain ⟨_, _, _, _, hs, _⟩ := findClient_found hf
  exact hs

theorem served_eq (hr : s.readFdSet = fd :: rest) (hl : fd ≠ s.listenFd)
    (hf : findClient fd s.clientList = .ok (some c)) : served s = some c := by
  simp [served, hr, hl, hf, Except.toOption]

theorem removed_eq (hr : s.readFdSet = fd :: rest) (hl : fd ≠ s.listenFd)
    (hf : findClient fd s.clientList = .ok (some c))
    (kicked : c.state = .disconnect ∨ INPUT_BUFFER_SIZE ≤ c.input.inbuf) : removed s = some c := by
  rw [removed, served_eq hr hl hf, Option.filter_some]
  simp [kicked]

theorem cleanUp_ok {name : CString} (hn : c.name = some name) :
    s.cleanUp c = .ok (c.withdrawn name s.queue) := by
  unfold Server.cleanUp Client.withdrawn
  cases c.type <;> simp [useName_ok.mpr hn, bind, Except.bind]

theorem removeClient_ok (h : s.removeClient e fd = .ok t)
    (hf : findClient fd s.clientList = .ok (some c)) :
    ∃ name queue, e.closes = true ∧ c.name = some name ∧
      queue = c.withdrawn name s.queue ∧
      t = { s with
        clientList := (Server.unlink c s.clientList).map fun d =>
          if d.id = c.id then { d with freed := true } else d
        queue := queue
        openFds := s.openFds.filter fun o => o.1 ≠ fd
        activeFdSet := s.activeFdSet.filter fun a => a ≠ fd } := by
  simp only [Server.removeClient, hf, bind_ok_iff, Except.ok.injEq, exists_eq_left'] at h
  obtain ⟨queue, hq, name, hn, h⟩ := h
  have named := useName_ok.mp hn
  rw [cleanUp_ok named, Except.ok.injEq] at hq
  split at h
  · rename_i closes
    exact ⟨name, queue, closes, named, hq.symm, (Except.ok.inj h).symm⟩
  · cases h

theorem outcome_of_step (h : s.step e = .ok t) : Outcome s e t := by
  unfold Server.step at h
  cases hr : s.readFdSet with
  | nil =>
    simp only [hr] at h
    cases hready : e.ready with
    | none => simp [hready] at h
    | some ready =>
      simp only [hready, Except.ok.injEq] at h
      exact h ▸ .selected ready hr
  | cons fd rest =>
    simp only [hr, Server.serve] at h
    split at h
    · rename_i listening
      subst listening
      simp only [bind_ok_iff, Server.addClient] at h
      obtain ⟨u, hadd, hset⟩ := h
      split at hadd
      · cases hadd
      rename_i clean
      obtain ⟨_, rfl⟩ := write_ok hadd
      unfold Server.fdSet at hset
      split at hset
      · rename_i range
        have live : ∀ c ∈ s.clientList, c.freed = false := by simpa using clean
        exact Except.ok.inj hset ▸ .accepted rest _ hr live range.1 range.2 rfl
      · cases hset
    rename_i hl
    simp only [bind_ok_iff] at h
    obtain ⟨found, hf, h⟩ := h
    cases found with
    | none => cases h
    | some c =>
    simp only at h
    have turn := served_eq hr hl hf
    split at h
    · rename_i left
      obtain ⟨name, queue, hclose, hn, hq, rfl⟩ := removeClient_ok h hf
      exact .removed fd rest c name queue hr hl hf (removed_eq hr hl hf (Or.inl left)) hclose hn hq
    rename_i active
    unfold Server.handleClient at h
    split at h
    · rename_i room
      cases hb : e.bytes with
      | none => simp [hb] at h
      | some bytes =>
      simp only [hb] at h
      have heard : reads s e =
          some (c, c.input.received (bytes.take c.input.room.toNat)) := by
        simp [reads, turn, active, Nat.not_le.mpr room, hb]
      cases hw : (c.input.received (bytes.take c.input.room.toNat)).newline with
      | none =>
        simp only [hw, Except.ok.injEq] at h
        exact h ▸ .waited fd rest c _ hr hl hf heard hw
      | some w =>
        simp only [hw, bind_ok_iff] at h
        obtain ⟨u, hexec, h⟩ := h
        split at h
        · cases h
        · rename_i complete
          exact Except.ok.inj h ▸ .executed fd rest c _ w u hr hl hf heard hw
            (Nat.le_of_not_lt complete) (executed_of_ok hexec active)
    · rename_i full
      have here := findClient_socket hf
      obtain ⟨name, queue, hclose, hn, hq, rfl⟩ := removeClient_ok h (here.symm ▸ hf)
      rw [here]
      exact .removed fd rest c name queue hr hl hf
        (removed_eq hr hl hf (Or.inr (Nat.le_of_not_lt full))) hclose hn hq

theorem served_some (h : served s = some c) : ∃ fd rest, s.readFdSet = fd :: rest ∧
    fd ≠ s.listenFd ∧ findClient fd s.clientList = .ok (some c) := by
  unfold served at h
  split at h
  · cases h
  rename_i fd rest hr
  split at h
  · cases h
  rename_i hl
  refine ⟨fd, rest, hr, hl, ?_⟩
  cases hf : findClient fd s.clientList with
  | error _ => simp [hf, Except.toOption] at h
  | ok found =>
    have : found = some c := by simpa [hf, Except.toOption] using h
    rw [this]

theorem removed_some (h : removed s = some c) :
    served s = some c ∧ (c.state = .disconnect ∨ INPUT_BUFFER_SIZE ≤ c.input.inbuf) := by
  simpa [removed, Option.filter_eq_some_iff] using h

theorem removed_of_listening {rest : List Int} (hr : s.readFdSet = s.listenFd :: rest) :
    removed s = none := by
  simp [removed, served, hr]

theorem removed_of_empty (hr : s.readFdSet = []) : removed s = none := by
  simp [removed, served, hr]

/-- A client that reads is not removed in that turn. -/
theorem removed_of_reads {input : Input} (h : reads s e = some (c, input)) : removed s = none := by
  unfold reads at h
  cases hs : served s with
  | none => simp [removed, hs]
  | some d =>
    rw [hs, Option.bind_some] at h
    split at h
    · cases h
    · rename_i stays
      simpa [removed, hs] using stays

/-- A client that reads has not been told to leave. -/
theorem active_of_reads {input : Input} (heard : reads s e = some (c, input)) :
    c.state ≠ .disconnect := by
  obtain ⟨d, _, h⟩ := Option.bind_eq_some_iff.mp heard
  split at h
  · cases h
  · next stays =>
    obtain ⟨_, _, same⟩ := Option.map_eq_some_iff.mp h
    obtain ⟨rfl, _⟩ := Prod.mk.inj same
    exact fun left => stays (.inl left)

theorem line_of_removed (gone : removed s = some c) : line s e = none := by
  cases heard : reads s e with
  | none => simp [line, heard]
  | some r =>
    obtain ⟨d, input⟩ := r
    have stays := removed_of_reads heard
    rw [gone] at stays
    cases stays

/-- The turn in which a client is removed. -/
theorem step_removal (gone : removed s = some c) : ∃ fd rest, s.readFdSet = fd :: rest ∧
    findClient fd s.clientList = .ok (some c) ∧
      s.step e = ({ s with readFdSet := rest } : Server).removeClient e fd := by
  obtain ⟨hs, kicked⟩ := removed_some gone
  obtain ⟨fd, rest, hr, hl, hf⟩ := served_some hs
  have here := findClient_socket hf
  refine ⟨fd, rest, hr, hf, ?_⟩
  simp only [Server.step, hr, Server.serve, if_neg hl, hf, bind, Except.bind]
  split
  · rfl
  · rename_i active
    have full : ¬ c.input.inbuf < INPUT_BUFFER_SIZE :=
      Nat.not_lt.mpr (kicked.resolve_left active)
    rw [Server.handleClient, if_neg full, here]

/-- The removal of a named client goes through when its socket can be closed. -/
theorem step_removed {name : CString} (gone : removed s = some c) (hn : c.name = some name)
    (closes : e.closes = true) : ∃ t, s.step e = .ok t := by
  obtain ⟨fd, rest, _, hf, same⟩ := step_removal (e := e) gone
  rw [same]
  simp [Server.removeClient, hf, cleanUp_ok hn, useName_ok.mpr hn, closes, bind, Except.bind]

theorem line_some {command : CString} (h : line s e = some (c, command)) :
    ∃ input w, reads s e = some (c, input) ∧ input.newline = some w ∧
      input.command w = command := by
  obtain ⟨⟨d, input⟩, heard, h⟩ := Option.bind_eq_some_iff.mp h
  obtain ⟨w, hw, h⟩ := Option.map_eq_some_iff.mp h
  obtain ⟨rfl, rfl⟩ := Prod.mk.inj h
  exact ⟨input, w, heard, hw, rfl⟩

/-- The rest of a turn in which a line is complete. -/
theorem step_line {input : Input} {w : Nat} (heard : reads s e = some (c, input))
    (hw : input.newline = some w) :
    ∃ fd rest, s.readFdSet = fd :: rest ∧ findClient fd s.clientList = .ok (some c) ∧
      s.step e = (({ s with readFdSet := rest } : Server).execute e c (input.command w) >>=
        fun u => if input.inbuf < w then .error .badLength
          else .ok (u.setInput c (input.shifted w).pointed)) := by
  unfold reads at heard
  cases hs : served s with
  | none => simp [hs] at heard
  | some d =>
  rw [hs, Option.bind_some] at heard
  split at heard
  · cases heard
  rename_i stays
  obtain ⟨active, room⟩ : d.state ≠ .disconnect ∧ d.input.inbuf < INPUT_BUFFER_SIZE := by
    simpa using stays
  cases hb : e.bytes with
  | none => simp [hb] at heard
  | some bytes =>
  obtain ⟨rfl, rfl⟩ : d = c ∧ d.input.received (bytes.take d.input.room.toNat) = input := by
    simpa [hb] using heard
  obtain ⟨fd, rest, hr, hl, hf⟩ := served_some hs
  refine ⟨fd, rest, hr, hf, ?_⟩
  simp only [Server.step, hr, Server.serve, if_neg hl, hf, bind, Except.bind, if_neg active,
    Server.handleClient, if_pos room, hb, hw]

end Inversion

end HelpServer
