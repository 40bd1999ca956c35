import CSC209.A4.ServerInvariant

/-!
# Which student a TA's `next` calls

`next` notifies the first client of the name at the head of the queue and gives
the head to the first TA of the calling client's name. `Called` says that these
are the client whose own call made the head entry and the TA's own entry;
`CallsOwner` is when they are. Steps that end in the server's own `exit`, after
a failed write to the student, are left out.
-/

namespace HelpServer

open CStrings HelpQueue InputBuffer HaltingRuns

/-- What the `next` of the client `c` does when the head of the queue is `x`. -/
structure Called (s : Server) (c : Client) (x : Student) (t : Server) : Prop where
  notified : ∃ o ∈ s.clientList, o.freed = false ∧ o.type = .student ∧ o.entry = some x.id ∧
    t.sent = s.sent ++ [(o.id, STU_ACCEPT_MSG)] ∧
    t.clientList.map (fun d => (d.id, d.state)) =
      s.clientList.map fun d => (d.id, if d.id = o.id then .disconnect else d.state)
  dequeued : t.queue.stuList = s.queue.stuList.tail
  taken : ∃ a ∈ t.queue.taList, c.taEntry = some a.id ∧ a.currentStudent = some x

/-- The line ends within the bytes received, the client of the head entry is linked behind
connected clients of other names only, and the first TA of the caller's name is the caller's. -/
structure CallsOwner (s : Server) (e : Event) (c : Client) (x : Student) : Prop where
  whole : ∀ input w, reads s e = some (c, input) → input.newline = some w → w ≤ input.inbuf
  first : ∃ before o after, s.clientList = before ++ o :: after ∧ o.entry = some x.id ∧
    ∀ b ∈ before, b.freed = false ∧ ∃ name, b.name = some name ∧ name ≠ x.name
  own : ∀ name a, c.name = some name → findTa s.queue.taList name = some a → c.taEntry = some a.id

section Calling

variable {s t : Server} {e : Event} {c o : Client} {x : Student}

theorem findClientStudent_first {before after : List Client} (live : o.freed = false)
    (hn : o.name = some x.name)
    (others : ∀ b ∈ before, b.freed = false ∧ ∃ name, b.name = some name ∧ name ≠ x.name) :
    findClientStudent x (before ++ o :: after) = .ok (some o) := by
  induction before with
  | nil => simp [findClientStudent, live, hn]
  | cons b before ih =>
    obtain ⟨bLive, name, named, other⟩ := others b List.mem_cons_self
    have rest := ih fun d hd => others d (List.mem_cons_of_mem b hd)
    simpa [findClientStudent, bLive, named, other] using rest

theorem execute_next {rest : List Student} {name : CString} (hs : c.state = .waitingTCommand)
    (hn : c.name = some name) (hq : s.queue.stuList = x :: rest)
    (hf : findClientStudent x s.clientList = .ok (some o)) :
    s.execute e c (text "next") = (s.write e o STU_ACCEPT_MSG >>= fun u =>
      .ok { u.modify o.id fun d => { d with state := .disconnect } with
        queue := (u.queue.nextOverall name).2 }) := by
  have other : text "next" ≠ text "stats" := by decide
  simp only [Server.execute, hs, if_neg other, if_true, Server.callStudent, hq, hf,
    useName_ok.mpr hn, bind, Except.bind]
  cases s.write e o STU_ACCEPT_MSG with
  | error _ => rfl
  | ok u => rfl

/-- The state numbers of the clients after the call. -/
theorem called_states (input : Input) (queue : Queue) (sent : List (Nat × CString)) :
    (({ (({ s with sent := sent } : Server).modify o.id
          fun d => { d with state := .disconnect }) with
        queue := queue } : Server).setInput c input).clientList.map (fun d => (d.id, d.state)) =
      s.clientList.map fun d => (d.id, if d.id = o.id then .disconnect else d.state) := by
  simp only [Server.setInput, modify_clientList, List.map_map]
  refine List.map_congr_left fun d _ => ?_
  simp only [Function.comp_apply]
  by_cases called : d.id = o.id
  · rw [if_pos called, if_pos called]
    split <;> simp [called]
  · rw [if_neg called, if_neg called]
    split <;> rfl

/-- The caller's entry takes the head of the queue exactly when it is the first of its name. -/
theorem taken_iff {rest : List Student} {name : CString} (hn : c.name = some name)
    (listed : name ∈ s.queue.taList.map Ta.name) (hq : s.queue.stuList = x :: rest) :
    (∃ a ∈ (s.queue.nextOverall name).2.taList, c.taEntry = some a.id ∧ a.currentStudent = some x) ↔
      ∀ n a, c.name = some n → findTa s.queue.taList n = some a → c.taEntry = some a.id := by
  rcases nextOverall_cases name s.queue.toLists with
      ⟨absent, _⟩ | ⟨before, a, after, hl, ha, hb, heq⟩
  · obtain ⟨b, hm, named⟩ := List.mem_map.mp listed
    exact absurd named (absent b hm)
  have list : (s.queue.nextOverall name).2.taList =
      before ++ { a with currentStudent := some x } :: after := by
    simp [Queue.nextOverall, heq, hq]
  have first := findTa_first hl ha hb
  rw [list]
  constructor
  · rintro ⟨b, hm, mark, serves⟩ n d named found
    obtain rfl : name = n := Option.some.inj (hn.symm.trans named)
    obtain rfl : a = d := Option.some.inj (first.symm.trans found)
    rcases List.mem_append.mp hm with hm | hm
    · exact absurd serves (s.queue.head_not_served hq (by simp [hl, hm]))
    rcases List.mem_cons.mp hm with rfl | hm
    · exact mark
    · exact absurd serves (s.queue.head_not_served hq (by simp [hl, hm]))
  · intro own
    exact ⟨{ a with currentStudent := some x }, by simp, own name a hn first, rfl⟩

/-- What a `next` that goes through has found and done. -/
theorem next_done {input : Input} {w : Nat} {later : List Student} {name : CString}
    (heard : reads s e = some (c, input)) (hw : input.newline = some w)
    (next : input.command w = text "next") (ta : c.state = .waitingTCommand)
    (hn : c.name = some name) (hq : s.queue.stuList = x :: later) (h : s.step e = .ok t) :
    w ≤ input.inbuf ∧ t.queue = (s.queue.nextOverall name).2 ∧
      ∃ o, findClientStudent x s.clientList = .ok (some o) ∧
        t.sent = s.sent ++ [(o.id, STU_ACCEPT_MSG)] := by
  obtain ⟨fd, rest, hr, hf, hstep⟩ := step_line heard hw
  rw [h, next] at hstep
  obtain ⟨u, hexec, hend⟩ := bind_ok_iff.mp hstep.symm
  split at hend
  · cases hend
  rename_i complete
  obtain rfl := Except.ok.inj hend
  cases executed_of_ok hexec (by simp [ta]) with
  | named hs => simp [hs] at ta
  | student hs => simp [hs] at ta
  | ta _ hs => simp [hs] at ta
  | enrolled _ hs => simp [hs] at ta
  | refused hs => simp [hs] at ta
  | replied msg _ _ other => exact absurd ⟨ta, rfl⟩ other
  | idle _ _ _ _ empty => simp [hq] at empty
  | called name' y later' o _ _ hn' hq' hfound =>
    obtain rfl : name = name' := Option.some.inj (hn.symm.trans hn')
    obtain ⟨rfl, rfl⟩ := List.cons.inj (hq.symm.trans hq')
    exact ⟨Nat.le_of_not_lt complete, rfl, o, hfound, rfl⟩

/-- A `next` that finds a client either ends the server at the write to it or goes through. -/
theorem next_runs {input : Input} {w : Nat} {later : List Student} {name : CString}
    (heard : reads s e = some (c, input)) (hw : input.newline = some w)
    (next : input.command w = text "next") (ta : c.state = .waitingTCommand)
    (hn : c.name = some name)
    (hq : s.queue.stuList = x :: later) (hf : findClientStudent x s.clientList = .ok (some o))
    (whole : w ≤ input.inbuf) (stays : s.step e ≠ .error .exit) :
    ∃ t, s.step e = .ok t ∧ t.queue = (s.queue.nextOverall name).2 ∧
      t.sent = s.sent ++ [(o.id, STU_ACCEPT_MSG)] ∧
      t.clientList.map (fun d => (d.id, d.state)) =
        s.clientList.map fun d => (d.id, if d.id = o.id then .disconnect else d.state) := by
  obtain ⟨fd, rest, hr, _, hstep⟩ := step_line heard hw
  rw [next, execute_next ta hn (by exact hq) (by exact hf)] at hstep
  cases hwrite : ({ s with readFdSet := rest } : Server).write e o STU_ACCEPT_MSG with
  | error h =>
    rw [hwrite, write_error hwrite] at hstep
    exact absurd hstep stays
  | ok u =>
    obtain ⟨_, rfl⟩ := write_ok hwrite
    rw [hwrite] at hstep
    exact ⟨_, hstep.trans (if_neg (Nat.not_lt.mpr whole)), rfl, rfl, called_states _ _ _⟩

end Calling

/-- A TA's `next` that does not end the server calls the student whose entry it takes, for the
TA who asked, exactly when both stand first under their names and the line is whole. -/
theorem called_iff (listenFd : Int) (s : Server) (e : Event) (c : Client) (x : Student)
    (reached : Reachable Server.step Legal (start listenFd) s)
    (said : line s e = some (c, text "next")) (ta : c.state = .waitingTCommand)
    (head : s.queue.stuList.head? = some x) (stays : s.step e ≠ .error .exit) :
    (∃ t, s.step e = .ok t ∧ Called s c x t) ↔ CallsOwner s e c x := by
  have inv := inv_reachable reached
  obtain ⟨input, w, heard, hw, next⟩ := line_some said
  obtain ⟨fd, rest, hr, hserved, _⟩ := step_line heard hw
  obtain ⟨hc, live⟩ := findClient_mem hserved
  have here := inv.consistent c hc
  obtain ⟨name, hn⟩ := here.some_name (by simp [ta])
  have listed := inv.listed hc live (here.ta ta) hn
  obtain ⟨later, hq⟩ : ∃ later, s.queue.stuList = x :: later := List.head?_eq_some_iff.mp head
  have taken := taken_iff hn listed hq
  constructor
  · rintro ⟨t, h, called⟩
    obtain ⟨whole, queue, o, hf, told⟩ := next_done heard hw next ta hn hq h
    obtain ⟨before, after, hl, _, _, others⟩ := findClientStudent_found hf
    have ho : o ∈ s.clientList := by simp [hl]
    refine ⟨?_, ⟨before, o, after, hl, ?_, others⟩, taken.mp (queue ▸ called.taken)⟩
    · intro input' w' heard' hw'
      obtain rfl : input = input' := (Prod.mk.inj (Option.some.inj (heard.symm.trans heard'))).2
      obtain rfl : w = w' := Option.some.inj (hw.symm.trans hw')
      exact whole
    · -- the message went to the client that the scan found
      obtain ⟨p, hp, _, _, mark, told', _⟩ := called.notified
      have same : o.id = p.id := by
        have := List.append_cancel_left (told.symm.trans told')
        simpa using this
      exact client_unique inv.ids hp ho same ▸ mark
  · intro owner
    obtain ⟨before, o, after, hl, mark, others⟩ := owner.first
    have ho : o ∈ s.clientList := by simp [hl]
    obtain ⟨p, hp, pLive, waits⟩ := inv.owned x (by simp [hq])
    obtain rfl := inv.entries.unique p hp o ho x.id waits.entry mark
    have found : findClientStudent x s.clientList = .ok (some p) :=
      hl ▸ findClientStudent_first pLive waits.name others
    have whole := owner.whole input w heard hw
    obtain ⟨t, h, queue, told, states⟩ := next_runs heard hw next ta hn hq found whole stays
    have student := (inv.consistent p hp).student (Or.inr waits.state)
    refine ⟨t, h, ⟨p, hp, pLive, student, mark, told, states⟩, ?_, ?_⟩
    · rw [queue]
      exact nextOverall_stuList name s.queue.toLists listed
    · rw [queue]
      exact taken.mpr owner.own

/-- A TA and a student of one name, of whom the student waits and the TA becomes readable. -/
def namesake : List Event :=
  connects 4 ++ sends 4 (text "Sam") ++ sends 4 (text "T") ++ connects 5 ++ sends 5 (text "Sam") ++
    sends 5 (text "S") ++ sends 5 (text "CSC209") ++ [{ quiet with ready := some [4] }]

theorem called_iff_namesake : ∃ s c x, run Server.step (start 3) namesake = .ok s ∧
    s.queue.stuList.head? = some x ∧
    ((∃ t, s.step asksNext = .ok t ∧ Called s c x t) ↔ CallsOwner s asksNext c x) := by
  obtain ⟨s, hrun, ⟨c, command⟩, said, rfl, ta, x, head, goes⟩ :
      ∃ s, run Server.step (start 3) namesake = .ok s ∧ ∃ r ∈ line s asksNext, r.2 = text "next" ∧
        r.1.state = .waitingTCommand ∧ ∃ x ∈ s.queue.stuList.head?,
          reason (s.step asksNext) ≠ some .exit := exists_of_run (by decide)
  exact ⟨s, c, x, hrun, head,
    called_iff 3 s asksNext c x (reachable_of_run (by decide) hrun) said ta
    head fun exits => goes (reason_eq_some.mpr exits)⟩

/-- The TA is told that it is the student's turn, since it was the first to connect. -/
theorem other_called : ¬ ∀ (listenFd : Int) (s : Server) (e : Event) (c : Client) (x : Student),
    Reachable Server.step Legal (start listenFd) s → line s e = some (c, text "next") →
      c.state = .waitingTCommand → s.queue.stuList.head? = some x → s.step e ≠ .error .exit →
        ∃ t, s.step e = .ok t ∧ Called s c x t := by
  intro always
  obtain ⟨t, hrun, told⟩ : ∃ t, run Server.step (start 3) (namesake ++ [asksNext]) = .ok t ∧
      t.sent.getLast? = some (0, STU_ACCEPT_MSG) := exists_of_run (by decide)
  obtain ⟨s, hfirst, ⟨c, command⟩, said, rfl, ta, x, head, owner⟩ :
      ∃ s, run Server.step (start 3) namesake = .ok s ∧ ∃ r ∈ line s asksNext, r.2 = text "next" ∧
        r.1.state = .waitingTCommand ∧ ∃ x ∈ s.queue.stuList.head?,
          ∀ o ∈ s.clientList, o.entry = some x.id → o.id ≠ 0 := exists_of_run (by decide)
  obtain ⟨m, hm, h⟩ := run_snoc hrun
  obtain rfl : s = m := by simpa [hfirst] using hm
  have reached : Reachable Server.step Legal (start 3) s := reachable_of_run (by decide) hfirst
  obtain ⟨t', h', called⟩ := always 3 s asksNext c x reached said ta head (by simp [h])
  obtain rfl : t = t' := by simpa [h] using h'
  obtain ⟨o, ho, _, _, mark, sent, _⟩ := called.notified
  rw [sent, List.getLast?_concat] at told
  exact owner o ho mark (Prod.mk.inj (Option.some.inj told)).1

end HelpServer
