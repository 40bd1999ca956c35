import CSC209.A4.ServerInvariant

/-!
# Waiting clients and waiting entries

The server links its clients to the queue by name alone. Every entry has its
client in all circumstances; that every waiting client has its entry can fail
when a name is enrolled twice, when a client that is not waiting leaves under
the name of one that is, and when `next` calls another bearer of the name.
-/

namespace HelpServer

open CStrings HelpQueue InputBuffer HaltingRuns

/-- The waiting student clients and the entries of `stu_list`, one to one. -/
structure Corresponds (s : Server) : Prop where
  clients : ∀ c ∈ s.clientList, c.freed = false → c.type = .student → c.state = .waitingSCommand →
    ∃! x, x ∈ s.queue.stuList ∧ c.Waits x
  entries : ∀ x ∈ s.queue.stuList, ∃! c, c ∈ s.clientList ∧ c.freed = false ∧ c.type = .student ∧
    c.Waits x

/-- The names in play tell the waiting clients from the others, as far as the step looks at them. -/
structure NamesApart (s : Server) (e : Event) : Prop where
  enrolment : ∀ c command, line s e = some (c, command) → c.state = .waitingSCourse →
    (∃ k ∈ courses, command = k.code) → ∀ x ∈ s.queue.stuList, c.name ≠ some x.name
  removal : ∀ c, removed s = some c → c.type = .student → c.state ≠ .waitingSCommand →
    ∀ x ∈ s.queue.stuList, c.name ≠ some x.name
  calling : ∀ c x rest f, line s e = some (c, text "next") → c.state = .waitingTCommand →
    s.queue.stuList = x :: rest → (s.clientList.find? fun d => d.name = some x.name) = some f →
    f.state = .waitingSCommand

/-- The half of the correspondence that the invariant does not give. -/
def Enlisted (s : Server) : Prop :=
  ∀ c ∈ s.clientList, c.freed = false → c.state = .waitingSCommand →
    ∃ x ∈ s.queue.stuList, c.Waits x

section Correspondence

variable {s t : Server} {e : Event} {c : Client}

theorem entry_unique (s : Server) {x y : Student} (hx : x ∈ s.queue.stuList)
    (hy : y ∈ s.queue.stuList) (same : x.id = y.id) : x = y := by
  have nodup := s.queue.valid.students
  rw [List.map_append] at nodup
  exact List.inj_on_of_nodup_map nodup.of_append_left hx hy same

theorem name_unique (s : Server) {x y : Student} (hx : x ∈ s.queue.stuList)
    (hy : y ∈ s.queue.stuList) (same : x.name = y.name) : x = y :=
  List.inj_on_of_nodup_map s.queue.valid.names hx hy same

theorem corresponds_iff_enlisted (inv : Inv s) : Corresponds s ↔ Enlisted s := by
  constructor
  · intro corr c hc live hs
    have student := (inv.consistent c hc).student (Or.inr hs)
    obtain ⟨x, ⟨hx, w⟩, _⟩ := corr.clients c hc live student hs
    exact ⟨x, hx, w⟩
  · intro has
    constructor
    · intro c hc live _ hs
      obtain ⟨x, hx, w⟩ := has c hc live hs
      refine ⟨x, ⟨hx, w⟩, ?_⟩
      rintro y ⟨hy, w'⟩
      exact entry_unique s hy hx (Option.some.inj (w'.entry.symm.trans w.entry))
    · intro x hx
      obtain ⟨c, hc, live, w⟩ := inv.owned x hx
      have student := (inv.consistent c hc).student (Or.inr w.state)
      refine ⟨c, ⟨hc, live, student, w⟩, ?_⟩
      rintro d ⟨hd, _, _, w'⟩
      exact inv.entries.unique d hd c hc x.id w'.entry w.entry

theorem Enlisted.modify {f : Client → Client} (has : Enlisted s)
    (ids : (s.clientList.map Client.id).Nodup) (hc : c ∈ s.clientList)
    (list : t.clientList = (s.modify c.id f).clientList)
    (stay : ∀ x ∈ s.queue.stuList, x ∈ t.queue.stuList)
    (here : (f c).freed = false → (f c).state = .waitingSCommand →
      ∃ x ∈ t.queue.stuList, (f c).Waits x) : Enlisted t := by
  intro d hd live hs
  rw [list] at hd
  rcases (mem_modify ids hc).mp hd with rfl | ⟨hd, _⟩
  · exact here live hs
  · obtain ⟨x, hx, w⟩ := has d hd live hs
    exact ⟨x, stay x hx, w⟩

/-- A client's buffer plays no part. -/
theorem enlisted_setInput (inv : Inv s) (hc : ∃ d ∈ s.clientList, d.id = c.id) (input : Input) :
    Enlisted (s.setInput c input) ↔ Enlisted s := by
  obtain ⟨d, hd, same⟩ := hc
  rw [Server.setInput, ← same]
  constructor
  · intro has a ha live hs
    by_cases h : a = d
    · subst h
      obtain ⟨x, hx, w⟩ :=
        has { a with input := input } ((mem_modify inv.ids ha).mpr (Or.inl rfl)) live hs
      exact ⟨x, hx, w.1, w.2, w.3, w.4⟩
    · exact has a ((mem_modify inv.ids hd).mpr (Or.inr ⟨ha, h⟩)) live hs
  · intro has
    refine has.modify inv.ids hd rfl (fun x hx => hx) fun live hs => ?_
    obtain ⟨x, hx, w⟩ := has d hd live hs
    exact ⟨x, hx, w.1, w.2, w.3, w.4⟩

/-- Enrolling under a name that already waits leaves the client without an entry. -/
theorem enlisted_enroll {command name : CString} (has : Enlisted s)
    (ids : (s.clientList.map Client.id).Nodup) (hc : c ∈ s.clientList) (live : c.freed = false)
    (valid : ∃ k ∈ courses, command = k.code) (hn : c.name = some name)
    (list : t.clientList = (s.modify c.id fun d =>
      { d with
        state := .waitingSCommand
        chosen := some command
        entry := if (s.queue.addStudent courses name command).1 = 0 then some s.queue.nextStudent
          else none }).clientList)
    (queue : t.queue = (s.queue.addStudent courses name command).2) :
    Enlisted t ↔ ∀ x ∈ s.queue.stuList, c.name ≠ some x.name := by
  rcases addStudent_cases courses s.queue.nextStudent name command s.queue.toLists with
    ⟨⟨x, hx, taken⟩, heq⟩ | ⟨_, unknown, _⟩ | ⟨course, absent, hcourse, heq⟩
  · have refused : (s.queue.addStudent courses name command).1 = 1 := by
      simp [Queue.addStudent, heq]
    constructor
    · intro has'
      have enrolled : { c with
          state := .waitingSCommand
          chosen := some command
          entry := if (s.queue.addStudent courses name command).1 = 0 then some s.queue.nextStudent
            else none } ∈ t.clientList := by
        rw [list]
        exact (mem_modify ids hc).mpr (Or.inl rfl)
      obtain ⟨y, _, w⟩ := has' _ enrolled live rfl
      have := w.entry
      simp [refused] at this
    · exact fun apart => absurd (hn.trans (congrArg some taken.symm)) (apart x hx)
  · obtain ⟨k, hk, hcode⟩ := valid
    have := List.find?_eq_none.mp unknown k hk
    simp [hcode] at this
  · have made : (s.queue.addStudent courses name command).1 = 0 := by simp [Queue.addStudent, heq]
    have queue' : t.queue.stuList = s.queue.stuList ++ [⟨s.queue.nextStudent, name, course⟩] := by
      simp [queue, Queue.addStudent, heq]
    constructor
    · intro _ x hx same
      exact absent x hx (Option.some.inj (same.symm.trans hn))
    · intro _
      refine has.modify ids hc list (fun x hx => by rw [queue']; simp [hx]) fun _ _ => ?_
      refine ⟨⟨s.queue.nextStudent, name, course⟩, by rw [queue']; simp, rfl, ?_, hn, ?_⟩
      · simp [made]
      · exact congrArg some (findCourse_code hcourse).2.symm

theorem first_of_found {x : Student} {l : List Client} (hf : findClientStudent x l = .ok (some c)) :
    (l.find? fun d => d.name = some x.name) = some c := by
  obtain ⟨before, after, hl, _, named, others⟩ := findClientStudent_found hf
  rw [List.find?_eq_some_iff_append]
  refine ⟨by simpa using named, before, after, hl, fun b hb => ?_⟩
  obtain ⟨_, name, hn, other⟩ := others b hb
  simpa [hn] using other

/-- `next` takes the head of the queue; its client must be the one disconnected. -/
theorem enlisted_called {name : CString} {x : Student} {rest : List Student} {toServe : Client}
    (inv : Inv s) (has : Enlisted s) (listed : name ∈ s.queue.taList.map Ta.name)
    (hq : s.queue.stuList = x :: rest) (hf : findClientStudent x s.clientList = .ok (some toServe))
    (list : t.clientList =
      (s.modify toServe.id fun d => { d with state := .disconnect }).clientList)
    (queue : t.queue = (s.queue.nextOverall name).2) :
    Enlisted t ↔ toServe.state = .waitingSCommand := by
  obtain ⟨before, after, hl, live, called, _⟩ := findClientStudent_found hf
  have hm : toServe ∈ s.clientList := by simp [hl]
  have hx : x ∈ s.queue.stuList := by simp [hq]
  have queue' : t.queue.stuList = rest := by
    rw [queue]
    exact (nextOverall_stuList name s.queue.toLists listed).trans (by rw [hq]; rfl)
  obtain ⟨o, ho, oLive, w⟩ := inv.owned x hx
  have ahead : x ∉ rest := by
    have nodup := s.queue.valid.students
    rw [List.map_append, hq, List.map_cons] at nodup
    exact fun h => (List.nodup_cons.mp nodup.of_append_left).1 (List.mem_map_of_mem h)
  constructor
  · intro has'
    by_contra idle
    have other : o ≠ toServe := by
      rintro rfl
      exact idle w.state
    -- the owner of the head goes on waiting, but its entry has left the queue
    obtain ⟨y, hy, w'⟩ :=
      has' o (list ▸ (mem_modify inv.ids hm).mpr (Or.inr ⟨ho, other⟩)) oLive w.state
    rw [queue'] at hy
    have same : y = x := entry_unique s (by rw [hq]; exact List.mem_cons_of_mem x hy) hx
      (Option.some.inj (w'.entry.symm.trans w.entry))
    exact ahead (same ▸ hy)
  · intro waiting
    obtain ⟨y, hy, wy⟩ := has toServe hm live waiting
    obtain rfl : y = x := name_unique s hy hx (Option.some.inj (wy.name.symm.trans called))
    intro d hd dLive hs
    rw [list] at hd
    rcases (mem_modify inv.ids hm).mp hd with rfl | ⟨hd, hne⟩
    · cases hs
    · obtain ⟨z, hz, wz⟩ := has d hd dLive hs
      refine ⟨z, ?_, wz⟩
      rw [queue']
      rw [hq] at hz
      rcases List.mem_cons.mp hz with rfl | hz
      · exact absurd (inv.entries.unique d hd toServe hm z.id wz.entry wy.entry) hne
      · exact hz

/-- A student client that leaves takes the entry of its name along, so that must be its own. -/
theorem enlisted_removed {fd : Int} {name : CString} (inv : Inv s) (has : Enlisted s)
    (hf : findClient fd s.clientList = .ok (some c)) (hn : c.name = some name)
    (list : t.clientList = remaining s c)
    (queue : t.queue = c.withdrawn name s.queue) :
    Enlisted t ↔ (c.type = .student → c.state ≠ .waitingSCommand →
      ∀ x ∈ s.queue.stuList, c.name ≠ some x.name) := by
  have members := mem_remaining hf inv.ids
  obtain ⟨hc, live⟩ := findClient_mem hf
  by_cases ht : c.type = .student
  · have left : ∀ x, x ∈ t.queue.stuList ↔ x ∈ s.queue.stuList ∧ x.name ≠ name := by
      rw [queue, withdrawn_student name s.queue ht]
      exact mem_giveUpWaiting name s.queue.valid.names
    constructor
    · intro has' _ idle x hx same
      obtain ⟨o, ho, oLive, w⟩ := inv.owned x hx
      have other : o ≠ c := by
        rintro rfl
        exact idle w.state
      obtain ⟨y, hy, w'⟩ := has' o (list ▸ ((members o).mpr ⟨ho, oLive, other⟩).1) oLive w.state
      obtain ⟨hy, hne⟩ := (left y).mp hy
      obtain rfl := entry_unique s hy hx (Option.some.inj (w'.entry.symm.trans w.entry))
      exact hne (Option.some.inj (same.symm.trans hn))
    · intro apart d hd dLive hs
      rw [list] at hd
      obtain ⟨hd, _, hne⟩ := (members d).mp ⟨hd, dLive⟩
      obtain ⟨x, hx, w⟩ := has d hd dLive hs
      refine ⟨x, (left x).mpr ⟨hx, ?_⟩, w⟩
      intro same
      by_cases waiting : c.state = .waitingSCommand
      · obtain ⟨y, hy, wy⟩ := has c hc live waiting
        obtain rfl := name_unique s hx hy
          (same.trans (Option.some.inj (hn.symm.trans wy.name)))
        exact hne (inv.entries.unique d hd c hc x.id w.entry wy.entry)
      · exact apart ht waiting x hx (hn.trans (congrArg some same.symm))
  · have same : t.queue.stuList = s.queue.stuList := by
      rw [queue]
      exact withdrawn_stuList name s.queue ht
    constructor
    · exact fun _ h => absurd h ht
    · intro _ d hd dLive hs
      rw [list] at hd
      obtain ⟨hd, _, _⟩ := (members d).mp ⟨hd, dLive⟩
      obtain ⟨x, hx, w⟩ := has d hd dLive hs
      exact ⟨x, same ▸ hx, w⟩

theorem enlisted_executed {command : CString} (inv : Inv s) (has : Enlisted s)
    (hc : c ∈ s.clientList) (live : c.freed = false) (h : Executed e c command s t) :
    Enlisted t ↔
      (c.state = .waitingSCourse → (∃ k ∈ courses, command = k.code) →
        ∀ x ∈ s.queue.stuList, c.name ≠ some x.name) ∧
      ∀ x rest f, c.state = .waitingTCommand → command = text "next" → s.queue.stuList = x :: rest →
        (s.clientList.find? fun d => d.name = some x.name) = some f →
        f.state = .waitingSCommand := by
  have here := inv.consistent c hc
  have ids := inv.ids
  cases h with
  | named hs =>
    simp only [hs, reduceCtorEq, false_implies, implies_true, and_self, iff_true]
    exact has.modify ids hc rfl (fun x hx => hx) (by simp)
  | student hs hcmd =>
    simp only [hs, reduceCtorEq, false_implies, implies_true, and_self, iff_true]
    exact has.modify ids hc rfl (fun x hx => hx) (by simp)
  | ta name hs hcmd hn =>
    simp only [hs, reduceCtorEq, false_implies, implies_true, and_self, iff_true]
    exact has.modify ids hc rfl (fun x hx => hx) (by simp)
  | enrolled name hs hcmd hn =>
    refine Iff.trans (b := ∀ x ∈ s.queue.stuList, c.name ≠ some x.name) ?_ ?_
    · exact enlisted_enroll has ids hc live hcmd hn rfl rfl
    · simp [hs, hcmd]
  | refused hs hcmd =>
    simp only [hs, hcmd, reduceCtorEq, false_implies, implies_true, and_self, iff_true]
    exact has.modify ids hc rfl (fun x hx => hx) (by simp)
  | replied msg h1 h2 h3 =>
    refine iff_of_true has ⟨fun h => absurd h h2, fun x rest f h hcmd => absurd ⟨h, hcmd⟩ h3⟩
  | idle name hs hcmd hn empty =>
    simp only [hs, empty, reduceCtorEq, false_implies, implies_true, and_self, iff_true]
    intro d hd dLive dWaits
    obtain ⟨x, hx, _⟩ := has d hd dLive dWaits
    rw [empty] at hx
    cases hx
  | called name x rest toServe hs hcmd hn hq hf =>
    refine Iff.trans (b := toServe.state = .waitingSCommand) ?_ ?_
    · exact enlisted_called inv has (inv.listed hc live (here.ta hs) hn) hq hf rfl rfl
    simp only [hs, hcmd, hq, reduceCtorEq, false_implies, true_and]
    constructor
    · rintro waiting y later f _ _ heq hfound
      obtain ⟨rfl, rfl⟩ := List.cons.inj heq
      have same : toServe = f := Option.some.inj ((first_of_found hf).symm.trans hfound)
      exact same ▸ waiting
    · exact fun all => all x rest toServe trivial trivial rfl (first_of_found hf)

theorem namesApart_of_silent (unsaid : line s e = none) (stays : removed s = none) :
    NamesApart s e := by
  constructor
  · intro c command hc; rw [unsaid] at hc; cases hc
  · intro c hc; rw [stays] at hc; cases hc
  · intro c x rest f hc; rw [unsaid] at hc; cases hc

theorem namesApart_of_removed (gone : removed s = some c) : NamesApart s e ↔
    (c.type = .student → c.state ≠ .waitingSCommand →
      ∀ x ∈ s.queue.stuList, c.name ≠ some x.name) := by
  have unsaid := line_of_removed (e := e) gone
  constructor
  · exact fun apart => apart.removal c gone
  · intro apart
    constructor
    · intro d command hd; rw [unsaid] at hd; cases hd
    · intro d hd
      obtain rfl : c = d := Option.some.inj (gone.symm.trans hd)
      exact apart
    · intro d x later f hd; rw [unsaid] at hd; cases hd

theorem namesApart_of_line {command : CString} (said : line s e = some (c, command))
    (stays : removed s = none) : NamesApart s e ↔
      (c.state = .waitingSCourse → (∃ k ∈ courses, command = k.code) →
        ∀ x ∈ s.queue.stuList, c.name ≠ some x.name) ∧
      ∀ x rest f, c.state = .waitingTCommand → command = text "next" → s.queue.stuList = x :: rest →
        (s.clientList.find? fun d => d.name = some x.name) = some f →
        f.state = .waitingSCommand := by
  constructor
  · intro apart
    refine ⟨apart.enrolment c command said, ?_⟩
    rintro x rest f hs rfl
    exact apart.calling c x rest f said hs
  · rintro ⟨enrolment, calling⟩
    constructor
    · intro d other hd
      obtain ⟨rfl, rfl⟩ : c = d ∧ command = other := by simpa [said] using hd
      exact enrolment
    · intro d hd; rw [stays] at hd; cases hd
    · intro d x rest f hd hs hq hfound
      obtain ⟨rfl, next⟩ : c = d ∧ command = text "next" := by simpa [said] using hd
      exact calling x rest f hs next hq hfound

/-- Each step from a corresponding state keeps the correspondence exactly when the names
it looks at are apart. -/
theorem corresponds_step (inv : Inv s) (corr : Corresponds s) (legal : Legal s e)
    (h : s.step e = .ok t) : Corresponds t ↔ NamesApart s e := by
  rw [corresponds_iff_enlisted (inv.step legal h)]
  have has := (corresponds_iff_enlisted inv).mp corr
  cases outcome_of_step h with
  | selected ready hr =>
    exact iff_of_true has
      (namesApart_of_silent (by simp [line, reads, served, hr]) (by simp [removed, served, hr]))
  | accepted rest client hr live low high new =>
    refine iff_of_true ?_
      (namesApart_of_silent (by simp [line, reads, served, hr]) (by simp [removed, served, hr]))
    intro d hd dLive hs
    rcases List.mem_append.mp hd with hd | hd
    · exact has d hd dLive hs
    · rw [List.mem_singleton.mp hd, new] at hs
      cases hs
  | removed fd rest c name queue hr hl hf gone closes hn hq =>
    rw [namesApart_of_removed gone]
    exact enlisted_removed inv has hf hn rfl hq
  | waited fd rest c input hr hl hf heard hw =>
    have hc := (findClient_mem hf).1
    refine iff_of_true ?_
      (namesApart_of_silent (by simp [line, heard, hw]) (removed_of_reads heard))
    exact (enlisted_setInput (inv.visit hr) ⟨c, hc, rfl⟩ _).mpr has
  | executed fd rest c input w u hr hl hf heard hw hle hexec =>
    obtain ⟨hc, live⟩ := findClient_mem hf
    have said : line s e = some (c, input.command w) := by simp [line, heard, hw]
    rw [enlisted_setInput (hexec.inv (inv.visit hr) hc live) (hexec.still_there hc),
      namesApart_of_line said (removed_of_reads heard)]
    exact enlisted_executed (s := { s with readFdSet := rest }) (inv.visit hr) has hc live hexec

end Correspondence

/-- A state in which waiting clients and entries correspond follows every step of a run exactly
when, in every step that leads on, the names it looks at are apart. -/
theorem correspondence_iff (listenFd : Int) (events : List Event)
    (legal : Along Server.step Legal (start listenFd) events) :
    Along Server.step (fun s e => ∀ t, s.step e = .ok t → Corresponds t) (start listenFd) events ↔
      Along Server.step (fun s e => (∃ t, s.step e = .ok t) → NamesApart s e) (start listenFd)
        events := by
  refine along_congr (I := fun s => Inv s ∧ Corresponds s) ⟨Inv.start listenFd, ?_⟩ legal ?_ ?_
  · apply (corresponds_iff_enlisted (Inv.start listenFd)).mpr
    intro c hc
    cases hc
  · exact fun s e t h allowed keeps ht => ⟨h.1.step allowed ht, keeps t ht⟩
  · intro s e h allowed
    constructor
    · rintro keeps ⟨t, ht⟩
      exact (corresponds_step h.1 h.2 allowed ht).mp (keeps t ht)
    · exact fun apart t ht => (corresponds_step h.1 h.2 allowed ht).mpr (apart ⟨t, ht⟩)

/-- Two students of one name, of whom both enrol. -/
def sameName : List Event :=
  connects 4 ++ sends 4 (text "Ann") ++ sends 4 (text "S") ++ sends 4 (text "CSC108") ++
    connects 5 ++ sends 5 (text "Ann") ++ sends 5 (text "S") ++ sends 5 (text "CSC209")

theorem correspondence_iff_sameName :
    Along Server.step (fun s e => ∀ t, s.step e = .ok t → Corresponds t) (start 3) sameName ↔
      Along Server.step (fun s e => (∃ t, s.step e = .ok t) → NamesApart s e) (start 3) sameName :=
  correspondence_iff 3 sameName (by decide)

/-- The second one waits for a command without being in the queue. -/
theorem waits_without_entry : ¬ ∀ (listenFd : Int) (s : Server),
    Reachable Server.step Legal (start listenFd) s → Corresponds s := by
  intro always
  obtain ⟨s, hrun, c, hc, live, student, hs, unlisted⟩ :
      ∃ s, run Server.step (start 3) sameName = .ok s ∧
      ∃ c ∈ s.clientList, c.freed = false ∧ c.type = .student ∧ c.state = .waitingSCommand ∧
        c.entry = none := exists_of_run (by decide)
  have corr := always 3 s (reachable_of_run (by decide) hrun)
  obtain ⟨x, ⟨_, w⟩, _⟩ := corr.clients c hc live student hs
  have listed := w.entry
  rw [unlisted] at listed
  cases listed

end HelpServer
