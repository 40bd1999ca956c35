import CSC209.A4.ServerInvariant

/-!
# What one client's step does to the entries of the others

`give_up_waiting`, `remove_ta` and `next_overall` act on the first entry of the
client's name. `Isolated` says that a step leaves every entry made by another
connected client in place, order and current student included; it holds exactly
when the entry that the name selects is not somebody else's.
-/

namespace HelpServer

open CStrings HelpQueue InputBuffer HaltingRuns

/-- The entry was made by the `add_student` call of a connected client other than `p`. -/
def StudentOfOther (s : Server) (p : Client) (x : Student) : Prop :=
  ∃ q ∈ s.clientList, q.freed = false ∧ q.id ≠ p.id ∧ q.entry = some x.id

/-- The entry was made by the `add_ta` call of a connected client other than `p`. -/
def TaOfOther (s : Server) (p : Client) (a : Ta) : Prop :=
  ∃ q ∈ s.clientList, q.freed = false ∧ q.id ≠ p.id ∧ q.taEntry = some a.id

instance (s : Server) (p : Client) (x : Student) : Decidable (StudentOfOther s p x) :=
  inferInstanceAs (Decidable (∃ _ ∈ _, _))

instance (s : Server) (p : Client) (a : Ta) : Decidable (TaOfOther s p a) :=
  inferInstanceAs (Decidable (∃ _ ∈ _, _))

/-- The step executes the `next` of a TA. -/
def callsNext (s : Server) (e : Event) : Bool :=
  (line s e).any fun r => r.1.state = .waitingTCommand ∧ r.2 = text "next"

/-- The entries of the others stay, in their order; only `next` takes the head of the queue. -/
structure Isolated (s : Server) (e : Event) (p : Client) (t : Server) : Prop where
  students : t.queue.stuList.filter (fun x => StudentOfOther s p x) =
    (if callsNext s e then s.queue.stuList.tail else s.queue.stuList).filter
      fun x => StudentOfOther s p x
  tas : t.queue.taList.filter (fun a => TaOfOther s p a) =
    s.queue.taList.filter fun a => TaOfOther s p a

/-- The entry that the name of the client selects is not that of another client; one without
a student may be, when there is none to give to it. -/
structure SelectsOwn (s : Server) (e : Event) (p : Client) : Prop where
  student : removed s = some p → p.type = .student → ∀ x ∈ s.queue.stuList, p.name = some x.name →
    ¬ StudentOfOther s p x
  ta : removed s = some p → p.type = .ta → ∀ name a, p.name = some name →
    findTa s.queue.taList name = some a → ¬ TaOfOther s p a
  next : callsNext s e = true → ∀ name a, p.name = some name →
    findTa s.queue.taList name = some a → TaOfOther s p a →
    s.queue.stuList = [] ∧ a.currentStudent = none

section Isolation

variable {s t : Server} {e : Event} {p : Client}

theorem filter_drop_iff {α : Type} {q : α → Prop} [DecidablePred q]
    {before after : List α} {x : α} :
    (before ++ after).filter (fun y => q y) = (before ++ x :: after).filter
    (fun y => q y) ↔ ¬ q x := by
  by_cases hx : q x
  · constructor
    · intro same
      have := congrArg List.length same
      simp [hx] at this
    · exact fun h => absurd hx h
  · simp [hx]

theorem filter_change_iff {α : Type} {q : α → Prop} [DecidablePred q] {before after : List α}
    {x y : α} (same : q y ↔ q x) :
    (before ++ y :: after).filter (fun z => q z) = (before ++ x :: after).filter (fun z => q z) ↔
      (q x → y = x) := by
  by_cases hx : q x <;> simp [same, hx]

/-- A new entry is nobody else's. -/
theorem new_student_own (own : Ownership s) (x : Student) (h : x.id = s.queue.nextStudent) :
    ¬ StudentOfOther s p x := by
  rintro ⟨q, hq, _, _, mark⟩
  have := own.entries.old q hq x.id mark
  omega

theorem new_ta_own (own : Ownership s) (a : Ta) (h : a.id = s.queue.nextTa) :
    ¬ TaOfOther s p a := by
  rintro ⟨q, hq, _, _, mark⟩
  have := own.taEntries.old q hq a.id mark
  omega

/-- A student client that is removed takes the entry of its name along. -/
theorem isolated_student {name : CString} (hn : p.name = some name) (ht : p.type = .student)
    (gone : removed s = some p) (still : callsNext s e = false)
    (queue : t.queue = (s.queue.giveUpWaiting name).2) : Isolated s e p t ↔ SelectsOwn s e p := by
  have tas : t.queue.taList = s.queue.taList := by
    rw [queue]
    exact (Queue.giveUpWaiting_sublist name s.queue.toLists).2
  rcases giveUpWaiting_cases name s.queue.toLists with ⟨absent, heq⟩ | ⟨b, x, a, hq, hx, hb, heq⟩
  · have same : t.queue.stuList = s.queue.stuList := by simp [queue, Queue.giveUpWaiting, heq]
    refine iff_of_true ⟨by rw [same, still]; rfl, by rw [tas]⟩ ⟨?_, by simp [ht], by simp [still]⟩
    intro _ _ x hx named
    exact absurd (Option.some.inj (named.symm.trans hn)) (absent x hx)
  have list : t.queue.stuList = b ++ a := by simp [queue, Queue.giveUpWaiting, heq]
  have only : ∀ y ∈ s.queue.stuList, p.name = some y.name → y = x := fun y hy named =>
    List.inj_on_of_nodup_map s.queue.valid.names hy (by simp [hq])
      ((Option.some.inj (named.symm.trans hn)).trans hx.symm)
  constructor
  · intro iso
    have kept := iso.students
    rw [still, list, if_neg Bool.false_ne_true, hq, filter_drop_iff] at kept
    refine ⟨?_, by simp [ht], by simp [still]⟩
    intro _ _ y hy named
    exact (only y hy named).symm ▸ kept
  · intro own
    refine ⟨?_, by rw [tas]⟩
    rw [still, list, if_neg Bool.false_ne_true, hq, filter_drop_iff]
    exact own.student gone ht x (by simp [hq]) (hn.trans (congrArg some hx.symm))

/-- A TA client that is removed takes the first entry of its name along. -/
theorem isolated_ta {name : CString} (hn : p.name = some name) (ht : p.type = .ta)
    (gone : removed s = some p) (still : callsNext s e = false)
    (queue : t.queue = (s.queue.removeTa name).2) : Isolated s e p t ↔ SelectsOwn s e p := by
  have students : t.queue.stuList = s.queue.stuList := by
    rw [queue]
    exact (Queue.removeTa_sublist name s.queue.toLists).1
  rcases removeTa_cases name s.queue.toLists with ⟨absent, heq⟩ | ⟨b, x, a, hq, hx, hb, heq⟩
  · have same : t.queue.taList = s.queue.taList := by simp [queue, Queue.removeTa, heq]
    refine iff_of_true ⟨by rw [students, still]; rfl, by rw [same]⟩ ⟨by simp [ht], ?_,
      by simp [still]⟩
    intro _ _ n a named found
    obtain rfl := Option.some.inj (named.symm.trans hn)
    rw [findTa_eq_none.mpr absent] at found
    cases found
  have list : t.queue.taList = b ++ a := by simp [queue, Queue.removeTa, heq]
  have first := findTa_first hq hx hb
  constructor
  · intro iso
    have kept := iso.tas
    rw [list, hq, filter_drop_iff] at kept
    refine ⟨by simp [ht], ?_, by simp [still]⟩
    intro _ _ n y named found
    obtain rfl := Option.some.inj (named.symm.trans hn)
    obtain rfl := Option.some.inj (first.symm.trans found)
    exact kept
  · intro own
    refine ⟨by rw [students, still]; rfl, ?_⟩
    rw [list, hq, filter_drop_iff]
    exact own.ta gone ht name x hn first

theorem isolated_removed {name : CString} (hn : p.name = some name) (gone : removed s = some p)
    (still : callsNext s e = false) (queue : t.queue = p.withdrawn name s.queue) :
    Isolated s e p t ↔ SelectsOwn s e p := by
  cases ht : p.type with
  | notSet =>
    rw [withdrawn_notSet name s.queue ht] at queue
    exact iff_of_true ⟨by rw [queue, still]; rfl, by rw [queue]⟩ ⟨by simp [ht], by simp [ht],
      by simp [still]⟩
  | student =>
      exact isolated_student hn ht gone still (queue.trans (withdrawn_student name s.queue ht))
  | ta => exact isolated_ta hn ht gone still (queue.trans (withdrawn_ta name s.queue ht))

/-- `next` gives the head of the queue to the first TA of the name. -/
theorem isolated_next {name : CString} (hn : p.name = some name) (stays : removed s = none)
    (calls : callsNext s e = true) (listed : name ∈ s.queue.taList.map Ta.name)
    (queue : t.queue = (s.queue.nextOverall name).2) : Isolated s e p t ↔ SelectsOwn s e p := by
  have students : t.queue.stuList = s.queue.stuList.tail := by
    rw [queue]
    exact nextOverall_stuList name s.queue.toLists listed
  rcases nextOverall_cases name s.queue.toLists with ⟨absent, _⟩ | ⟨b, x, a, hq, hx, hb, heq⟩
  · obtain ⟨y, hy, named⟩ := List.mem_map.mp listed
    exact absurd named (absent y hy)
  have list : t.queue.taList = b ++ { x with currentStudent := s.queue.stuList.head? } :: a := by
    simp [queue, Queue.nextOverall, heq]
  have first := findTa_first hq hx hb
  have kept : t.queue.taList.filter (fun y => TaOfOther s p y) =
      s.queue.taList.filter (fun y => TaOfOther s p y) ↔
      (TaOfOther s p x → { x with currentStudent := s.queue.stuList.head? } = x) := by
    rw [list, hq]
    exact filter_change_iff (q := TaOfOther s p) Iff.rfl
  -- a TA that is given nobody, and had nobody, is not changed
  have unchanged : { x with currentStudent := s.queue.stuList.head? } = x ↔
      s.queue.stuList = [] ∧ x.currentStudent = none := by
    cases hs : s.queue.stuList with
    | nil =>
      constructor
      · exact fun same => ⟨rfl, (congrArg Ta.currentStudent same).symm⟩
      · rintro ⟨_, idle⟩
        cases x
        simp_all
    | cons y rest =>
      simp only [reduceCtorEq, false_and, iff_false]
      intro same
      exact s.queue.head_not_served hs (by simp [hq]) (congrArg Ta.currentStudent same).symm
  constructor
  · intro iso
    refine ⟨by simp [stays], by simp [stays], ?_⟩
    intro _ n y named found other
    obtain rfl := Option.some.inj (named.symm.trans hn)
    obtain rfl := Option.some.inj (first.symm.trans found)
    exact unchanged.mp (kept.mp iso.tas other)
  · intro own
    refine ⟨by rw [students, calls]; rfl, kept.mpr fun other => ?_⟩
    exact unchanged.mpr (own.next calls name x hn first other)

/-- Without a removal and without `next`, no entry that anyone has is touched. -/
theorem isolated_quiet (stays : removed s = none) (still : callsNext s e = false)
    (students : t.queue.stuList.filter (fun x => StudentOfOther s p x) =
      s.queue.stuList.filter fun x => StudentOfOther s p x)
    (tas : t.queue.taList.filter (fun a => TaOfOther s p a) =
      s.queue.taList.filter fun a => TaOfOther s p a) : Isolated s e p t ↔ SelectsOwn s e p := by
  refine iff_of_true ⟨?_, tas⟩ ⟨by simp [stays], by simp [stays], by simp [still]⟩
  rw [still]
  exact students

theorem isolated_executed {command : CString} {rest : List Int} (inv : Inv s)
    (hp : p ∈ s.clientList) (live : p.freed = false)
    (h : Executed e p command { s with readFdSet := rest } t) (stays : removed s = none)
    (said : line s e = some (p, command)) : Isolated s e p t ↔ SelectsOwn s e p := by
  have calls : callsNext s e = decide (p.state = .waitingTCommand ∧ command = text "next") := by
    simp [callsNext, said]
  cases h with
  | named hs => exact isolated_quiet stays (by simp [calls, hs]) rfl rfl
  | student hs _ => exact isolated_quiet stays (by simp [calls, hs]) rfl rfl
  | ta name hs _ hn =>
    refine isolated_quiet stays (by simp [calls, hs]) rfl ?_
    have own := new_ta_own inv.toOwnership (p := p) ⟨s.queue.nextTa, name, none⟩ rfl
    exact List.filter_cons_of_neg (by simpa using own)
  | enrolled name hs _ hn =>
    have same := addStudent_taList courses s.queue.nextStudent name command s.queue.toLists
    refine isolated_quiet stays (by simp [calls, hs]) ?_ (by simp [Queue.addStudent, same])
    rcases addStudent_cases courses s.queue.nextStudent name command s.queue.toLists with
      ⟨_, heq⟩ | ⟨_, _, heq⟩ | ⟨course, _, _, heq⟩
    · simp [Queue.addStudent, heq]
    · simp [Queue.addStudent, heq]
    · have own := new_student_own inv.toOwnership (p := p) ⟨s.queue.nextStudent, name, course⟩ rfl
      simp [Queue.addStudent, heq, own]
  | refused hs _ => exact isolated_quiet stays (by simp [calls, hs]) rfl rfl
  | replied msg _ _ other => exact isolated_quiet stays (by simpa [calls] using other) rfl rfl
  | idle name hs hcmd hn _ =>
    have listed := inv.listed hp live ((inv.consistent p hp).ta hs) hn
    exact isolated_next hn stays (by simp [calls, hs, hcmd]) listed rfl
  | called name x later toServe hs hcmd hn _ _ =>
    have listed := inv.listed hp live ((inv.consistent p hp).ta hs) hn
    exact isolated_next hn stays (by simp [calls, hs, hcmd]) listed rfl

end Isolation

/-- A step that serves a client leaves the entries of all others as they are exactly when its
name selects no entry of another client. -/
theorem isolation_iff (listenFd : Int) (s t : Server) (e : Event) (p : Client)
    (reached : Reachable Server.step Legal (start listenFd) s) (turn : served s = some p)
    (h : s.step e = .ok t) : Isolated s e p t ↔ SelectsOwn s e p := by
  have inv := inv_reachable reached
  have the : ∀ {fd rest c}, s.readFdSet = fd :: rest → fd ≠ s.listenFd →
      findClient fd s.clientList = .ok (some c) → c = p := fun hr hl hf =>
    Option.some.inj ((served_eq hr hl hf).symm.trans turn)
  cases outcome_of_step h with
  | selected ready hr => simp [served, hr] at turn
  | accepted rest client hr => simp [served, hr] at turn
  | removed fd rest c name queue hr hl hf gone closes hn hq =>
    obtain rfl := the hr hl hf
    exact isolated_removed hn gone (by simp [callsNext, line_of_removed gone]) hq
  | waited fd rest c input hr hl hf heard hw =>
    obtain rfl := the hr hl hf
    have unsaid : line s e = none := by simp [line, heard, hw]
    exact isolated_quiet (removed_of_reads heard) (by simp [callsNext, unsaid]) rfl rfl
  | executed fd rest c input w u hr hl hf heard hw hle hexec =>
    obtain rfl := the hr hl hf
    obtain ⟨hc, live⟩ := findClient_mem hf
    have said : line s e = some (c, input.command w) := by simp [line, heard, hw]
    have iff := isolated_executed inv hc live hexec (removed_of_reads heard) said
    exact ⟨fun iso => iff.mp ⟨iso.students, iso.tas⟩,
      fun own => ⟨(iff.mpr own).students, (iff.mpr own).tas⟩⟩

/-- A student who waits, and another of the same name who asks about no valid course. -/
def wrongCourse : List Event :=
  connects 4 ++ sends 4 (text "Ann") ++ sends 4 (text "S") ++ sends 4 (text "CSC108") ++
    connects 5 ++ sends 5 (text "Ann") ++ sends 5 (text "S") ++ sends 5 (text "CSC1") ++
    [{ quiet with ready := some [5] }]

theorem isolation_iff_wrongCourse : ∃ s t p, run Server.step (start 3) wrongCourse = .ok s ∧
    removed s = some p ∧ s.step quiet = .ok t ∧ (Isolated s quiet p t ↔ SelectsOwn s quiet p) := by
  obtain ⟨s, hrun, p, gone, named⟩ : ∃ s, run Server.step (start 3) wrongCourse = .ok s ∧
      ∃ p ∈ removed s, p.name ≠ none := exists_of_run (by decide)
  obtain ⟨name, hn⟩ := Option.ne_none_iff_exists'.mp named
  obtain ⟨t, h⟩ := step_removed (e := quiet) gone hn rfl
  exact ⟨s, t, p, hrun, gone, h,
    isolation_iff 3 s t quiet p (reachable_of_run (by decide) hrun) (removed_some gone).1 h⟩

/-- When the second one is removed, the entry of the first goes. -/
theorem not_isolated : ¬ ∀ (listenFd : Int) (s t : Server) (e : Event) (p : Client),
    Reachable Server.step Legal (start listenFd) s → served s = some p → s.step e = .ok t →
      Isolated s e p t := by
  intro always
  obtain ⟨t, hrun, empty⟩ : ∃ t, run Server.step (start 3) (wrongCourse ++ [quiet]) = .ok t ∧
      t.queue.stuList = [] := exists_of_run (by decide)
  obtain ⟨s, hfirst, p, turn, other, x, hx, owned⟩ :
      ∃ s, run Server.step (start 3) wrongCourse = .ok s ∧
      ∃ p ∈ served s, callsNext s quiet = false ∧ ∃ x ∈ s.queue.stuList, StudentOfOther s p x :=
    exists_of_run (by decide)
  obtain ⟨m, hm, h⟩ := run_snoc hrun
  obtain rfl : s = m := by simpa [hfirst] using hm
  have kept := (always 3 s t quiet p (reachable_of_run (by decide) hfirst) turn h).students
  have listed : x ∈ s.queue.stuList.filter fun x => StudentOfOther s p x :=
    List.mem_filter.mpr ⟨hx, by simpa using owned⟩
  rw [empty, other, if_neg Bool.false_ne_true] at kept
  rw [← kept] at listed
  cases listed

end HelpServer
