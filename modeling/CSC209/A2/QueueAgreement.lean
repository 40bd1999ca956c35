import CSC209.A2.DeskRefinement
import CSC209.A2.DeskHistory

/-!
# The overall queue and the queues of the courses

In every state that a sequence of calls reaches, the queue of each course is
the part of the overall queue with that course, in the same order. A call that
does not return is one that makes a TA release a student a second time; it
fails when it reads the freed node, before any queue is touched.
-/

namespace QueueAgreement

open CStrings HaltingRuns NodeMemory LinkedChain HelpDesk DeskReading DeskRefinement DeskHistory
open DeskLists (Lists Hold holdOf_eq)

/-- The node of the TA that a name stands for. -/
def taNode (d : Desk) (name : CString) : Option Ta :=
  match findTa d name with
  | .ok (some a) => d.tas.get a
  | _ => none

def currentStudent (d : Desk) (name : CString) : Pointer := (taNode d name).bind Ta.currentStudent

/-- The call makes its TA release a student that has been released before. -/
def ReleasesFreed (d : Desk) (a : Call) : Prop :=
  ∃ s ∈ (taOf a).bind (currentStudent d), d.students.Freed s

instance (m : Memory Student) (a : Addr) : Decidable (m.Freed a) :=
  inferInstanceAs (Decidable (_ ∧ _))

instance (d : Desk) (a : Call) : Decidable (ReleasesFreed d a) :=
  inferInstanceAs (Decidable (∃ _ ∈ _, _))

/-- The students of a chain whose course pointer is the given course. -/
def withCourse (d : Desk) (c : Nat) (l : List Addr) : List Addr :=
  l.filter fun a => (d.students.get a).any fun s => s.course == c

structure Agree (d : Desk) : Prop where
  queues : ∃ l, Chain (d.students.link Student.nextOverall) d.stuList l ∧ l.Nodup ∧
    ∀ c course, d.courses[c]? = some course →
      Chain (d.students.link Student.nextCourse) course.head (withCourse d c l) ∧
      course.tail = (withCourse d c l).getLast? ∧
      (∀ t, course.tail = some t → d.students.link Student.nextCourse t = some none) ∧
      (course.head = none ↔ course.tail = none)

variable {clock : Nat → Int} {d d' : Desk} {q q' : Lists} {a : Call} {n : Nat}

section Lists

theorem release_error_iff {e : Fault} {i : Nat} :
    DeskLists.releaseCurrentStudent clock i q = .error e ↔
      e = .deadPointer ∧ ∃ x, q.holdOf i = .released x := by
  rw [DeskLists.releaseCurrentStudent]
  cases q.holdOf i <;> simp [eq_comm]

/-- After the release nothing can fail. -/
theorem release_then_error_iff {e : Fault} {i : Nat} {f : Lists → Except Fault (Nat × Lists)}
    (total : ∀ m, ∃ r, f m = .ok r) :
    (DeskLists.releaseCurrentStudent clock i q >>= f) = .error e ↔
      e = .deadPointer ∧ ∃ x, q.holdOf i = .released x := by
  simp only [bind_error_iff, release_error_iff, or_iff_left_iff_imp]
  rintro ⟨m, _, hm⟩
  obtain ⟨r, hr⟩ := total m
  simp [hr] at hm

/-- A call on the lists fails only by releasing a released student. -/
theorem call_error_iff {e : Fault} :
    DeskLists.call clock q a = .error e ↔ e = .deadPointer ∧
      ∃ name i x, taOf a = some name ∧ q.findTa name = some i ∧ q.holdOf i = .released x := by
  cases a with
  | addStudent name code => simp [DeskLists.call, taOf]
  | giveUpWaiting name => simp [DeskLists.call, taOf]
  | addTa name => simp [DeskLists.call, taOf]
  | removeTa name =>
    simp only [DeskLists.call, DeskLists.removeTa]
    cases hi : q.findTa name with
    | none => simp [taOf, hi]
    | some i =>
      refine (release_then_error_iff fun m => ⟨_, rfl⟩).trans ?_
      simp [taOf, hi]
  | takeNextOverall taName =>
    simp only [DeskLists.call, DeskLists.takeNextOverall]
    cases hi : q.findTa taName with
    | none => simp [taOf, hi]
    | some i =>
      refine (release_then_error_iff fun m => ?_).trans ?_
      · cases m.queue <;> exact ⟨_, rfl⟩
      · simp [taOf, hi]
  | takeNextCourse taName code =>
    simp only [DeskLists.call, DeskLists.takeNextCourse]
    cases hi : q.findTa taName with
    | none => simp [taOf, hi]
    | some i =>
      refine (release_then_error_iff fun m => ?_).trans ?_
      · cases m.findCourse code with
        | none => exact ⟨_, rfl⟩
        | some c =>
          dsimp only
          cases m.queue.find? fun s => s.course == c <;> exact ⟨_, rfl⟩
      · simp [taOf, hi]

end Lists

section Runs

theorem step_eq : step clock d a = (call clock d a).map Prod.snd := by
  cases h : call clock d a <;> simp [step, h, bind, Except.bind, Except.map]

/-- A step of the desk is a call on its lists. -/
theorem step_ok_iff (rep : Represents d q) :
    step clock d a = .ok d' ↔ ∃ n q', DeskLists.call clock q a = .ok (n, q') ∧
      call clock d a = .ok (n, d') ∧ Represents d' q' := by
  have sim := call_refines clock rep a
  rw [step_eq]
  cases hq : DeskLists.call clock q a with
  | error e =>
    rw [hq] at sim
    simp [show call clock d a = .error e from sim, Except.map]
  | ok r =>
    rw [hq] at sim
    obtain ⟨d1, hd, rep1⟩ := sim
    simp only [hd, Except.map, Except.ok.injEq]
    constructor
    · rintro rfl
      exact ⟨r.1, r.2, rfl, rfl, rep1⟩
    · rintro ⟨_, _, _, hd', _⟩
      exact (Prod.mk.inj hd').2

theorem step_error_iff (rep : Represents d q) {e : Fault} :
    step clock d a = .error e ↔ DeskLists.call clock q a = .error e := by
  have sim := call_refines clock rep a
  rw [step_eq]
  cases hq : DeskLists.call clock q a with
  | error e' =>
    rw [hq] at sim
    simp [show call clock d a = .error e' from sim, Except.map]
  | ok r =>
    rw [hq] at sim
    obtain ⟨d1, hd, _⟩ := sim
    simp [hd, Except.map]

/-- What a TA's name stands for. -/
theorem taNode_eq (rep : Represents d q) (name : CString) :
    (q.findTa name = none ∧ taNode d name = none) ∨
      ∃ i next t, q.findTa name = some i ∧ q.staff[i]? = some t ∧
        taNode d name = some ⟨t.name, (q.holdOf i).pointer, next⟩ := by
  rcases rep.findTa name with ⟨hq, hd⟩ | ⟨i, t, hq, ht, hd⟩
  · exact .inl ⟨hq, by simp [taNode, hd]⟩
  · obtain ⟨next, hn⟩ := rep.ta_get ht
    exact .inr ⟨i, next, t, hq, ht, by simp [taNode, hd, hn]⟩

theorem currentStudent_eq (rep : Represents d q) (name : CString) :
    currentStudent d name = (q.findTa name).bind fun i => (q.holdOf i).pointer := by
  rcases taNode_eq rep name with ⟨hq, hd⟩ | ⟨i, next, t, hq, _, hd⟩
  · simp [currentStudent, hq, hd]
  · simp [currentStudent, hq, hd]

/-- What a TA points at is freed iff it has released it. -/
theorem freed_iff (rep : Represents d q) {i : Nat} (hi : i < q.staff.length) (s : Addr) :
    ((q.holdOf i).pointer = some s ∧ d.students.Freed s) ↔ q.holdOf i = .released s := by
  have ht := List.getElem?_eq_getElem hi
  cases hold : q.holdOf i with
  | idle => simp [Hold.pointer]
  | serving u =>
    obtain ⟨_, k, hk, _⟩ := served_node rep ht hold
    simp only [Hold.pointer, Option.some.injEq, reduceCtorEq, iff_false]
    rintro ⟨rfl, _, gone⟩
    simp [hk] at gone
  | released x =>
    have freed := rep.released _ (List.mem_of_getElem? ht) x (by rw [← holdOf_eq ht, hold])
    simp only [Hold.pointer, Option.some.injEq, DeskLists.Hold.released.injEq]
    exact ⟨fun h => h.1, fun h => ⟨h, h ▸ freed⟩⟩

theorem releasesFreed_iff (rep : Represents d q) :
    ReleasesFreed d a ↔
      ∃ name i x, taOf a = some name ∧ q.findTa name = some i ∧ q.holdOf i = .released x := by
  simp only [ReleasesFreed, Option.mem_def, Option.bind_eq_some_iff, currentStudent_eq rep]
  constructor
  · rintro ⟨s, ⟨name, hname, i, hi, hp⟩, freed⟩
    exact ⟨name, i, s, hname, hi, (freed_iff rep (DeskLists.lt_of_findTa hi) s).mp ⟨hp, freed⟩⟩
  · rintro ⟨name, i, x, hname, hi, hold⟩
    obtain ⟨hp, freed⟩ := (freed_iff rep (DeskLists.lt_of_findTa hi) x).mpr hold
    exact ⟨x, ⟨name, hname, i, hi, hp⟩, freed⟩

/-- A step fails exactly where a TA releases a released student. -/
theorem step_fails_iff (clock : Nat → Int) (rep : Represents d q) :
    (∃ e, step clock d a = .error e) ↔ ReleasesFreed d a := by
  simp only [step_error_iff rep, call_error_iff, releasesFreed_iff rep, exists_eq_left]

/-- The desk holds some lists whose history is its log. -/
def Known (d : Desk) : Prop := ∃ q, Represents d q ∧ History q

theorem opened_history (lines : List (CString × CString)) : History (DeskLists.opened lines) := by
  refine ⟨⟨?_, ?_, rfl, ?_, ?_, ?_, ?_, List.Perm.refl _, ?_, fun _ => rfl⟩, ?_⟩
  all_goals simp [DeskLists.opened, addedIds, additions, takenIds, takings, bailedIds, giveUps,
    Lists.serving]
  intro c x hx
  simp only [List.getElem?_map, Option.map_eq_some_iff] at hx
  obtain ⟨l, _, rfl⟩ := hx
  simp [endedIds, bailedIds, helpEnds, giveUps, ofCourse, waitSum, helpSum, departures]

theorem known_opened (lines : List (CString × CString)) : Known (opened lines) :=
  ⟨_, opened_represents lines, opened_history lines⟩

theorem Known.step (known : Known d) (h : step clock d a = .ok d') : Known d' := by
  obtain ⟨q, rep, history⟩ := known
  obtain ⟨n, q', hq, _, rep'⟩ := (step_ok_iff rep).mp h
  exact ⟨q', rep', (history_kept clock).call history hq⟩

theorem known_of_run (calls : List Call) (known : Known d)
    (reached : run (step clock) d calls = .ok d') :
    Known d' := by
  induction calls generalizing d with
  | nil =>
    obtain rfl : d = d' := by simpa [run] using reached
    exact known
  | cons a rest ih =>
    obtain ⟨m, first, later⟩ := run_ok_cons reached
    exact ih (known.step first) later

end Runs

theorem withCourse_eq (rep : Represents d q) (c : Nat) :
    withCourse d c (ids q.queue) = ids (inCourse q.queue c) := by
  rw [withCourse, ids, List.filter_map]
  refine congrArg _ (List.filter_congr fun s hs => ?_)
  obtain ⟨k, hk, he⟩ := get_of_entry (rep.students s (List.mem_append_left _ hs))
  have same : k.course = s.course := by rw [he]
  simp [hk, same]

theorem agree_of_represents (rep : Represents d q) : Agree d := by
  refine ⟨ids q.queue, rep.overall, rep.overall.nodup, ?_⟩
  intro c course hc
  obtain ⟨chain, tail⟩ := rep.byCourse c course hc
  rw [withCourse_eq rep]
  refine ⟨chain, tail, ?_, ?_⟩
  · intro t ht
    obtain ⟨l, hl⟩ := List.getLast?_eq_some_iff.mp (tail ▸ ht)
    obtain ⟨_, _, _, p, hp, hend⟩ := segment_append.mp (hl ▸ chain)
    exact hend ▸ hp
  · rw [Chain.pointer_eq chain, tail]
    cases ids (inCourse q.queue c) <;> simp

/-- After every call that returns the two kinds of queue agree, and the calls that do not return
release a student that has been released before. -/
theorem queues_agree (clock : Nat → Int) (lines : List (CString × CString)) (calls : List Call) :
    Agree (opened lines) ∧
    Along (step clock) (fun d a =>
      (∃ d', step clock d a = .ok d' ∧ Agree d') ∨
      (step clock d a = .error .deadPointer ∧ ReleasesFreed d a)) (opened lines) calls := by
  refine ⟨agree_of_represents (opened_represents lines), ?_⟩
  refine along_of_invariant (known_opened lines) (fun _ _ _ known h => known.step h) ?_ calls
  rintro d a ⟨q, rep, history⟩
  cases h : step clock d a with
  | ok d' =>
    obtain ⟨q', rep', _⟩ := Known.step ⟨q, rep, history⟩ h
    exact .inl ⟨d', rfl, agree_of_represents rep'⟩
  | error e =>
    obtain ⟨rfl, _⟩ := call_error_iff.mp ((step_error_iff rep).mp h)
    exact .inr ⟨rfl, (step_fails_iff clock rep).mp ⟨_, h⟩⟩

end QueueAgreement
