import CSC209.A2.DeskStatistics

/-!
# Waiting times and helping times

`wait_time` and `help_time` are always the sums that the log gives, for any
readings of the clock. What can fail is that a student counts once: after
giving up a student is still in the queue, and leaves it again when taken or
when giving up another time. The readings need not even be ordered.
-/

namespace DeskTimes

open CStrings HaltingRuns NodeMemory LinkedChain HelpDesk DeskReading DeskRefinement DeskHistory
open QueueAgreement DeskStatistics
open DeskLists (Lists Hold Outcome lt_of_findTa)

def leftIds (log : List Event) : List Addr := (departures log).map Prod.fst

structure TimesSound (d : Desk) : Prop where
  times : ∀ c course, d.courses[c]? = some course →
    course.waitTime = waitSum d.log c ∧ course.helpTime = helpSum d.log c
  leftOnce : (leftIds d.log).Nodup
  endedOnce : (endedIds d.log).Nodup

/-- The student that the call makes leave the queue: one who gives up, or the one who is next. -/
def departing (d : Desk) : Call → Pointer
  | .giveUpWaiting name =>
    match findStudent d name with
    | .ok p => p
    | .error _ => none
  | .takeNextOverall taName => if (taNode d taName).isSome then d.stuList else none
  | .takeNextCourse taName code =>
    if (taNode d taName).isSome then
      (findCourse d.courses code).bind fun c => (d.courses[c]?).bind Course.head
    else none
  | _ => none

variable {clock : Nat → Int} {d d' : Desk} {q q' : Lists} {a : Call} {n : Nat}

section Departures

def leaving (q : Lists) : Call → Option DeskLists.Student
  | .giveUpWaiting name => q.findStudent name
  | .takeNextOverall taName => if (q.findTa taName).isSome then q.queue.head? else none
  | .takeNextCourse taName code =>
    if (q.findTa taName).isSome then
      (q.findCourse code).bind fun c => q.queue.find? fun s => s.course == c
    else none
  | _ => none

theorem leaving_mem {s : DeskLists.Student} (h : leaving q a = some s) : s ∈ q.queue := by
  cases a with
  | giveUpWaiting name => exact List.mem_of_find?_eq_some h
  | takeNextOverall taName => exact List.mem_of_head? (Option.ite_none_right_eq_some.mp h).2
  | takeNextCourse taName code =>
    obtain ⟨c, _, hs⟩ := Option.bind_eq_some_iff.mp (Option.ite_none_right_eq_some.mp h).2
    exact List.mem_of_find?_eq_some hs
  | _ => cases h

theorem taNode_isSome (rep : Represents d q) (name : CString) :
    (taNode d name).isSome = (q.findTa name).isSome := by
  rcases taNode_eq rep name with ⟨hq, hd⟩ | ⟨i, next, t, hq, _, hd⟩ <;> simp [hq, hd]

theorem departing_eq (rep : Represents d q) (a : Call) :
    departing d a = (leaving q a).map DeskLists.Student.id := by
  cases a with
  | giveUpWaiting name => simp [departing, leaving, findStudent_eq rep]
  | takeNextOverall taName =>
    simp only [departing, leaving, taNode_isSome rep, Chain.pointer_eq rep.overall, ids,
      List.head?_map]
    split_ifs <;> rfl
  | takeNextCourse taName code =>
    simp only [departing, leaving, taNode_isSome rep, findCourse_eq rep.courses]
    split_ifs
    · cases hc : q.findCourse code with
      | none => rfl
      | some c =>
        obtain ⟨course, hcourse⟩ := rep.course_of_lt (lt_of_findCourse hc)
        have head := Chain.pointer_eq (rep.byCourse c course hcourse).1
        simp only [Option.bind_some, hcourse, head, ids, List.head?_map, inCourse,
          List.head?_filter]
    · rfl
  | _ => rfl

theorem leftIds_snoc {log : List Event} {e : Event} :
    leftIds (log ++ [e]) = leftIds log ++ ((departure e).map Prod.fst).toList := by
  simp [leftIds, departures_snoc, Option.toList_map]

theorem release_left {i : Nat} {m : Lists} (hi : i < q.staff.length)
    (h : DeskLists.releaseCurrentStudent clock i q = .ok m) : leftIds m.log = leftIds q.log := by
  obtain ⟨_, rfl⟩ | ⟨s, _, rfl⟩ := (DeskLists.releaseCurrentStudent_cases hi h).1
  · rfl
  · exact leftIds_snoc.trans (List.append_nil _)

theorem find_of_split {l r : List DeskLists.Student} {s : DeskLists.Student}
    (hq : q.queue = l ++ s :: r) (others : ∀ u ∈ l, u.course ≠ s.course) :
    (q.queue.find? fun u => u.course == s.course) = some s := by
  rw [hq, List.find?_append, List.find?_eq_none.mpr (by simpa using others)]
  simp

/-- The departures that a call records. -/
theorem left_outcome (h : Outcome clock q a n q') :
    leftIds q'.log = leftIds q.log ++ ((leaving q a).map DeskLists.Student.id).toList := by
  cases h with
  | unknownCourse | alreadyWaiting | hired => exact (List.append_nil _).symm
  | added => exact leftIds_snoc
  | notWaiting name hs => simp [leaving, hs]
  | gaveUp name s hs =>
    simp only [leaving, hs]
    exact leftIds_snoc
  | unknownTa _ name hname hi =>
    cases a with
    | takeNextOverall taName =>
      obtain rfl : taName = name := by simpa [taOf] using hname
      simp [leaving, hi]
    | takeNextCourse taName code =>
      obtain rfl : taName = name := by simpa [taOf] using hname
      simp [leaving, hi]
    | removeTa | addStudent | addTa => exact (List.append_nil _).symm
    | giveUpWaiting => simp [taOf] at hname
  | fired name i m hi hm =>
    exact (release_left (lt_of_findTa hi) hm).trans (List.append_nil _).symm
  | emptyQueue taName i m hi hm hqueue =>
    rw [release_queue_eq (lt_of_findTa hi) hm] at hqueue
    simp only [leaving, hi, hqueue]
    exact (release_left (lt_of_findTa hi) hm).trans (List.append_nil _).symm
  | tookOverall taName i m s rest hi hm hqueue =>
    have before := release_left (lt_of_findTa hi) hm
    rw [release_queue_eq (lt_of_findTa hi) hm] at hqueue
    simp only [leaving, hi, hqueue, ← before]
    exact leftIds_snoc
  | invalidCourse taName code i m hi hm hc =>
    rw [release_findCourse (lt_of_findTa hi) hm] at hc
    simp only [leaving, hi, hc]
    exact (release_left (lt_of_findTa hi) hm).trans (List.append_nil _).symm
  | emptyCourse taName code i m c hi hm hc nobody =>
    rw [release_findCourse (lt_of_findTa hi) hm] at hc
    rw [release_queue_eq (lt_of_findTa hi) hm] at nobody
    have absent : (q.queue.find? fun s => s.course == c) = none := by simpa using nobody
    simp [leaving, hi, hc, absent, release_left (lt_of_findTa hi) hm]
  | tookCourse taName code i m l r s hi hm hc hqueue others =>
    have before := release_left (lt_of_findTa hi) hm
    rw [release_findCourse (lt_of_findTa hi) hm] at hc
    rw [release_queue_eq (lt_of_findTa hi) hm] at hqueue
    simp only [leaving, hi, hc, find_of_split hqueue others, ← before, Option.isSome_some, if_true,
      Option.bind_some]
    exact leftIds_snoc

end Departures

section Runs

theorem mem_leftIds {log : List Event} {s : Addr} :
    s ∈ leftIds log ↔ s ∈ takenIds log ∨ s ∈ bailedIds log := by
  constructor
  · intro h
    obtain ⟨x, hx, rfl⟩ := List.mem_map.mp h
    exact mem_departures hx
  · rintro (h | h)
    all_goals
      obtain ⟨x, hx, rfl⟩ := List.mem_map.mp h
      obtain ⟨e, he, hd⟩ := List.mem_filterMap.mp hx
      refine List.mem_map_of_mem (List.mem_filterMap.mpr ⟨e, he, ?_⟩)
      cases e <;> first | exact hd | cases hd

/-- The state as long as nobody has left twice. -/
def Once (d : Desk) : Prop := ∃ q, Represents d q ∧ History q ∧ (leftIds q.log).Nodup

theorem times_of (rep : Represents d q) (history : History q) (once : (leftIds q.log).Nodup) :
    TimesSound d := by
  refine ⟨?_, rep.log ▸ once, rep.log ▸ (List.nodup_append.mp history.roll.ended_nodup).2.1⟩
  intro c course hc
  have tally_here : q.courses[c]? = some (tally course) := by
    rw [← rep.courses, List.getElem?_map, hc]
    rfl
  rw [rep.log]
  exact (history.sums c _ tally_here).2.2

theorem once_step (once : Once d) (h : step clock d a = .ok d') :
    Once d' ↔ ∀ s ∈ departing d a, s ∉ bailedIds d.log := by
  obtain ⟨q, rep, history, once⟩ := once
  obtain ⟨n, q', hq, _, rep'⟩ := (step_ok_iff rep).mp h
  have history' := (history_kept clock).call history hq
  have left := left_outcome (DeskLists.call_cases hq)
  rw [departing_eq rep, rep.log]
  have once_iff : Once d' ↔ (leftIds q'.log).Nodup := by
    constructor
    · rintro ⟨q1, rep1, _, once1⟩
      rw [← rep'.log, rep1.log]
      exact once1
    · exact fun once' => ⟨q', rep', history', once'⟩
  rw [once_iff, left]
  cases hs : leaving q a with
  | none => simpa using once
  | some s =>
    obtain ⟨_, untaken, _, _⟩ := history.roll.of_waiting (leaving_mem hs)
    constructor
    · intro nodup u hu bailed
      obtain rfl : s.id = u := by simpa using hu
      exact (List.nodup_append.mp nodup).2.2 s.id (mem_leftIds.mpr (.inr bailed)) s.id (by simp) rfl
    · intro unbailed
      have fresh : s.id ∉ leftIds q.log := by
        rw [mem_leftIds]
        rintro (taken | bailed)
        · exact untaken taken
        · exact unbailed s.id rfl bailed
      refine List.nodup_append.mpr ⟨once, List.nodup_singleton _, ?_⟩
      rintro u hu v hv rfl
      exact fresh (List.mem_singleton.mp hv ▸ hu)

theorem times_iff (known : Known d) : TimesSound d ↔ Once d := by
  obtain ⟨q, rep, history⟩ := known
  constructor
  · exact fun sound => ⟨q, rep, history, rep.log ▸ sound.leftOnce⟩
  · rintro ⟨q', rep', history', once⟩
    exact times_of rep' history' once

theorem times_step (once : Once d) (a : Call) :
    (∃ d', step clock d a = .ok d' ∧ TimesSound d') ↔
      ¬ ReleasesFreed d a ∧ ∀ s ∈ departing d a, s ∉ bailedIds d.log := by
  have ⟨q, rep, history, _⟩ := once
  have known : Known d := ⟨q, rep, history⟩
  rw [← step_fails_iff clock rep]
  cases h : step clock d a with
  | error e => simp
  | ok d' =>
    simp only [Except.ok.injEq, exists_eq_left', reduceCtorEq, exists_false, not_false_eq_true,
      true_and]
    rw [times_iff (known.step h)]
    exact once_step once h

end Runs

/-- The times are the sums over the students as long as nobody leaves the queue after giving up and
no TA releases a student twice; for the readings of the clock no order is needed. -/
theorem times_accounted (clock : Nat → Int) (lines : List (CString × CString)) (calls : List Call) :
    TimesSound (opened lines) ∧
    (Along (step clock) (fun d a => ∃ d', step clock d a = .ok d' ∧ TimesSound d')
        (opened lines) calls ↔
      Along (step clock) (fun d a => ¬ ReleasesFreed d a ∧ ∀ s ∈ departing d a, s ∉ bailedIds d.log)
        (opened lines) calls) := by
  have known := known_opened lines
  have base : Once (opened lines) := ⟨_, opened_represents lines, opened_history lines, by
    simp [DeskLists.opened, leftIds, departures]⟩
  refine ⟨(times_iff known).mpr base, ?_⟩
  refine along_iff base ?_ (fun d a once => times_step once a) calls
  intro d a d' once sound h
  exact (once_step once h).mpr ((times_step once a).mp sound).2

/-- A student who gives up twice is charged twice. -/
theorem charged_twice : ¬ ∀ (clock : Nat → Int), (∀ i j, i ≤ j → clock i ≤ clock j) →
    ∀ (lines : List (CString × CString))
    (calls : List Call), Along (step clock)
    (fun d a => ∃ d', step clock d a = .ok d' ∧ TimesSound d') (opened lines) calls := by
  intro always
  let clock : Nat → Int := fun k => k
  let lines := [(text "CSC209", text "systems")]
  let first := [Call.addStudent (text "ann") (text "CSC209"), .giveUpWaiting (text "ann")]
  obtain ⟨d, hrun, twice⟩ : ∃ d, run (step clock) (opened lines)
      (first ++ [.giveUpWaiting (text "ann")]) = .ok d ∧ ¬ (leftIds d.log).Nodup :=
    exists_of_run (by decide)
  obtain ⟨m, hm, d', hd', sound⟩ :=
    Along.last first (always clock (fun _ _ h => Int.ofNat_le.mpr h) lines _) hrun
  obtain rfl : d = d' := Except.ok.inj (hm.symm.trans hd')
  exact twice sound.leftOnce

end DeskTimes
