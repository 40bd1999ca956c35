import CSC209.A2.DeskTimes

/-!
# The order of service

Students are identified by the nodes of their successful `add_student` calls.
Who was added and not yet taken is read off the log, in the order of addition.
Taking, in either way, serves the first of them, of the course asked for in
the second way. What can go wrong is a TA that still points at a student it
has released: its next call reads the freed node and serves nobody.
-/

namespace ServiceOrder

open CStrings HaltingRuns NodeMemory LinkedChain HelpDesk DeskReading DeskRefinement DeskHistory
open QueueAgreement DeskStatistics DeskTimes
open DeskLists (Lists Hold Outcome lt_of_findTa)

/-- Added and not yet taken, earliest first. -/
def waiting (log : List Event) : List Addr := (addedIds log).filter fun s => s ∉ takenIds log

/-- The earliest-added student that a call by a listed TA has to serve. -/
def due (d : Desk) : Call → Option Addr
  | .takeNextOverall taName => if (taNode d taName).isSome then (waiting d.log).head? else none
  | .takeNextCourse taName code =>
    if (taNode d taName).isSome then
      (findCourse d.courses code).bind fun c => (ofCourse d.log c (waiting d.log)).head?
    else none
  | _ => none

/-- In each course, served in the order of addition, nobody skipped and nobody served twice. -/
structure InOrder (d : Desk) : Prop where
  once : (takenIds d.log).Nodup
  prefixes : ∀ c, ofCourse d.log c (takenIds d.log) <+: ofCourse d.log c (addedIds d.log)

/-- The call returns, and the TA that it names serves the student that is due and nobody else. -/
def ServesDue (clock : Nat → Int) (d : Desk) (a : Call) : Prop :=
  ∀ s ∈ due d a, ∃ d', step clock d a = .ok d' ∧ takenIds d'.log = takenIds d.log ++ [s] ∧
    (taOf a).bind (currentStudent d') = some s

variable {clock : Nat → Int} {d d' : Desk} {q q' : Lists} {a : Call} {n : Nat}

theorem waiting_eq (history : History q) : waiting q.log = ids q.queue :=
  history.roll.queue_ids.symm

theorem findTa_setHold {i : Nat} {hold : Hold} (name : CString) :
    (q.setHold i hold).findTa name = q.findTa name :=
  DeskLists.findIdx?_modify (· == name) fun _ => rfl

theorem release_findTa {i : Nat} {m : Lists} (hi : i < q.staff.length)
    (h : DeskLists.releaseCurrentStudent clock i q = .ok m) (name : CString) :
    m.findTa name = q.findTa name := by
  obtain ⟨_, rfl⟩ | ⟨s, _, rfl⟩ := (DeskLists.releaseCurrentStudent_cases hi h).1
  · rfl
  · exact findTa_setHold name

theorem release_taken {i : Nat} {m : Lists} (hi : i < q.staff.length)
    (h : DeskLists.releaseCurrentStudent clock i q = .ok m) : takenIds m.log = takenIds q.log := by
  obtain ⟨_, rfl⟩ | ⟨s, _, rfl⟩ := (DeskLists.releaseCurrentStudent_cases hi h).1
  · rfl
  · exact takenIds_snoc.trans (List.append_nil _)

/-- Reading the log for the waiting students is looking at the queue. -/
theorem due_eq (rep : Represents d q) (history : History q) :
    due d a = match a with
      | .takeNextOverall _ | .takeNextCourse .. => (leaving q a).map DeskLists.Student.id
      | _ => none := by
  cases a with
  | takeNextOverall taName =>
    simp only [due, leaving, taNode_isSome rep, rep.log, waiting_eq history, ids, List.head?_map]
    split_ifs <;> rfl
  | takeNextCourse taName code =>
    simp only [due, leaving, taNode_isSome rep, rep.log, waiting_eq history,
      findCourse_eq rep.courses]
    split_ifs
    · cases hc : q.findCourse code with
      | none => rfl
      | some c =>
        have here : ofCourse q.log c (ids q.queue) = ids (inCourse q.queue c) := by
          rw [ofCourse, ids, List.filter_map]
          refine congrArg _ (List.filter_congr fun s hs => ?_)
          by_cases same : s.course = c <;> simp [(history.roll.of_waiting hs).2.2.1, same]
        simp only [Option.bind_some, here]
        simp only [ids, List.head?_map, inCourse, List.head?_filter]
    · rfl
  | _ => rfl

/-- What a TA has taken is what it is serving. -/
theorem serve_current {i : Nat} {m : Lists} {s : DeskLists.Student} {rest : List DeskLists.Student}
    {name : CString} (hi : q.findTa name = some i)
    (hm : DeskLists.releaseCurrentStudent clock i q = .ok m) :
    takenIds (DeskLists.serve clock m i s rest).log = takenIds q.log ++ [s.id] ∧
      ((DeskLists.serve clock m i s rest).findTa name).bind
        (fun j => ((DeskLists.serve clock m i s rest).holdOf j).pointer) = some s.id := by
  have lt := lt_of_findTa hi
  have found : (DeskLists.serve clock m i s rest).findTa name = some i := by
    refine Eq.trans ?_ ((release_findTa lt hm name).trans hi)
    exact findTa_setHold name
  have lt' := (DeskLists.releaseCurrentStudent_cases lt hm).2.2
  have hold : (DeskLists.serve clock m i s rest).holdOf i =
      .serving { s with arrivalTime := clock m.ticks } := DeskLists.holdOf_setHold (q := m) lt' _
  refine ⟨?_, by simp [found, hold, Hold.pointer]⟩
  rw [← release_taken lt hm]
  exact takenIds_snoc

theorem due_outcome {s : DeskLists.Student} (h : Outcome clock q a n q')
    (take : taOf a ≠ none) (hs : leaving q a = some s) :
    takenIds q'.log = takenIds q.log ++ [s.id] ∧
      (taOf a).bind
      (fun name => (q'.findTa name).bind fun j => (q'.holdOf j).pointer) = some s.id := by
  cases h with
  | unknownCourse | alreadyWaiting | hired | added | fired => cases hs
  | notWaiting | gaveUp => exact absurd rfl take
  | unknownTa _ name hname hi =>
    cases a with
    | takeNextOverall taName =>
      obtain rfl : taName = name := by simpa [taOf] using hname
      simp [leaving, hi] at hs
    | takeNextCourse taName code =>
      obtain rfl : taName = name := by simpa [taOf] using hname
      simp [leaving, hi] at hs
    | removeTa => cases hs
    | addStudent | addTa | giveUpWaiting => exact absurd rfl take
  | emptyQueue taName i m hi hm hqueue =>
    rw [release_queue_eq (lt_of_findTa hi) hm] at hqueue
    simp [leaving, hqueue] at hs
  | tookOverall taName i m u rest hi hm hqueue =>
    rw [release_queue_eq (lt_of_findTa hi) hm] at hqueue
    obtain rfl : u = s := by simpa [leaving, hi, hqueue] using hs
    exact serve_current hi hm
  | invalidCourse taName code i m hi hm hc =>
    rw [release_findCourse (lt_of_findTa hi) hm] at hc
    simp [leaving, hc] at hs
  | emptyCourse taName code i m c hi hm hc nobody =>
    rw [release_findCourse (lt_of_findTa hi) hm] at hc
    rw [release_queue_eq (lt_of_findTa hi) hm] at nobody
    have absent : (q.queue.find? fun s => s.course == c) = none := by simpa using nobody
    simp [leaving, hc, absent] at hs
  | tookCourse taName code i m l r u hi hm hc hqueue others =>
    rw [release_findCourse (lt_of_findTa hi) hm] at hc
    rw [release_queue_eq (lt_of_findTa hi) hm] at hqueue
    obtain rfl : u = s := by simpa [leaving, hi, hc, find_of_split hqueue others] using hs
    exact serve_current hi hm

theorem inOrder_of (rep : Represents d q) (history : History q) : InOrder d := by
  refine ⟨rep.log ▸ history.roll.takenOnce, fun c => ?_⟩
  rw [rep.log, ← history.roll.order c]
  exact List.prefix_append _ _

/-- A due student is served unless the TA first releases a freed one. -/
theorem serves_iff (known : Known d) (a : Call) :
    ServesDue clock d a ↔ due d a = none ∨ ¬ ReleasesFreed d a := by
  have ⟨q, rep, history⟩ := known
  rw [← step_fails_iff clock rep]
  have take : ∀ s, due d a = some s → taOf a ≠ none ∧ ∃ u, leaving q a = some u ∧ u.id = s := by
    intro s hs
    rw [due_eq rep history] at hs
    cases a with
    | takeNextOverall | takeNextCourse =>
      obtain ⟨u, hu, hid⟩ := Option.map_eq_some_iff.mp hs
      exact ⟨by simp [taOf], u, hu, hid⟩
    | _ => cases hs
  constructor
  · intro serves
    cases hs : due d a with
    | none => exact .inl rfl
    | some s =>
      obtain ⟨d', h, _⟩ := serves s hs
      refine .inr ?_
      rintro ⟨e, he⟩
      simp [h] at he
  · rintro (hnone | returns) s hs
    · simp [hnone] at hs
    · cases h : step clock d a with
      | error e => exact absurd ⟨e, h⟩ returns
      | ok d' =>
        obtain ⟨n, q', hq, _, rep'⟩ := (step_ok_iff rep).mp h
        obtain ⟨named, u, hu, rfl⟩ := take s hs
        obtain ⟨taken, current⟩ := due_outcome (DeskLists.call_cases hq) named hu
        refine ⟨d', rfl, ?_, ?_⟩
        · rw [rep'.log, rep.log]
          exact taken
        · simpa only [currentStudent_eq rep'] using current

end ServiceOrder
