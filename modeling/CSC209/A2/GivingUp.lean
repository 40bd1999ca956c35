import CSC209.A2.DeskStatistics

/-!
# Giving up

What `give_up_waiting` is to do: take the student out of the overall queue and
out of the queue of its course, and count it there. The searches for the
predecessors stop at the student itself, so it is counted and stays in both
queues. Only a name that nobody waits under is handled as it should be.
-/

namespace GivingUp

open CStrings HaltingRuns NodeMemory LinkedChain HelpDesk DeskReading DeskRefinement DeskStatistics
open QueueAgreement
open DeskLists (Lists)

def OverallQueue (d : Desk) (l : List Addr) : Prop :=
  Chain (d.students.link Student.nextOverall) d.stuList l

def CourseQueue (d : Desk) (x : Course) (l : List Addr) : Prop :=
  Chain (d.students.link Student.nextCourse) x.head l ∧ x.tail = l.getLast?

def Waits (d : Desk) (s : Addr) (n : Student) : Prop :=
  (∃ l, OverallQueue d l ∧ s ∈ l) ∧ d.students.get s = some n

/-- Course `c` after the student has left it, if it was the student's. -/
def countBailed (clock : Nat → Int) (d : Desk) (n : Student) (c : Nat) (x : DeskLists.Course) :
    DeskLists.Course :=
  if c = n.course then
    { x with bailed := x.bailed + 1, waitTime := x.waitTime + (clock d.ticks - n.arrivalTime) }
  else x

/-- The student has left both queues and is counted, and nothing else has changed. -/
structure Removed (clock : Nat → Int) (s : Addr) (n : Student) (d d' : Desk) : Prop where
  overall : ∀ l, OverallQueue d l → OverallQueue d' (l.erase s)
  courses : d'.courses.length = d.courses.length
  course : ∀ c x, d.courses[c]? = some x → ∃ y, d'.courses[c]? = some y ∧
    (∀ l, CourseQueue d x l → CourseQueue d' y (l.erase s)) ∧
    tally y = countBailed clock d n c (tally x)
  others : ∀ a, a ≠ s → entryAt d'.students a = entryAt d.students a
  tas : d'.tas = d.tas
  taList : d'.taList = d.taList

/-- The call reports a name that nobody waits under, and takes out any other student. -/
def TakesOut (clock : Nat → Int) (d : Desk) (name : CString) : Prop :=
  ((¬ ∃ s n, Waits d s n ∧ n.name = name) → giveUpWaiting clock name d = .ok (1, d)) ∧
    ∀ s n, Waits d s n → n.name = name →
      ∃ d', giveUpWaiting clock name d = .ok (0, d') ∧ Removed clock s n d d'

variable {clock : Nat → Int} {d : Desk} {q : Lists} {name : CString} {s : Addr} {n : Student}

theorem waits_iff (rep : Represents d q) :
    (∃ s n, Waits d s n ∧ n.name = name) ↔ ∃ u, q.findStudent name = some u := by
  constructor
  · rintro ⟨s, n, ⟨⟨l, chain, hs⟩, hn⟩, named⟩
    obtain rfl := Chain.unique chain rep.overall
    obtain ⟨u, hu, rfl⟩ := mem_ids.mp hs
    obtain ⟨k, hk, entry⟩ := get_of_entry (rep.students u (List.mem_append_left _ hu))
    obtain rfl : n = k := Option.some.inj (hn.symm.trans hk)
    have same : u.name = name := by rw [entry]; exact named
    exact Option.isSome_iff_exists.mp (List.find?_isSome.mpr ⟨u, hu, by simpa using same⟩)
  · rintro ⟨u, found⟩
    have hu := List.mem_of_find?_eq_some found
    have named : u.name = name := by simpa using List.find?_some found
    obtain ⟨k, hk, entry⟩ := get_of_entry (rep.students u (List.mem_append_left _ hu))
    exact ⟨u.id, k, ⟨⟨_, rep.overall, mem_ids.mpr ⟨u, hu, rfl⟩⟩, hk⟩, by rw [← named, entry]⟩

/-- After the call the overall queue is what it was. -/
theorem queue_stays (rep : Represents d q) {l : List Addr} (chain : OverallQueue d l) {d' : Desk}
    {code : Nat} (gave : giveUpWaiting clock name d = .ok (code, d')) : OverallQueue d' l := by
  obtain rfl := Chain.unique chain rep.overall
  have sim : DeskRefinement.Simulates (giveUpWaiting clock name d)
      (.ok (DeskLists.giveUpWaiting clock name q)) :=
    giveUpWaiting_refines rep name
  cases found : q.findStudent name with
  | none =>
    simp only [DeskLists.giveUpWaiting, found] at sim
    obtain ⟨d₁, run, rep₁⟩ := sim
    obtain ⟨_, rfl⟩ := Prod.mk.inj (Except.ok.inj (run.symm.trans gave))
    exact rep₁.overall
  | some u =>
    simp only [DeskLists.giveUpWaiting, found] at sim
    obtain ⟨d₁, run, rep₁⟩ := sim
    obtain ⟨_, rfl⟩ := Prod.mk.inj (Except.ok.inj (run.symm.trans gave))
    exact rep₁.overall

theorem takesOut_of (rep : Represents d q) :
    TakesOut clock d name ↔ ¬ ∃ s n, Waits d s n ∧ n.name = name := by
  constructor
  · rintro ⟨_, takes⟩ ⟨s, n, waits, named⟩
    obtain ⟨d', gave, removed⟩ := takes s n waits named
    obtain ⟨⟨l, chain, hs⟩, _⟩ := waits
    have same := Chain.unique (removed.overall l chain) (queue_stays rep chain gave)
    have nodup : l.Nodup := Chain.nodup chain
    rw [← same] at hs
    exact absurd rfl (nodup.mem_erase_iff.mp hs).1
  · intro nobody
    refine ⟨fun _ => ?_, fun s n waits named => absurd ⟨s, n, waits, named⟩ nobody⟩
    have absent : q.findStudent name = none :=
      Option.eq_none_iff_forall_ne_some.mpr fun u found => nobody ((waits_iff rep).mpr ⟨u, found⟩)
    simp [giveUpWaiting, findStudent_eq rep, absent, bind, Except.bind]

/-- In every reachable state the call does its work exactly on names that nobody waits under. -/
theorem takesOut_iff (clock : Nat → Int) (lines : List (CString × CString)) (calls : List Call)
    (d : Desk) (name : CString) (reached : run (step clock) (opened lines) calls = .ok d) :
    TakesOut clock d name ↔ ¬ ∃ s n, Waits d s n ∧ n.name = name := by
  obtain ⟨q, rep, _⟩ := known_of_run calls (known_opened lines) reached
  exact takesOut_of rep

theorem takesOut_iff_bob :
    let lines := [(text "CSC209", text "systems")]
    let calls := [Call.addStudent (text "ann") (text "CSC209")]
    ∃ d, run (step fun _ => 0) (opened lines) calls = .ok d ∧
      (TakesOut (fun _ => 0) d (text "bob") ↔ ¬ ∃ s n, Waits d s n ∧ n.name = text "bob") := by
  intro lines calls
  obtain ⟨d, reached, _⟩ : ∃ d, run (step fun _ => 0) (opened lines) calls = .ok d ∧ True :=
    exists_of_run (by decide)
  exact ⟨d, reached, takesOut_iff _ lines calls d _ reached⟩

/-- The only waiting student is still the queue after giving up. -/
theorem student_not_taken_out : ¬ ∀ (clock : Nat → Int) (lines : List (CString × CString))
    (calls : List Call) (d : Desk) (name : CString),
    run (step clock) (opened lines) calls = .ok d → TakesOut clock d name := by
  intro always
  let lines := [(text "CSC209", text "systems")]
  let calls := [Call.addStudent (text "ann") (text "CSC209")]
  obtain ⟨d, reached, front, node⟩ : ∃ d, run (step fun _ => 0) (opened lines) calls = .ok d ∧
      d.stuList = some 0 ∧ d.students.get 0 = some ⟨text "ann", 0, 0, none, none⟩ :=
    exists_of_run (by decide)
  obtain ⟨q, rep, _⟩ := known_of_run calls (known_opened lines) reached
  have ann : Waits d 0 ⟨text "ann", 0, 0, none, none⟩ :=
    ⟨⟨[0], ⟨front, none, Memory.link_of_get node, rfl⟩, by simp⟩, node⟩
  exact (takesOut_of rep).mp (always _ lines calls d _ reached) ⟨0, _, ann, rfl⟩

end GivingUp
