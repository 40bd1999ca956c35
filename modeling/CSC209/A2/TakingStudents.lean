import CSC209.A2.DeskStatistics

/-!
# The two ways to take a student

`take_next_overall` takes the head of the overall queue and then drops it from
its course; `take_next_course` drops the head of a course and then routes the
overall queue around it. When the first student of all is the first one of the
course that is asked for, the statements come in another order and the desk is
the same, in every field.
-/

namespace TakingStudents

open CStrings HaltingRuns NodeMemory LinkedChain HelpDesk DeskReading DeskRefinement DeskStatistics
open QueueAgreement
open DeskLists (Lists)

variable {clock : Nat → Int} {d : Desk} {q : Lists} {s : DeskLists.Student}
  {rest : List DeskLists.Student} {a : Addr} {n : Student} {x : Course} {c : Nat}

section Moves

/-- What dropping the first student does to its course. -/
def behead (next : Pointer) (x y : Course) : Course :=
  if x.head = x.tail then { y with head := none, tail := none } else { y with head := next }

theorem dropHead_eq (hx : d.courses[c]? = some x) (head : x.head = some a)
    (hn : d.students.get a = some n) :
    dropHead c d = .ok (d.setCourse c (behead n.nextCourse x)) := by
  have read : d.students.read x.head = .ok n := by rw [head, Memory.read_some_of_get hn]
  by_cases single : x.head = x.tail
  · have drop : behead n.nextCourse x = fun y => { y with head := none, tail := none } := by
      funext y
      exact if_pos single
    simp [dropHead, Desk.course, hx, bind, Except.bind, single, drop]
  · have drop : behead n.nextCourse x = fun y => { y with head := n.nextCourse } := by
      funext y
      exact if_neg single
    simp [dropHead, Desk.course, hx, bind, Except.bind, single, read, drop]

theorem routeAround_front (front : d.stuList = some a) (hn : d.students.get a = some n) :
    routeAround a d = .ok { d with stuList := n.nextOverall } := by
  simp [routeAround, front, Memory.read_some_of_get hn, bind, Except.bind]

/-- The student as it is once it is being helped. -/
def charged (clock : Nat → Int) (d : Desk) (n : Student) : Student :=
  { n with arrivalTime := clock d.ticks }

theorem chargeWait_eq (hn : d.students.get a = some n) :
    chargeWait clock a d = .ok
      (({ d.tick.setCourse n.course fun y =>
          { y with waitTime := y.waitTime + (clock d.ticks - n.arrivalTime) } with
        students := d.students.store a (some (charged clock d n)) } : Desk).record
        (.taken a (clock d.ticks))) := by
  have updated :
      (d.tick.setCourse n.course fun y =>
        { y with waitTime := y.waitTime + (clock d.ticks - n.arrivalTime) }).students.get a =
      some n := hn
  simp only [chargeWait, Memory.read_some_of_get hn, bind, Except.bind, Desk.updateStudent,
    Memory.update_of_get updated]
  rfl

/-- Charging the wait and leaving the two queues can be done in either order. -/
theorem leave_charge (clock : Nat → Int) (front : d.stuList = some a)
    (hn : d.students.get a = some n) (hx : d.courses[n.course]? = some x) (head : x.head = some a) :
    ∃ d',
      (do let d ← dropHead n.course d
          let d ← routeAround a d
          chargeWait clock a d) = .ok d' ∧
      (do let d ← chargeWait clock a d
          let s ← d.students.read (some a)
          dropHead s.course { d with stuList := s.nextOverall }) = .ok d' := by
  let wait : Course → Course :=
    fun y => { y with waitTime := y.waitTime + (clock d.ticks - n.arrivalTime) }
  let d₁ : Desk := { d.setCourse n.course (behead n.nextCourse x) with stuList := n.nextOverall }
  let d₂ : Desk := ({ d.tick.setCourse n.course wait with
    students :=
      d.students.store a (some (charged clock d n)) } : Desk).record (.taken a (clock d.ticks))
  have stored : d₂.students.get a = some (charged clock d n) := Memory.get_store_same hn _
  have waited : d₂.courses[n.course]? = some (wait x) := by
    simp [d₂, Desk.record, Desk.setCourse, Desk.tick, hx]
  have route : routeAround a (d.setCourse n.course (behead n.nextCourse x)) = .ok d₁ :=
    routeAround_front front hn
  have charge : chargeWait clock a d = .ok d₂ := chargeWait_eq hn
  have drop : dropHead n.course { d₂ with stuList := n.nextOverall } =
      .ok (({ d₂ with stuList := n.nextOverall } : Desk).setCourse n.course
          (behead n.nextCourse (wait x))) :=
    dropHead_eq (d := { d₂ with stuList := n.nextOverall }) (n := charged clock d n)
      waited head stored
  have swap : behead n.nextCourse (wait x) ∘ wait = wait ∘ behead n.nextCourse x := by
    funext y
    by_cases single : x.head = x.tail <;> simp [behead, wait, single]
  refine ⟨({ d₂ with stuList := n.nextOverall } : Desk).setCourse n.course
      (behead n.nextCourse (wait x)), ?_, ?_⟩
  · simp only [dropHead_eq hx head hn, bind, Except.bind, route]
    rw [chargeWait_eq (d := d₁) hn]
    simp only [d₁, d₂, Desk.setCourse, Desk.tick, Desk.record, charged, List.modify_modify_eq, swap]
    rfl
  · simp only [charge, bind, Except.bind, Memory.read_some_of_get stored]
    exact drop

end Moves

section Calls

/-- The code of a waiting student's course finds that course. -/
theorem findCourse_of_waiting (rep : Represents d q) (hs : s ∈ q.queue)
    (hx : d.courses[s.course]? = some x) :
    q.findCourse x.code = some s.course := by
  obtain ⟨code, found⟩ := rep.known s (List.mem_append_left _ hs)
  obtain ⟨lt, here, _⟩ := List.findIdx?_eq_some_iff_getElem.mp found
  have same : q.courses[s.course]? = some (tally x) := by
    rw [← rep.courses, List.getElem?_map, hx]
    rfl
  have : q.courses[s.course] = tally x := by
    rw [List.getElem?_eq_getElem lt] at same
    exact Option.some.inj same
  have code_eq : x.code = code := by simpa [this, tally] using here
  rw [code_eq]
  exact found

theorem takes_agree (clock : Nat → Int) (rep : Represents d q) (hq : q.queue = s :: rest)
    (hx : d.courses[s.course]? = some x) (taName : CString) :
    takeNextCourse clock taName x.code d = takeNextOverall clock taName d := by
  have code := findCourse_of_waiting rep (by simp [hq]) hx
  rcases rep.findTa taName with ⟨_, absent⟩ | ⟨i, t, hi, ht, present⟩
  · simp only [takeNextCourse, takeNextOverall, absent, bind, Except.bind]
  simp only [takeNextCourse, takeNextOverall, present, bind, Except.bind]
  obtain ⟨e, _, fails⟩ | ⟨q₁, d₁, hq₁, hd₁, rep₁, _, _, ht₁⟩ := release_refines clock rep ht
  · simp only [fails]
  have lt := DeskLists.lt_of_findTa hi
  have queue : q₁.queue = s :: rest := (release_queue_eq lt hq₁).trans hq
  have mem : s ∈ q₁.queue ++ q₁.serving := by simp [queue]
  have code₁ : q₁.findCourse x.code = some s.course := (release_findCourse lt hq₁ x.code).trans code
  obtain ⟨y, hy⟩ := rep₁.course_of_mem mem
  obtain ⟨n, hn, entry⟩ := get_of_entry (rep₁.students s mem)
  have course : n.course = s.course := by rw [entry]
  have front : d₁.stuList = some s.id := by
    have chain := rep₁.overall
    rw [queue] at chain
    exact Chain.pointer_eq chain
  have head : y.head = some s.id :=
    (dropHead_spec (l := []) (r := rest) rfl (by simpa [queue] using rep₁.byCourse) (by simp) hy).1
  obtain ⟨next, hta⟩ := rep₁.ta_get ht₁
  simp only [hd₁, findCourse_eq rep₁.courses, code₁, Desk.course, hy, head, front, updateTa_ok hta]
  obtain ⟨d', byCourse, overall⟩ := leave_charge clock
    (d := { d₁ with
      tas := d₁.tas.store t.id (some ⟨t.name, some s.id, next⟩)
      stuList := some s.id }) rfl hn
    (course ▸ hy) head
  rw [course] at byCourse
  obtain ⟨e₁, he₁, byCourse⟩ := bind_ok_iff.mp byCourse
  obtain ⟨e₂, he₂, byCourse⟩ := bind_ok_iff.mp byCourse
  obtain ⟨f₁, hf₁, overall⟩ := bind_ok_iff.mp overall
  obtain ⟨k, hk, overall⟩ := bind_ok_iff.mp overall
  simp only [he₁, he₂, byCourse, hf₁, hk, overall]

end Calls

/-- In every reachable state with waiting students, asking for the course of the first one is the
same as asking for anybody. -/
theorem takes_agree_reached (clock : Nat → Int) (lines : List (CString × CString))
    (calls : List Call)
    (d : Desk) (a : Addr) (reached : run (step clock) (opened lines) calls = .ok d)
    (front : d.stuList = some a) :
    ∃ n course, d.students.get a = some n ∧ d.courses[n.course]? = some course ∧
      ∀ taName, takeNextCourse clock taName course.code d = takeNextOverall clock taName d := by
  obtain ⟨q, rep, _⟩ := known_of_run calls (known_opened lines) reached
  have chain := rep.overall
  cases hq : q.queue with
  | nil =>
    rw [hq, front] at chain
    cases chain
  | cons s rest =>
    have mem : s ∈ q.queue ++ q.serving := by simp [hq]
    rw [hq, front] at chain
    obtain rfl : a = s.id := Option.some.inj (Chain.pointer_eq chain)
    obtain ⟨n, hn, entry⟩ := get_of_entry (rep.students s mem)
    have course : n.course = s.course := by rw [entry]
    obtain ⟨x, hx⟩ := rep.course_of_mem mem
    exact ⟨n, x, hn, course ▸ hx, takes_agree clock rep hq hx⟩

theorem takes_agree_two :
    let lines := [(text "CSC108", text "intro"), (text "CSC209", text "systems")]
    let calls := [Call.addTa (text "tim"), .addStudent (text "ann") (text "CSC209"),
      .addStudent (text "bob") (text "CSC108")]
    ∃ d, run (step fun _ => 0) (opened lines) calls = .ok d ∧ d.stuList = some 0 ∧
      ∃ n course, d.students.get 0 = some n ∧ d.courses[n.course]? = some course ∧
        ∀ taName, takeNextCourse (fun _ => 0) taName course.code d =
          takeNextOverall (fun _ => 0) taName d := by
  intro lines calls
  obtain ⟨d, reached, front⟩ :
      ∃ d, run (step fun _ => 0) (opened lines) calls = .ok d ∧ d.stuList = some 0 :=
    exists_of_run (by decide)
  exact ⟨d, reached, front, takes_agree_reached _ lines calls d 0 reached front⟩

end TakingStudents
