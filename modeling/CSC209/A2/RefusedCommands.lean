import CSC209.A2.CommandLine
import CSC209.A2.GivingUp
import CSC209.A2.NameBlocks
import CSC209.Selection

/-!
# Commands that name what is not there

A command that names an unknown student, TA or course, or adds a student who is
already waiting, should be refused with its number and its message and should
leave the desk as it is; `next` for an unknown course still finishes the TA's
current student. `stats_by_course` of an unknown course is not refused: the
program reads through NULL. The other exception is a TA who still points at a
student that has been freed.
-/

namespace RefusedCommands

open CStrings HaltingRuns NodeMemory LinkedChain HelpDesk DeskReading DeskRefinement DeskStatistics
open QueueAgreement CommandLine GivingUp Selection
open DeskLists (Lists Hold)

def CourseExists (d : Desk) (code : CString) : Prop := ∃ x ∈ d.courses, x.code = code

def IsWaiting (d : Desk) (name : CString) : Prop := ∃ s n, Waits d s n ∧ n.name = name

def Named (d : Desk) (name : CString) (a : Addr) : Prop := ∃ t, d.tas.get a = some t ∧ t.name = name

/-- The TA that a name stands for: names may be given twice, and the first one is meant. -/
def FirstTa (d : Desk) (name : CString) (a : Addr) : Prop :=
  ∃ before after, Chain (d.tas.link Ta.next) d.taList (before ++ a :: after) ∧ Named d name a ∧
    ∀ b ∈ before, ¬ Named d name b

/-- The refusals with number and message, and the TA that still finishes its current student. -/
inductive Refused (d : Desk) : List CString → Nat → CString → Pointer → Prop where
  | addCourse (name code : CString) : ¬ CourseExists d code →
      Refused d [text "add_student", name,
        code] 2 (text "Invalid Course -- student not added.") none
  | addWaiting (name code : CString) : CourseExists d code → IsWaiting d name →
      Refused d [text "add_student", name,
        code] 1 (text "This student is already in the queue.") none
  | giveUp (name : CString) : ¬ IsWaiting d name →
      Refused d [text "give_up",
        name] 1 (text "There was no student by that name waiting in the queue.") none
  | removeTa (name : CString) : (∀ a, ¬ FirstTa d name a) →
      Refused d [text "remove_ta", name] 1 (text "Invalid TA name.") none
  | next (taName : CString) : (∀ a, ¬ FirstTa d taName a) →
      Refused d [text "next", taName] 1 (text "Invalid TA name.") none
  | nextTa (taName code : CString) : (∀ a, ¬ FirstTa d taName a) →
      Refused d [text "next", taName, code] 1 (text "Invalid TA name.") none
  | nextCourse (taName code : CString) (a : Addr) : FirstTa d taName a → ¬ CourseExists d code →
      Refused d [text "next", taName, code] 2 (text "Invalid course code.") (some a)
  | stats (code : CString) : ¬ CourseExists d code →
      Refused d [text "stats_by_course", code] 1 (text "Invalid course code.") none

/-- Queues, TAs and statistics are as before; at most a node that nothing points at is new. -/
structure Untouched (d d' : Desk) : Prop where
  courses : d'.courses = d.courses
  stuList : d'.stuList = d.stuList
  taList : d'.taList = d.taList
  tas : d'.tas = d.tas
  students : ∀ a n, d.students.get a = some n → d'.students.get a = some n

/-- The numbers of a course after one of its students has been helped. -/
def countEnded (clock : Nat → Int) (d : Desk) (n : Student) (x : DeskLists.Course) :
    DeskLists.Course :=
  { x with helped := x.helped + 1, helpTime := x.helpTime + (clock d.ticks - n.arrivalTime) }

/-- The TA is done with its current student, if it has one; queues and other TAs are as before. -/
structure Finished (clock : Nat → Int) (a : Addr) (d d' : Desk) : Prop where
  overall : ∀ l, OverallQueue d l → OverallQueue d' l
  inCourse : ∀ (c : Nat) x, d.courses[c]? = some x → ∃ y, d'.courses[c]? = some y ∧
    ∀ l, CourseQueue d x l → CourseQueue d' y l
  numbers : ∀ t, d.tas.get a = some t → d'.courses.map tally =
    (t.currentStudent.bind d.students.get).elim (d.courses.map tally)
      fun n => (d.courses.map tally).modify n.course (countEnded clock d n)
  students : ∀ b n, (∀ t, d.tas.get a = some t → t.currentStudent ≠ some b) →
    d.students.get b = some n → d'.students.get b = some n
  taList : d'.taList = d.taList
  ta : ∀ t, d.tas.get a = some t → d'.tas.get a = some { t with currentStudent := none }
  others : ∀ b, b ≠ a → d'.tas.get b = d.tas.get b

/-- Every command that is to be refused is refused so. -/
def RefusedCleanly (clock : Nat → Int) (block : Desk → Nat → Nat) (d : Desk)
    (argv : List CString) : Prop :=
  ∀ result error ta, Refused d argv result error ta →
    ∃ d', NameBlocks.processArgs clock block argv d = .ok (reply (some result) (some error), d') ∧
      ta.elim (Untouched d d') fun a => Finished clock a d d'

/-- The statistics of a course that does not exist. -/
def StatsOfNothing (d : Desk) (argv : List CString) : Prop :=
  ∃ code, argv = [text "stats_by_course", code] ∧ ¬ CourseExists d code

/-- An unknown course is named for a TA whose current student has been freed. -/
def NextWithFreed (d : Desk) (argv : List CString) : Prop :=
  ∃ taName code, argv = [text "next", taName, code] ∧ ¬ CourseExists d code ∧
    ReleasesFreed d (.takeNextCourse taName code)

/-- A student who is waiting is added again, and the name fills the block of the copy. -/
def CopyFills (block : Desk → Nat → Nat) (d : Desk) (argv : List CString) : Prop :=
  ∃ name code, argv = [text "add_student", name, code] ∧ CourseExists d code ∧ IsWaiting d name ∧
    block d name.length ≤ name.length

variable {clock : Nat → Int} {block : Desk → Nat → Nat} {d : Desk} {q : Lists}
  {name code : CString}

section Lookups

theorem courseExists_iff (rep : Represents d q) :
    CourseExists d code ↔ ∃ c, q.findCourse code = some c := by
  rw [← Option.isSome_iff_exists, ← findCourse_eq rep.courses, findCourse, List.findIdx?_isSome]
  simp [CourseExists]

theorem isWaiting_iff (rep : Represents d q) :
    IsWaiting d name ↔ ∃ u, q.findStudent name = some u :=
  waits_iff rep

theorem named_iff (rep : Represents d q) {t : DeskLists.Ta} (ht : t ∈ q.staff) :
    Named d name t.id ↔ t.name = name := by
  obtain ⟨next, node⟩ := rep.tas t ht
  simp [Named, node]

/-- A name either stands for no TA, or for the one that the search finds. -/
theorem firstTa_iff (rep : Represents d q) (a : Addr) :
    FirstTa d name a ↔ ∃ i t, q.findTa name = some i ∧ q.staff[i]? = some t ∧ a = t.id := by
  constructor
  · rintro ⟨before, after, chain, named, others⟩
    have whole := Chain.unique chain rep.staff
    obtain ⟨l, r, split, rfl, hr⟩ := List.map_eq_append_iff.mp whole.symm
    obtain ⟨t, r, rfl, rfl, rfl⟩ := List.map_eq_cons_iff.mp hr
    have ht : t ∈ q.staff := by simp [split]
    have here := (named_iff rep ht).mp named
    have apart : ∀ u ∈ l, ¬ u.name = name := fun u hu same =>
      others u.id (List.mem_map_of_mem hu) ((named_iff rep (by simp [split, hu])).mpr same)
    cases found : q.findTa name with
    | none =>
      have nobody := List.findIdx?_eq_none_iff.mp found t ht
      simp [here] at nobody
    | some i =>
      obtain ⟨l', t', r', split', rfl, here', apart'⟩ := DeskRefinement.split_findTa found
      obtain ⟨rfl, rfl, rfl⟩ := first_unique (split.symm.trans split') apart here apart' here'
      exact ⟨_, t, rfl, by simp [split], rfl⟩
  · rintro ⟨i, t, found, ht, rfl⟩
    obtain ⟨l, t', r, split, rfl, here, apart⟩ := DeskRefinement.split_findTa found
    obtain rfl : t = t' := by simpa [split, eq_comm] using ht
    refine ⟨l.map DeskLists.Ta.id, r.map DeskLists.Ta.id, by simpa [split] using rep.staff,
      (named_iff rep (by simp [split])).mpr here, ?_⟩
    intro b hb
    obtain ⟨u, hu, rfl⟩ := List.mem_map.mp hb
    exact fun named => apart u hu ((named_iff rep (by simp [split, hu])).mp named)

theorem noTa_iff (rep : Represents d q) : (∀ a, ¬ FirstTa d name a) ↔ q.findTa name = none := by
  simp only [firstTa_iff rep]
  constructor
  · intro nobody
    refine Option.eq_none_iff_forall_ne_some.mpr fun i found => ?_
    have lt := DeskLists.lt_of_findTa found
    exact nobody _ ⟨i, q.staff[i], found, List.getElem?_eq_getElem lt, rfl⟩
  · rintro absent a ⟨i, t, found, _⟩
    rw [absent] at found
    cases found

theorem findTa_none (rep : Represents d q) (absent : q.findTa name = none) :
    findTa d name = .ok none := by
  rcases rep.findTa name with ⟨_, hd⟩ | ⟨i, t, hi, _⟩
  · exact hd
  · rw [absent] at hi
    cases hi

theorem noCourse_iff (rep : Represents d q) :
    ¬ CourseExists d code ↔ findCourse d.courses code = none := by
  rw [courseExists_iff rep, findCourse_eq rep.courses, not_exists,
    Option.eq_none_iff_forall_ne_some]

end Lookups

section Refusals

theorem untouched_refl (d : Desk) : Untouched d d := ⟨rfl, rfl, rfl, rfl, fun _ _ h => h⟩

/-- A student who is turned away leaves a node that nothing points at. -/
theorem turned_away (clock : Nat → Int) (rep : Represents d q) (known : CourseExists d code)
    (waiting : IsWaiting d name) :
    ∃ d', addStudent clock name code d = .ok (1, d') ∧ Untouched d d' := by
  obtain ⟨c, hc⟩ := (courseExists_iff rep).mp known
  obtain ⟨u, hu⟩ := (isWaiting_iff rep).mp waiting
  let d₁ : Desk := { d.tick with students := d.students.alloc ⟨name, clock d.ticks, c, none, none⟩ }
  have rep₁ : Represents d₁ (DeskLists.turnAway q) := represents_turnAway rep _
  have found : findStudent d₁ name = .ok (some u.id) := by
    rw [findStudent_eq rep₁, show (DeskLists.turnAway q).findStudent name = some u from hu]
    rfl
  refine ⟨d₁, ?_, rfl, rfl, rfl, rfl, fun a n h => Memory.get_alloc_of_some h _⟩
  simp only [addStudent, findCourse_eq rep.courses, hc]
  rw [show (⟨d.students.alloc ⟨name, clock d.ticks, c, none, none⟩, d.tick.tas, d.tick.courses,
        d.tick.stuList,
    d.tick.taList, d.tick.ticks, d.tick.log⟩ : Desk) = d₁ from rfl, found]
  rfl

/-- What releasing a student that is still there does to the desk. -/
theorem release_spec (clock : Nat → Int) {a : Addr} {t : Ta} (hta : d.tas.get a = some t)
    (alive : ∀ b, t.currentStudent = some b → ∃ n, d.students.get b = some n) :
    ∃ d', releaseCurrentStudent clock (some a) d = .ok d' ∧ d'.tas = d.tas ∧ d'.taList = d.taList ∧
      d'.courses.map tally = (t.currentStudent.bind d.students.get).elim (d.courses.map tally)
        (fun n => (d.courses.map tally).modify n.course (countEnded clock d n)) ∧
      ∀ b n, t.currentStudent ≠ some b → d.students.get b = some n →
        d'.students.get b = some n := by
  cases current : t.currentStudent with
  | none =>
    refine ⟨d, ?_, rfl, rfl, rfl, fun _ _ _ h => h⟩
    simp [releaseCurrentStudent, hta, current, bind, Except.bind]
  | some b =>
    obtain ⟨n, hn⟩ := alive b current
    let ended : Course → Course := fun c =>
      { c with helpTime := c.helpTime + (clock d.ticks - n.arrivalTime), helped := c.helped + 1 }
    let d₁ : Desk := { d.tick.setCourse n.course ended with students := d.students.store b none }
    refine ⟨d₁.record (.ended b (clock d.ticks)), ?_, rfl, rfl, ?_, ?_⟩
    · have freed : (d.tick.setCourse n.course ended).students.free (some b) =
        .ok (d.students.store b none) :=
        Memory.free_of_get hn
      simp only [releaseCurrentStudent, Memory.read_some_of_get hta, current, bind, Except.bind,
        Memory.read_some_of_get hn, freed, show (fun c : Course =>
          { c with
            helpTime := c.helpTime + (clock d.ticks - n.arrivalTime)
            helped := c.helped + 1 }) = ended from rfl]
      rfl
    · simp only [Option.bind_some, hn, Option.elim_some]
      exact DeskLists.map_modify fun _ => rfl
    · intro e k other hk
      have apart : e ≠ b := fun same => other (by rw [same])
      exact (Memory.get_store_of_ne apart none).trans hk

theorem findTa_of (rep : Represents d q) {i : Nat} {t : DeskLists.Ta} (hi : q.findTa name = some i)
    (ht : q.staff[i]? = some t) : findTa d name = .ok (some t.id) := by
  rcases rep.findTa name with ⟨absent, _⟩ | ⟨j, u, hj, hu, hd⟩
  · rw [hi] at absent
    cases absent
  · obtain rfl : i = j := Option.some.inj (hi.symm.trans hj)
    obtain rfl : t = u := Option.some.inj (ht.symm.trans hu)
    exact hd

/-- Unless it was freed, the node of the current student is there. -/
theorem current_there (rep : Represents d q) {i : Nat} {t : DeskLists.Ta}
    (hi : q.findTa name = some i)
    (ht : q.staff[i]? = some t) (alive : ¬ ReleasesFreed d (.takeNextCourse name code)) {b : Addr}
    (hb : (q.holdOf i).pointer = some b) : ∃ n, d.students.get b = some n := by
  cases hold : q.holdOf i with
  | idle => simp [hold, Hold.pointer] at hb
  | serving s =>
    obtain rfl : s.id = b := by simpa [hold, Hold.pointer] using hb
    obtain ⟨_, n, hn, _⟩ := served_node rep ht hold
    exact ⟨n, hn⟩
  | released x => exact absurd ((releasesFreed_iff rep).mpr ⟨name, i, x, rfl, hi, hold⟩) alive

/-- `next` for an unknown course finishes with a current student that is still there. -/
theorem finished_of (clock : Nat → Int) (rep : Represents d q) {a : Addr} (first : FirstTa d name a)
    (unknown : ¬ CourseExists d code) (alive : ¬ ReleasesFreed d (.takeNextCourse name code)) :
    ∃ d', takeNextCourse clock name code d = .ok (2, d') ∧ Finished clock a d d' := by
  obtain ⟨i, t, hi, ht, rfl⟩ := (firstTa_iff rep a).mp first
  have present := findTa_of rep hi ht
  obtain ⟨next, hta⟩ := rep.ta_get ht
  obtain ⟨d₁, released, tas, taList, numbers, students⟩ :=
    release_spec clock hta fun _ => current_there rep hi ht alive
  obtain ⟨e, _, fails⟩ | ⟨q₁, d₁', hq₁, hd₁, rep₁, _, _, ht₁⟩ := release_refines clock rep ht
  · rw [released] at fails
    cases fails
  obtain rfl : d₁ = d₁' := Except.ok.inj (released.symm.trans hd₁)
  have lt := DeskLists.lt_of_findTa hi
  have unserved := (DeskLists.releaseCurrentStudent_cases lt hq₁).2.1
  have none_found : findCourse d₁.courses code = none := by
    rw [findCourse_eq rep₁.courses, release_findCourse lt hq₁, ← findCourse_eq rep.courses]
    exact (noCourse_iff rep).mp unknown
  have hta₁ : d₁.tas.get t.id = some ⟨t.name, (q.holdOf i).pointer, next⟩ := tas ▸ hta
  obtain ⟨d', done, rep'⟩ := represents_letGo rep₁ ht₁ unserved
  have value := updateTa_ok hta₁ none
  obtain rfl := Except.ok.inj (value.symm.trans done)
  have queue : (DeskLists.letGo q₁ i).queue = q.queue :=
    DeskLists.letGo_queue.trans (release_queue_eq lt hq₁)
  have length : d₁.courses.length = d.courses.length := by
    have counted := congrArg List.length numbers
    cases hn : (q.holdOf i).pointer.bind d.students.get <;> simpa [hn] using counted
  refine ⟨{ d₁ with tas := d₁.tas.store t.id (some ⟨t.name, none, next⟩) }, ?_, ?_⟩
  · simp only [takeNextCourse, present, released, none_found, value, bind, Except.bind]
  · constructor
    · intro l chain
      obtain rfl := Chain.unique chain rep.overall
      have chain' := rep'.overall
      rw [queue] at chain'
      exact chain'
    · intro c x hx
      have inside : c < d₁.courses.length := length ▸ (List.getElem?_eq_some_iff.mp hx).1
      refine ⟨d₁.courses[c], List.getElem?_eq_getElem inside, ?_⟩
      rintro l ⟨chain, _⟩
      obtain rfl := Chain.unique chain (rep.byCourse c x hx).1
      have after := rep'.byCourse c _ (List.getElem?_eq_getElem inside)
      rw [queue] at after
      exact after
    · intro u hu
      obtain rfl := Option.some.inj (hta.symm.trans hu)
      exact numbers
    · intro b n other hn
      exact students b n (other _ hta) hn
    · exact taList
    · intro u hu
      obtain rfl := Option.some.inj (hta.symm.trans hu)
      exact Memory.get_store_same hta₁ _
    · intro b other
      exact (Memory.get_store_of_ne other _).trans (by rw [tas])

/-- A TA who would release a freed student reads its node, and the command does not return. -/
theorem next_freed (rep : Represents d q) (freed : ReleasesFreed d (.takeNextCourse name code)) :
    takeNextCourse clock name code d = .error .deadPointer := by
  obtain ⟨taName, i, x, same, hi, hold⟩ := (releasesFreed_iff rep).mp freed
  obtain rfl : name = taName := by simpa [taOf] using same
  have fails : DeskLists.takeNextCourse clock name code q = .error .deadPointer := by
    simp [DeskLists.takeNextCourse, hi, DeskLists.releaseCurrentStudent, hold, bind, Except.bind]
  have sim : DeskRefinement.Simulates (takeNextCourse clock name code d)
      (DeskLists.takeNextCourse clock name code q) := takeNextCourse_refines rep name code
  rw [fails] at sim
  exact sim

end Refusals

theorem fills_iff (rep : Represents d q) :
    NameBlocks.Fills block d [text "add_student", name, code] ↔
      CourseExists d code ∧ block d name.length ≤ name.length := by
  have known : (findCourse d.courses code).isSome ↔ CourseExists d code := by
    rw [findCourse_eq rep.courses, courseExists_iff rep, Option.isSome_iff_exists]
  simp [NameBlocks.Fills, NameBlocks.Overruns, known]

theorem not_fills_next (taName code : CString) :
    ¬ NameBlocks.Fills block d [text "next", taName, code] :=
  fun fills => absurd fills.1 (by decide)

theorem refusedCleanly_of (rep : Represents d q) (argv : List CString)
    (noStats : ¬ StatsOfNothing d argv) (noFreed : ¬ NextWithFreed d argv)
    (room : ¬ CopyFills block d argv) : RefusedCleanly clock block d argv := by
  intro result error ta refused
  cases refused with
  | addCourse name code unknown =>
    have refusal : addStudent clock name code d = .ok (2, d) := by
      simp [addStudent, (noCourse_iff rep).mp unknown]
    have uncopied : ¬ NameBlocks.Fills block d [text "add_student", name, code] :=
      fun fills => unknown ((fills_iff rep).mp fills).1
    refine ⟨d, ?_, untouched_refl d⟩
    rw [NameBlocks.processArgs_of_fits uncopied, processArgs_addStudent, refusal]
    rfl
  | addWaiting name code known waiting =>
    obtain ⟨d', refusal, untouched⟩ := turned_away clock rep known waiting
    have copied : ¬ NameBlocks.Fills block d [text "add_student", name, code] :=
      fun fills => room ⟨name, code, rfl, known, waiting, ((fills_iff rep).mp fills).2⟩
    refine ⟨d', ?_, untouched⟩
    rw [NameBlocks.processArgs_of_fits copied, processArgs_addStudent, refusal]
    rfl
  | giveUp name absent =>
    have takes : TakesOut clock d name := (takesOut_of rep).mpr absent
    have refusal := takes.1 absent
    refine ⟨d, ?_, untouched_refl d⟩
    rw [NameBlocks.processArgs_of_fits (by simp [NameBlocks.Fills]), processArgs_giveUp, refusal]
    rfl
  | removeTa name absent =>
    have others := List.findIdx?_eq_none_iff.mp ((noTa_iff rep).mp absent)
    have refusal : removeTa clock name d = .ok (1, d) := removeTa_absent rep (by simpa using others)
    refine ⟨d, ?_, untouched_refl d⟩
    rw [NameBlocks.processArgs_of_fits (by simp [NameBlocks.Fills]), processArgs_removeTa, refusal]
    rfl
  | next taName absent =>
    have refusal : takeNextOverall clock taName d = .ok (1, d) := by
      simp [takeNextOverall, findTa_none rep ((noTa_iff rep).mp absent), bind, Except.bind]
    refine ⟨d, ?_, untouched_refl d⟩
    rw [NameBlocks.processArgs_of_fits (by simp [NameBlocks.Fills]), processArgs_next, refusal]
    rfl
  | nextTa taName code absent =>
    have refusal : takeNextCourse clock taName code d = .ok (1, d) := by
      simp [takeNextCourse, findTa_none rep ((noTa_iff rep).mp absent), bind, Except.bind]
    refine ⟨d, ?_, untouched_refl d⟩
    rw [NameBlocks.processArgs_of_fits (not_fills_next taName code), processArgs_nextCourse,
      refusal]
    rfl
  | nextCourse taName code a first unknown =>
    obtain ⟨d', refusal, finished⟩ := finished_of clock rep first unknown
      fun freed => noFreed ⟨taName, code, rfl, unknown, freed⟩
    refine ⟨d', ?_, finished⟩
    rw [NameBlocks.processArgs_of_fits (not_fills_next taName code), processArgs_nextCourse,
      refusal]
    rfl
  | stats code unknown => exact absurd ⟨code, rfl, unknown⟩ noStats

theorem not_refused_stats (rep : Represents d q) {argv : List CString}
    (stats : StatsOfNothing d argv) : ¬ RefusedCleanly clock block d argv := by
  obtain ⟨code, rfl, unknown⟩ := stats
  intro clean
  obtain ⟨d', run, _⟩ := clean _ _ _ (.stats code unknown)
  have fails : statsByCourse code d = .error .nullPointer := by
    simp [statsByCourse, (noCourse_iff rep).mp unknown]
  rw [NameBlocks.processArgs_of_fits (by simp [NameBlocks.Fills]), processArgs_stats, fails] at run
  cases run

theorem not_refused_freed (rep : Represents d q) {argv : List CString}
    (next : NextWithFreed d argv) : ¬ RefusedCleanly clock block d argv := by
  obtain ⟨taName, code, rfl, unknown, freed⟩ := next
  intro clean
  obtain ⟨name, i, x, same, hi, _⟩ := (releasesFreed_iff rep).mp freed
  obtain rfl : taName = name := by simpa [taOf] using same
  have lt := DeskLists.lt_of_findTa hi
  have first := (firstTa_iff rep _).mpr ⟨i, q.staff[i], hi, List.getElem?_eq_getElem lt, rfl⟩
  obtain ⟨d', run, _⟩ := clean _ _ _ (.nextCourse taName code _ first unknown)
  rw [NameBlocks.processArgs_of_fits (not_fills_next taName code), processArgs_nextCourse,
    next_freed rep freed] at run
  cases run

theorem not_refused_copy (rep : Represents d q) {argv : List CString}
    (fills : CopyFills block d argv) : ¬ RefusedCleanly clock block d argv := by
  obtain ⟨name, code, rfl, known, waiting, full⟩ := fills
  intro clean
  obtain ⟨d', run, _⟩ := clean _ _ _ (.addWaiting name code known waiting)
  have stops := (guarded_ok_iff.mp run).1
  exact stops ((fills_iff rep).mpr ⟨known, full⟩)

/-- In every reachable state a command is refused as it should be, except for the statistics of an
unknown course, an unknown course for a TA whose current student has been freed, and a waiting
student whose name fills the block it is copied to. -/
theorem refusedCleanly_iff (clock : Nat → Int) (block : Desk → Nat → Nat)
    (lines : List (CString × CString)) (calls : List Call) (d : Desk) (argv : List CString)
    (reached : run (NameBlocks.step clock block) (opened lines) calls = .ok d) :
    RefusedCleanly clock block d argv ↔
      ¬ StatsOfNothing d argv ∧ ¬ NextWithFreed d argv ∧ ¬ CopyFills block d argv := by
  obtain ⟨q, rep, _⟩ := known_of_run calls (known_opened lines) (run_of_guarded reached)
  constructor
  · intro clean
    exact ⟨fun stats => not_refused_stats rep stats clean,
      fun next => not_refused_freed rep next clean, fun fills => not_refused_copy rep fills clean⟩
  · rintro ⟨noStats, noFreed, room⟩
    exact refusedCleanly_of rep argv noStats noFreed room

theorem refusedCleanly_iff_next :
    let lines := [(text "CSC209", text "systems")]
    let calls := [Call.addTa (text "tim"), .addStudent (text "ann") (text "CSC209"),
      .takeNextOverall (text "tim")]
    let argv := [text "next", text "tim", text "CSC1"]
    let block := fun (_ : Desk) n => NameBlocks.usableSize n
    ∃ d, run (NameBlocks.step (fun _ => 0) block) (opened lines) calls = .ok d ∧
      (RefusedCleanly (fun _ => 0) block d argv ↔
        ¬ StatsOfNothing d argv ∧ ¬ NextWithFreed d argv ∧ ¬ CopyFills block d argv) := by
  intro lines calls argv block
  obtain ⟨d, reached, _⟩ :
      ∃ d, run (NameBlocks.step (fun _ => 0) block) (opened lines) calls = .ok d ∧
      True := exists_of_run (by decide)
  exact ⟨d, reached, refusedCleanly_iff _ block lines calls d argv reached⟩

/-- The statistics of a course that does not exist are read through NULL. -/
theorem stats_through_null : ¬ ∀ (clock : Nat → Int) (block : Desk → Nat → Nat)
    (lines : List (CString × CString)) (calls : List Call) (d : Desk) (argv : List CString),
    run (NameBlocks.step clock block) (opened lines) calls = .ok d →
      RefusedCleanly clock block d argv := by
  intro always
  let block := fun (_ : Desk) n => NameBlocks.usableSize n
  obtain ⟨d', run, _⟩ := always (fun _ => 0) block [(text "CSC209", text "systems")] [] _
    [text "stats_by_course", text "CSC1"] rfl _ _ _ (.stats (text "CSC1") (by
      rintro ⟨x, hx, same⟩
      obtain rfl : x = newCourse (text "CSC209") (text "systems") := by simpa [opened] using hx
      exact absurd same (by decide)))
  have fails : NameBlocks.processArgs (fun _ => 0) block [text "stats_by_course", text "CSC1"]
      (opened [(text "CSC209", text "systems")]) = .error .nullPointer := by decide
  rw [fails] at run
  cases run

end RefusedCommands
