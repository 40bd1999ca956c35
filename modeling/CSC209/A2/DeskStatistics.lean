import CSC209.A2.NameBlocks
import CSC209.A2.QueueAgreement

/-!
# Counting the students

A student that was added is waiting, being helped, or counted as helped. Three
calls break this. A student who gives up is counted as bailed and stays in the
queue. A TA who asks for the next student of a course that has nobody waiting
keeps pointing at the student that it has just released. A name that fills its
block is written past the end of it. Where none of these happens the four
numbers add up, and no TA points at a student that has been released.
-/

namespace DeskStatistics

open CStrings HaltingRuns NodeMemory LinkedChain HelpDesk DeskReading DeskRefinement DeskHistory
open QueueAgreement
open DeskLists (Lists Hold Outcome holdOf_eq serving_setHold mem_setHold setHold_get lt_of_findTa)

/-- The successful `add_student` calls for a course. -/
def addedTo (log : List Event) (c : Nat) : Nat := (additions log).countP fun x => x.2.1 == c

/-- Every course that can be asked for has all its students in one of the four numbers. -/
def Accounts (d : Desk) : Prop :=
  ∀ code c, findCourse d.courses code = some c → ∃ stats, statsByCourse code d = .ok stats ∧
    (addedTo d.log c : Int) = stats.waiting + stats.beingHelped + stats.helped + stats.bailed

/-- No current student of a listed TA has been released, is waiting, or is another TA's too; and
nobody has been released twice. -/
def CurrentSound (d : Desk) : Prop :=
  (∃ staff, Chain (d.tas.link Ta.next) d.taList staff ∧
    ∀ a ∈ staff, ∀ t s, d.tas.get a = some t → t.currentStudent = some s →
      (∃ n, d.students.get s = some n) ∧
      (∀ l, Chain (d.students.link Student.nextOverall) d.stuList l → s ∉ l) ∧
      (∀ c ∈ d.courses, ∀ l, Chain (d.students.link Student.nextCourse) c.head l → s ∉ l) ∧
      ∀ b ∈ staff, ∀ u, d.tas.get b = some u → u.currentStudent = some s → b = a) ∧
  (endedIds d.log).Nodup

/-- A waiting student gives up. -/
def GivesUp (d : Desk) : Call → Prop
  | .giveUpWaiting name => findStudent d name ≠ .ok none
  | _ => False

/-- A TA with a current student asks for a course in which nobody is waiting. -/
def ForgetsCurrent (d : Desk) : Call → Prop
  | .takeNextCourse taName code => (currentStudent d taName).isSome ∧
      ∃ c ∈ findCourse d.courses code, ∃ course ∈ d.courses[c]?, course.head = none
  | _ => False

instance (d : Desk) : (a : Call) → Decidable (GivesUp d a)
  | .giveUpWaiting _ => inferInstanceAs (Decidable (_ ≠ _))
  | .addStudent .. | .addTa _ | .removeTa _ | .takeNextOverall _ | .takeNextCourse .. =>
    inferInstanceAs (Decidable False)

instance (d : Desk) : (a : Call) → Decidable (ForgetsCurrent d a)
  | .takeNextCourse .. => inferInstanceAs (Decidable (_ ∧ ∃ _ ∈ _, ∃ _ ∈ _, _))
  | .addStudent .. | .giveUpWaiting _ | .addTa _ | .removeTa _ | .takeNextOverall _ =>
    inferInstanceAs (Decidable False)

variable {clock : Nat → Int} {d d' : Desk} {q q' m : Lists} {a : Call} {n i c : Nat}

section Stale

/-- No TA points at a student that it has released. -/
def NoStale (q : Lists) : Prop := ∀ t ∈ q.staff, ∀ x, t.hold ≠ .released x

/-- The call leaves a TA pointing at the student that it releases. -/
def Forgets (q : Lists) : Call → Prop
  | .takeNextCourse taName code => ∃ i s c, q.findTa taName = some i ∧ q.holdOf i = .serving s ∧
      q.findCourse code = some c ∧ ∀ u ∈ q.queue, u.course ≠ c
  | _ => False

theorem NoStale.holdOf (fresh : NoStale q) (x : Addr) : q.holdOf i ≠ .released x := by
  intro hold
  cases hi : q.staff[i]? with
  | none => simp [Lists.holdOf, hi] at hold
  | some t => exact fresh t (List.mem_of_getElem? hi) x ((holdOf_eq hi).symm.trans hold)

/-- Releasing changes the hold of the TA itself only. -/
theorem release_others (hi : i < q.staff.length)
    (h : DeskLists.releaseCurrentStudent clock i q = .ok m) {j : Nat} (hj : j ≠ i) :
    m.staff[j]? = q.staff[j]? := by
  obtain ⟨_, rfl⟩ | ⟨s, _, rfl⟩ := (DeskLists.releaseCurrentStudent_cases hi h).1
  · rfl
  · simp [DeskLists.release, Lists.setHold, Ne.symm hj]

/-- Whatever the TA turns to next, it is not stale any more. -/
theorem noStale_setHold (fresh : NoStale q) (hi : i < q.staff.length)
    (h : DeskLists.releaseCurrentStudent clock i q = .ok m) {hold : Hold}
    (good : ∀ x, hold ≠ .released x) : NoStale (m.setHold i hold) := by
  have lt := (DeskLists.releaseCurrentStudent_cases hi h).2.2
  intro u hu x
  rcases mem_setHold (List.getElem?_eq_getElem lt) hu with rfl | ⟨j, hj, hu⟩
  · exact good x
  · exact fresh u (List.mem_of_getElem? (release_others hi h hj ▸ hu)) x

theorem release_findCourse (hi : i < q.staff.length)
    (h : DeskLists.releaseCurrentStudent clock i q = .ok m) (code : CString) :
    m.findCourse code = q.findCourse code := by
  obtain ⟨_, rfl⟩ | ⟨s, _, rfl⟩ := (DeskLists.releaseCurrentStudent_cases hi h).1
  · rfl
  · have codes : ∀ code, (DeskLists.release clock q i s).findCourse code = q.findCourse code :=
      findCourse_setCourse fun _ => rfl
    exact codes code

theorem release_queue_eq (hi : i < q.staff.length)
    (h : DeskLists.releaseCurrentStudent clock i q = .ok m) : m.queue = q.queue := by
  obtain ⟨_, rfl⟩ | ⟨s, _, rfl⟩ := (DeskLists.releaseCurrentStudent_cases hi h).1 <;> rfl

/-- The one exit that forgets to reset the pointer. -/
theorem noStale_iff (fresh : NoStale q) (h : Outcome clock q a n q') :
    NoStale q' ↔ ¬ Forgets q a := by
  cases h with
  | unknownCourse | notWaiting | alreadyWaiting | added | gaveUp =>
      exact iff_of_true fresh (by simp [Forgets])
  | hired name => simpa [Forgets, NoStale, DeskLists.hire] using fresh
  | unknownTa _ name hname hi =>
    refine iff_of_true fresh ?_
    cases a with
    | takeNextCourse taName code =>
      rintro ⟨i, _, _, hi', _⟩
      obtain rfl : taName = name := by simpa [taOf] using hname
      simp [hi] at hi'
    | _ => simp [Forgets]
  | fired name i m hi hm =>
    refine iff_of_true ?_ (by simp [Forgets])
    intro u hu x
    obtain ⟨j, hj, hu⟩ := List.mem_eraseIdx_iff_getElem?.mp hu
    exact fresh u (List.mem_of_getElem? (release_others (lt_of_findTa hi) hm hj ▸ hu)) x
  | emptyQueue taName i m hi hm =>
    exact iff_of_true (noStale_setHold fresh (lt_of_findTa hi) hm (by simp)) (by simp [Forgets])
  | tookOverall taName i m s rest hi hm =>
    refine iff_of_true ?_ (by simp [Forgets])
    exact noStale_setHold (m := m) fresh (lt_of_findTa hi) hm (by simp)
  | invalidCourse taName code i m hi hm hc =>
    refine iff_of_true (noStale_setHold fresh (lt_of_findTa hi) hm (by simp)) ?_
    rintro ⟨_, _, _, _, _, hc', _⟩
    rw [release_findCourse (lt_of_findTa hi) hm] at hc
    simp [hc] at hc'
  | tookCourse taName code i m l r s hi hm hc hqueue =>
    refine iff_of_true (noStale_setHold (m := m) fresh (lt_of_findTa hi) hm (by simp)) ?_
    rintro ⟨_, _, c, _, _, hc', nobody⟩
    rw [release_findCourse (lt_of_findTa hi) hm, hc'] at hc
    rw [release_queue_eq (lt_of_findTa hi) hm] at hqueue
    exact nobody s (by simp [hqueue]) (Option.some.inj hc).symm
  | emptyCourse taName code i m c hi hm hc nobody =>
    have lt := lt_of_findTa hi
    rw [release_findCourse lt hm] at hc
    rw [release_queue_eq lt hm] at nobody
    obtain ⟨⟨hidle, rfl⟩ | ⟨s, hs, rfl⟩, _⟩ := DeskLists.releaseCurrentStudent_cases lt hm
    · refine iff_of_true fresh ?_
      rintro ⟨j, s, _, hj, hs, _⟩
      obtain rfl : i = j := Option.some.inj (hi.symm.trans hj)
      simp [hidle] at hs
    · refine iff_of_false ?_ (not_not_intro ⟨i, s, c, hi, hs, hc, nobody⟩)
      intro fresh'
      exact fresh'.holdOf s.id (DeskLists.holdOf_release lt)

theorem gaveUp_bailed (q : Lists) (s : DeskLists.Student) :
    bailedIds (DeskLists.bail clock q s).log = bailedIds q.log ++ [s.id] := bailedIds_snoc

theorem release_bailed (hi : i < q.staff.length)
    (h : DeskLists.releaseCurrentStudent clock i q = .ok m) :
    bailedIds m.log = bailedIds q.log := by
  obtain ⟨_, rfl⟩ | ⟨s, _, rfl⟩ := (DeskLists.releaseCurrentStudent_cases hi h).1
  · rfl
  · exact bailedIds_snoc.trans (List.append_nil _)

/-- Only giving up is recorded as a bail. -/
theorem bailed_outcome (h : Outcome clock q a n q') :
    (∃ name s, a = .giveUpWaiting name ∧ q.findStudent name = some s ∧
      q' = DeskLists.bail clock q s) ∨
      ((∀ name, a = .giveUpWaiting name → q.findStudent name = none) ∧
        bailedIds q'.log = bailedIds q.log) := by
  cases h with
  | gaveUp name s hs => exact .inl ⟨name, s, rfl, hs, rfl⟩
  | notWaiting name hs => exact .inr ⟨by rintro _ ⟨⟩; exact hs, rfl⟩
  | unknownTa _ name hname => exact .inr ⟨by rintro _ rfl; simp [taOf] at hname, rfl⟩
  | unknownCourse | alreadyWaiting | hired => exact .inr ⟨by simp, rfl⟩
  | added => exact .inr ⟨by simp, bailedIds_snoc.trans (List.append_nil _)⟩
  | fired _ _ _ hi hm | emptyQueue _ _ _ hi hm | invalidCourse _ _ _ _ hi hm
  | emptyCourse _ _ _ _ _ hi hm =>
    have same := release_bailed (lt_of_findTa hi) hm
    exact .inr ⟨by simp, same⟩
  | tookOverall name i m s rest hi hm | tookCourse name _ i m l r s hi hm =>
    exact .inr ⟨by simp, (bailedIds_snoc.trans (List.append_nil _)).trans
      (release_bailed (lt_of_findTa hi) hm)⟩

end Stale

theorem setCourse_codes {f : DeskLists.Course → DeskLists.Course}
    (same : ∀ x, (f x).code = x.code) :
    (q.setCourse c f).courses.map DeskLists.Course.code = q.courses.map DeskLists.Course.code :=
  DeskLists.map_modify_same same

/-- The calls change tallies, never the codes of the courses. -/
theorem codes_kept (clock : Nat → Int) (codes : List CString) :
    DeskLists.KeptBy clock fun q => q.courses.map DeskLists.Course.code = codes where
  turnAway _ h := h
  enqueue _ _ _ _ _ h := h
  bail _ _ _ h := (setCourse_codes (f := fun c => { c with
    waitTime := c.waitTime + _, bailed := c.bailed + 1 }) (fun _ => rfl)).trans h
  hire _ _ h := h
  release _ _ _ _ _ h := (setCourse_codes (f := fun c => { c with
    helpTime := c.helpTime + _, helped := c.helped + 1 }) (fun _ => rfl)).trans h
  letGo _ _ _ _ h := h
  serve _ _ _ _ _ _ _ _ _ h := (setCourse_codes (f := fun c => { c with
    waitTime := c.waitTime + _ }) (fun _ => rfl)).trans h
  fire _ _ _ _ h := h

theorem findCourse_kept (h : DeskLists.call clock q a = .ok (n, q')) (code : CString) :
    q'.findCourse code = q.findCourse code := by
  have codes := (codes_kept clock _).call rfl h
  have search : ∀ p : Lists, p.findCourse code =
      (p.courses.map DeskLists.Course.code).findIdx? fun c => c == code := by
    intro p
    rw [Lists.findCourse, List.findIdx?_map]
    rfl
  rw [search, search, codes]

section Conditions

theorem findStudent_eq (rep : Represents d q) (name : CString) :
    findStudent d name = .ok ((q.findStudent name).map DeskLists.Student.id) :=
  seek_name rep.overall (fun s hs => rep.students s (List.mem_append_left _ hs)) name

theorem givesUp_iff (rep : Represents d q) :
    GivesUp d a ↔ ∃ name s, a = .giveUpWaiting name ∧ q.findStudent name = some s := by
  cases a with
  | giveUpWaiting name =>
    simp only [GivesUp, findStudent_eq rep]
    cases hs : q.findStudent name <;> simp [hs]
  | _ => simp [GivesUp]

/-- The head of a course is NULL iff nobody waits for it. -/
theorem head_none_iff (rep : Represents d q) {course : Course} (hc : d.courses[c]? = some course) :
    course.head = none ↔ ∀ u ∈ q.queue, u.course ≠ c := by
  rw [Chain.pointer_eq (rep.byCourse c course hc).1, List.head?_eq_none_iff, ids,
    List.map_eq_nil_iff]
  simp [inCourse]

theorem forgets_iff (rep : Represents d q) (fresh : NoStale q) :
    ForgetsCurrent d a ↔ Forgets q a := by
  cases a with
  | takeNextCourse taName code =>
    simp only [ForgetsCurrent, Forgets, currentStudent_eq rep, findCourse_eq rep.courses]
    constructor
    · rintro ⟨some_current, c, hc, course, hcourse, hhead⟩
      obtain ⟨s, hs⟩ := Option.isSome_iff_exists.mp some_current
      obtain ⟨i, hi, hp⟩ := Option.bind_eq_some_iff.mp hs
      cases hold : q.holdOf i with
      | idle => simp [hold, Hold.pointer] at hp
      | released x => exact absurd hold (fresh.holdOf x)
      | serving s => exact ⟨i, s, c, hi, hold, hc, (head_none_iff rep hcourse).mp hhead⟩
    · rintro ⟨i, s, c, hi, hold, hc, nobody⟩
      obtain ⟨course, hcourse⟩ := rep.course_of_lt (lt_of_findCourse hc)
      exact ⟨by simp [hi, hold, Hold.pointer], c, hc, course, hcourse,
        (head_none_iff rep hcourse).mpr nobody⟩
  | _ => simp [ForgetsCurrent, Forgets]

end Conditions

section Numbers

/-- The additions of a course, as the log counts them and as it names them. -/
theorem addedTo_eq {log : List Event} (once : (addedIds log).Nodup) :
    addedTo log c = (ofCourse log c (addedIds log)).length := by
  rw [addedTo, ofCourse, addedIds, List.filter_map, List.length_map, List.countP_eq_length_filter]
  congr 1
  refine List.filter_congr fun x hx => ?_
  have found : (additions log).lookup x.1 = some x.2 := lookup_of_mem once hx
  by_cases hc : x.2.1 = c <;> simp [courseOf, found, hc]

theorem length_inCourse (l : List DeskLists.Student) (log : List Event)
    (known : ∀ s ∈ l, courseOf log s.id = some s.course) :
    (ofCourse log c (ids l)).length = (inCourse l c).length := by
  rw [ofCourse, ids, List.filter_map, List.length_map]
  congr 1
  refine List.filter_congr fun s hs => ?_
  by_cases hc : s.course = c <;> simp [known s hs, hc]

/-- Whoever was added to a course is waiting, being served, or has been helped. -/
theorem conservation (history : History q) (c : Nat) :
    addedTo q.log c = (inCourse q.queue c).length + (inCourse q.serving c).length +
      (ofCourse q.log c (endedIds q.log)).length := by
  have taken : (ofCourse q.log c (takenIds q.log)).length =
      (inCourse q.serving c).length + (ofCourse q.log c (endedIds q.log)).length := by
    rw [ofCourse, (history.roll.endings.filter _).length_eq, List.filter_append, List.length_append]
    congr 1
    exact length_inCourse _ _ fun s hs => (history.roll.serving s hs).2
  rw [addedTo_eq history.roll.addedOnce, ← history.roll.order c, List.length_append, taken]
  simp only [ids, List.length_map]
  omega

theorem helpsIn_eq (rep : Represents d q) {t : DeskLists.Ta} (ht : t ∈ q.staff) :
    helpsIn d c t.id = match t.hold with
      | .idle => .ok 0
      | .serving s => .ok (if s.course = c then 1 else 0)
      | .released _ => .error .deadPointer := by
  obtain ⟨next, hn⟩ := rep.tas t ht
  simp only [helpsIn, Memory.read_some_of_get hn, bind, Except.bind]
  cases hold : t.hold with
  | idle => simp [Hold.pointer]
  | released x =>
    have gone := (rep.released t ht x hold).2
    simp [Hold.pointer, Memory.read, gone]
  | serving s =>
    have mem : s ∈ q.serving := List.mem_filterMap.mpr ⟨t, ht, by simp [hold, Hold.served]⟩
    obtain ⟨k, hk, he⟩ := get_of_entry (rep.students s (List.mem_append_right _ mem))
    have same : k.course = s.course := by rw [he]
    simp [Hold.pointer, hk, same]

/-- The TA loop of `stats_by_course` counts the students being served. -/
theorem countHelped_eq (rep : Represents d q) (fresh : NoStale q) {l : List DeskLists.Ta}
    (hl : ∀ t ∈ l, t ∈ q.staff) :
    countHelped d c (l.map DeskLists.Ta.id) =
      .ok (inCourse (l.filterMap fun t => t.hold.served) c).length := by
  induction l with
  | nil => rfl
  | cons t rest ih =>
    have ht := hl t List.mem_cons_self
    have later := ih fun u hu => hl u (List.mem_cons_of_mem t hu)
    simp only [List.map_cons, countHelped, helpsIn_eq rep ht, later]
    cases hold : t.hold with
    | idle => simp [bind, Except.bind, Hold.served, hold]
    | released x => exact absurd hold (fresh t ht x)
    | serving s =>
      by_cases hc : s.course = c
      · simp [bind, Except.bind, Hold.served, hold, inCourse, hc, Nat.add_comm]
      · simp [bind, Except.bind, Hold.served, hold, inCourse, hc]

/-- A count that comes to an end met no freed student. -/
theorem countHelped_ok (rep : Represents d q) {l : List DeskLists.Ta} (hl : ∀ t ∈ l, t ∈ q.staff)
    {k : Nat} (h : countHelped d c (l.map DeskLists.Ta.id) = .ok k) :
    ∀ t ∈ l, ∀ x, t.hold ≠ .released x := by
  induction l generalizing k with
  | nil => simp
  | cons t rest ih =>
    have ht := hl t List.mem_cons_self
    obtain ⟨here, hhere, h⟩ := bind_ok_iff.mp h
    obtain ⟨later, hlater, _⟩ := bind_ok_iff.mp h
    intro u hu x hold
    rcases List.mem_cons.mp hu with rfl | hu
    · simp [helpsIn_eq rep ht, hold] at hhere
    · exact ih (fun v hv => hl v (List.mem_cons_of_mem t hv)) hlater u hu x hold

/-- The numbers that `stats_by_course` prints. -/
theorem stats_eq (rep : Represents d q) (history : History q) (fresh : NoStale q) {code : CString}
    (hc : q.findCourse code = some c) :
    ∃ stats, statsByCourse code d = .ok stats ∧ stats.waiting = (inCourse q.queue c).length ∧
      stats.beingHelped = (inCourse q.serving c).length ∧
      stats.helped = ((ofCourse q.log c (endedIds q.log)).length : Int) ∧
      stats.bailed = ((ofCourse q.log c (bailedIds q.log)).length : Int) := by
  obtain ⟨course, hcourse⟩ := rep.course_of_lt (lt_of_findCourse hc)
  have tally_here : q.courses[c]? = some (tally course) := by
    rw [← rep.courses, List.getElem?_map, hcourse]
    rfl
  obtain ⟨helped, bailed, _, _⟩ := history.sums c _ tally_here
  have chain := (rep.byCourse c course hcourse).1
  have waiting := Memory.visit_chain chain (Memory.chain_length_le chain)
  have staff := Memory.visit_chain rep.staff (Memory.chain_length_le rep.staff)
  have counted := countHelped_eq (c := c) rep fresh (l := q.staff) fun t ht => ht
  refine ⟨⟨(ids (inCourse q.queue c)).length, (inCourse q.serving c).length, course.helped,
    course.bailed, course.waitTime, course.helpTime⟩, ?_, ?_, rfl, helped, bailed⟩
  · simp only [statsByCourse, findCourse_eq rep.courses, hc, Desk.course, hcourse, bind,
      Except.bind, waiting, staff, counted]
    rfl
  · simp [ids]

theorem noStale_of_stats (rep : Represents d q) {code : CString} {stats : Stats}
    (h : statsByCourse code d = .ok stats) : NoStale q := by
  have staff := Memory.visit_chain rep.staff (Memory.chain_length_le rep.staff)
  rw [statsByCourse] at h
  cases hc : findCourse d.courses code with
  | none => simp [hc] at h
  | some c =>
    simp only [hc, staff] at h
    obtain ⟨_, _, h⟩ := bind_ok_iff.mp h
    obtain ⟨_, _, h⟩ := bind_ok_iff.mp h
    obtain ⟨_, htas, h⟩ := bind_ok_iff.mp h
    obtain ⟨k, hk, _⟩ := bind_ok_iff.mp h
    obtain rfl := Except.ok.inj htas
    exact countHelped_ok rep (fun t ht => ht) hk

theorem accounts_of (rep : Represents d q) (history : History q) (fresh : NoStale q)
    (nobody : bailedIds q.log = []) : Accounts d := by
  intro code c hc
  rw [findCourse_eq rep.courses] at hc
  obtain ⟨stats, hstats, waiting, helping, helped, bailed⟩ := stats_eq rep history fresh hc
  refine ⟨stats, hstats, ?_⟩
  rw [rep.log, conservation history c, waiting, helping, helped, bailed, nobody]
  simp [ofCourse]

/-- Where the numbers of a course add up, nobody of the course has given up. -/
theorem bailed_of_accounts (rep : Represents d q) (history : History q) (accounts : Accounts d)
    {code : CString} (hc : q.findCourse code = some c) :
    NoStale q ∧ ofCourse q.log c (bailedIds q.log) = [] := by
  obtain ⟨stats, hstats, sum⟩ := accounts code c (by rwa [findCourse_eq rep.courses])
  have fresh := noStale_of_stats rep hstats
  obtain ⟨stats', hstats', waiting, helping, helped, bailed⟩ := stats_eq rep history fresh hc
  obtain rfl : stats = stats' := Except.ok.inj (hstats.symm.trans hstats')
  refine ⟨fresh, List.length_eq_zero_iff.mp ?_⟩
  rw [rep.log, conservation history c, waiting, helping, helped, bailed] at sum
  omega

end Numbers

section Currents

/-- Two members with the same image in a list without repetitions are one. -/
theorem eq_of_filterMap_nodup {α β : Type} {g : α → Option β} {l : List α}
    (nodup : (l.filterMap g).Nodup) {u w : α} {x : β} (hu : u ∈ l) (hw : w ∈ l) (hgu : g u = some x)
    (hgw : g w = some x) : u = w := by
  induction l with
  | nil => cases hu
  | cons t rest ih =>
    have below : (rest.filterMap g).Nodup := by
      cases hg : g t with
      | none => simpa [hg] using nodup
      | some y => exact (List.nodup_cons.mp (by simpa [hg] using nodup)).2
    have alone : g t = some x → x ∉ rest.filterMap g := by
      intro hg
      exact (List.nodup_cons.mp (by simpa [hg] using nodup)).1
    rcases List.mem_cons.mp hu with here | hu'
    · rcases List.mem_cons.mp hw with there | hw'
      · rw [here, there]
      · exact absurd (List.mem_filterMap.mpr ⟨w, hw', hgw⟩) (alone (here ▸ hgu))
    · rcases List.mem_cons.mp hw with there | hw'
      · exact absurd (List.mem_filterMap.mpr ⟨u, hu', hgu⟩) (alone (there ▸ hgw))
      · exact ih below hu' hw'

/-- A TA that is not stale points at the student that it serves. -/
theorem serving_of_pointer {t : DeskLists.Ta} (fresh : NoStale q) (ht : t ∈ q.staff) {s : Addr}
    (hp : t.hold.pointer = some s) : ∃ v, t.hold.served = some v ∧ v ∈ q.serving ∧ v.id = s := by
  cases hold : t.hold with
  | idle => simp [hold, Hold.pointer] at hp
  | released x => exact absurd hold (fresh t ht x)
  | serving v =>
    have served : t.hold.served = some v := by simp [hold, Hold.served]
    exact ⟨v, hold ▸ served, List.mem_filterMap.mpr ⟨t, ht, served⟩,
      by simpa [hold, Hold.pointer] using hp⟩

theorem sound_of (rep : Represents d q) (history : History q) (fresh : NoStale q) :
    CurrentSound d := by
  refine ⟨⟨_, rep.staff, ?_⟩, rep.log ▸ (List.nodup_append.mp history.roll.ended_nodup).2.1⟩
  intro a ha t s ht hs
  obtain ⟨u, hu, rfl⟩ := List.mem_map.mp ha
  have pointer :
      ∀ w ∈ q.staff, ∀ n, d.tas.get w.id = some n → n.currentStudent = w.hold.pointer := by
    intro w hw n hn
    obtain ⟨next, hget⟩ := rep.tas w hw
    obtain rfl := Option.some.inj (hn.symm.trans hget)
    rfl
  obtain ⟨v, hserved, hv, rfl⟩ := serving_of_pointer fresh hu ((pointer u hu t ht).symm.trans hs)
  have apart := List.nodup_append.mp (ids_append ▸ rep.apart)
  have gone : v.id ∉ ids q.queue := fun h => apart.2.2 _ h _ (mem_ids.mpr ⟨v, hv, rfl⟩) rfl
  obtain ⟨k, hk, _⟩ := get_of_entry (rep.students v (List.mem_append_right _ hv))
  refine ⟨⟨k, hk⟩, ?_, ?_, ?_⟩
  · intro l hl
    rw [hl.unique rep.overall]
    exact gone
  · intro c hc l hl
    obtain ⟨i, hi⟩ := List.getElem?_of_mem hc
    rw [hl.unique (rep.byCourse i c hi).1]
    exact fun h => gone (mem_ids_of_inCourse h)
  · intro b hb n hn hcurrent
    obtain ⟨w, hw, rfl⟩ := List.mem_map.mp hb
    obtain ⟨v', hserved', hv', same⟩ :=
      serving_of_pointer fresh hw ((pointer w hw n hn).symm.trans hcurrent)
    obtain rfl : v' = v := List.inj_on_of_nodup_map apart.2.1 hv' hv same
    have once : (q.staff.filterMap fun t => t.hold.served).Nodup := List.Nodup.of_map _ apart.2.1
    rw [eq_of_filterMap_nodup once hw hu hserved' hserved]

theorem noStale_of_sound (rep : Represents d q) (sound : CurrentSound d) : NoStale q := by
  obtain ⟨⟨staff, chain, good⟩, _⟩ := sound
  obtain rfl := chain.unique rep.staff
  intro t ht x hold
  obtain ⟨next, hn⟩ := rep.tas t ht
  obtain ⟨⟨k, hk⟩, _⟩ := good t.id (List.mem_map_of_mem ht) _ x hn (by simp [hold, Hold.pointer])
  simp [(rep.released t ht x hold).2] at hk

end Currents

section Runs

/-- The state as long as neither kind of call has been made. -/
def Settled (d : Desk) : Prop :=
  ∃ q, Represents d q ∧ History q ∧ NoStale q ∧ bailedIds q.log = []

theorem settled_opened (lines : List (CString × CString)) : Settled (opened lines) :=
  ⟨_, opened_represents lines, opened_history lines, by simp [NoStale, DeskLists.opened], rfl⟩

/-- Without stale pointers every call returns. -/
theorem step_returns (clock : Nat → Int) (rep : Represents d q) (fresh : NoStale q) :
    ∃ d', step clock d a = .ok d' := by
  cases h : step clock d a with
  | error e =>
    obtain ⟨name, i, x, _, _, hold⟩ :=
      (releasesFreed_iff rep).mp ((step_fails_iff clock rep).mp ⟨e, h⟩)
    exact absurd hold (fresh.holdOf x)
  | ok d' => exact ⟨d', rfl⟩

theorem settled_step (settled : Settled d) (h : step clock d a = .ok d')
    (good : ¬ GivesUp d a ∧ ¬ ForgetsCurrent d a) : Settled d' ∧ Accounts d' := by
  obtain ⟨q, rep, history, fresh, nobody⟩ := settled
  obtain ⟨n, q', hq, _, rep'⟩ := (step_ok_iff rep).mp h
  have history' := (history_kept clock).call history hq
  have outcome := DeskLists.call_cases hq
  have fresh' := (noStale_iff fresh outcome).mpr fun hf => good.2 ((forgets_iff rep fresh).mpr hf)
  have nobody' : bailedIds q'.log = [] := by
    rcases bailed_outcome outcome with ⟨name, s, ha, hs, _⟩ | ⟨_, same⟩
    · exact absurd ((givesUp_iff rep).mpr ⟨name, s, ha, hs⟩) good.1
    · rw [same, nobody]
  exact ⟨⟨q', rep', history', fresh', nobody'⟩, accounts_of rep' history' fresh' nobody'⟩

/-- A call that breaks the account, or does not: which one is decided before the step. -/
theorem accounts_step (settled : Settled d) (a : Call) :
    (∃ d', step clock d a = .ok d' ∧ Accounts d') ↔ ¬ GivesUp d a ∧ ¬ ForgetsCurrent d a := by
  obtain ⟨q, rep, history, fresh, nobody⟩ := settled
  constructor
  · rintro ⟨d', h, accounts⟩
    obtain ⟨n, q', hq, _, rep'⟩ := (step_ok_iff rep).mp h
    have history' := (history_kept clock).call history hq
    have outcome := DeskLists.call_cases hq
    constructor
    · intro gives
      obtain ⟨name, s, rfl, hs⟩ := (givesUp_iff rep).mp gives
      have mem : s ∈ q.queue := List.mem_of_find?_eq_some hs
      obtain ⟨code, hcode⟩ := rep.known s (List.mem_append_left _ mem)
      have hcode' := (findCourse_kept hq code).trans hcode
      have none_bailed := (bailed_of_accounts rep' history' accounts hcode').2
      obtain ⟨known, _, course, _⟩ := history.roll.of_waiting mem
      rcases bailed_outcome outcome with ⟨_, u, ha, hu, rfl⟩ | ⟨absent, _⟩
      · obtain rfl : s = u := Option.some.inj (hs.symm.trans (by cases ha; exact hu))
        rw [gaveUp_bailed, nobody] at none_bailed
        have here : courseOf (DeskLists.bail clock q s).log s.id = some s.course :=
          (courseOf_snoc known).trans course
        simp [ofCourse, here] at none_bailed
      · simp [absent name rfl] at hs
    · intro forgets
      have forgets' := (forgets_iff rep fresh).mp forgets
      obtain ⟨taName, code, rfl⟩ : ∃ taName code, a = .takeNextCourse taName code := by
        cases a <;> simp_all [Forgets]
      obtain ⟨_, _, c, _, _, hc, _⟩ := forgets'
      have hc' := (findCourse_kept hq code).trans hc
      exact (noStale_iff fresh outcome).mp (bailed_of_accounts rep' history' accounts hc').1
        ((forgets_iff rep fresh).mp forgets)
  · intro good
    obtain ⟨d', h⟩ := step_returns clock rep fresh
    exact ⟨d', h, (settled_step ⟨q, rep, history, fresh, nobody⟩ h good).2⟩

/-- The state as long as no TA has forgotten to let go of a student. -/
def Fresh (d : Desk) : Prop := ∃ q, Represents d q ∧ History q ∧ NoStale q

theorem sound_step (fresh : Fresh d) (a : Call) :
    (∃ d', step clock d a = .ok d' ∧ CurrentSound d') ↔ ¬ ForgetsCurrent d a := by
  obtain ⟨q, rep, history, fresh⟩ := fresh
  rw [forgets_iff rep fresh]
  constructor
  · rintro ⟨d', h, sound⟩
    obtain ⟨n, q', hq, _, rep'⟩ := (step_ok_iff rep).mp h
    exact (noStale_iff fresh (DeskLists.call_cases hq)).mp (noStale_of_sound rep' sound)
  · intro good
    obtain ⟨d', h⟩ := step_returns clock rep fresh
    obtain ⟨_, q1, hq1, _, rep1⟩ := (step_ok_iff rep).mp h
    have history1 := (history_kept clock).call history hq1
    have fresh1 := (noStale_iff fresh (DeskLists.call_cases hq1)).mpr good
    exact ⟨d', h, sound_of rep1 history1 fresh1⟩

theorem fresh_step (fresh : Fresh d) (h : step clock d a = .ok d') (sound : CurrentSound d') :
    Fresh d' := by
  obtain ⟨q, rep, history, _⟩ := fresh
  obtain ⟨_, q', hq, _, rep'⟩ := (step_ok_iff rep).mp h
  exact ⟨q', rep', (history_kept clock).call history hq, noStale_of_sound rep' sound⟩

end Runs

/-- A call whose name fits its block does what it does in any memory. -/
theorem accounts_blockwise (settled : Settled d) (block : Desk → Nat → Nat) (a : Call) :
    (∃ d', NameBlocks.step clock block d a = .ok d' ∧ Accounts d') ↔
      ¬ GivesUp d a ∧ ¬ ForgetsCurrent d a ∧ ¬ NameBlocks.Overruns block d a := by
  have unblocked :
      (∃ d', step clock d a = .ok d' ∧ Accounts d') ↔ ¬ GivesUp d a ∧ ¬ ForgetsCurrent d a :=
    accounts_step settled a
  rw [← and_assoc, ← unblocked]
  constructor
  · rintro ⟨d', h, accounts⟩
    obtain ⟨room, h⟩ := guarded_ok_iff.mp h
    exact ⟨⟨d', h, accounts⟩, room⟩
  · rintro ⟨⟨d', h, accounts⟩, room⟩
    exact ⟨d', guarded_ok_iff.mpr ⟨room, h⟩, accounts⟩

/-- The four numbers account for every student as long as nobody gives up, no TA asks for a course
without waiting students while having a current student, and no name fills its block; each of
these calls breaks the account. -/
theorem students_accounted (clock : Nat → Int) (block : Desk → Nat → Nat)
    (lines : List (CString × CString)) (calls : List Call) :
    Accounts (opened lines) ∧
    (Along (NameBlocks.step clock block)
        (fun d a => ∃ d', NameBlocks.step clock block d a = .ok d' ∧ Accounts d')
        (opened lines) calls ↔
      Along (NameBlocks.step clock block)
        (fun d a => ¬ GivesUp d a ∧ ¬ ForgetsCurrent d a ∧ ¬ NameBlocks.Overruns block d a)
        (opened lines) calls) := by
  obtain ⟨q, rep, history, fresh, nobody⟩ := settled_opened lines
  refine ⟨accounts_of rep history fresh nobody, ?_⟩
  refine along_iff (settled_opened lines) ?_
    (fun d a settled => accounts_blockwise settled block a) calls
  intro d a d' settled good h
  obtain ⟨stays, lets, _⟩ := (accounts_blockwise settled block a).mp good
  exact (settled_step settled (guarded_ok_iff.mp h).2 ⟨stays, lets⟩).1

/-- A student who gives up is counted as bailed and is still waiting. -/
theorem bailed_student_still_waits : ¬ ∀ (clock : Nat → Int) (block : Desk → Nat → Nat)
    (lines : List (CString × CString)) (calls : List Call), Along (NameBlocks.step clock block)
      (fun d a => ∃ d', NameBlocks.step clock block d a = .ok d' ∧ Accounts d')
      (opened lines) calls := by
  intro always
  let lines := [(text "CSC209", text "systems")]
  let first := [Call.addStudent (text "ann") (text "CSC209")]
  let block := fun (_ : Desk) n => NameBlocks.usableSize n
  obtain ⟨d, hrun, found, stats, added⟩ :
      ∃ d, run (NameBlocks.step (fun _ => 0) block) (opened lines)
      (first ++ [.giveUpWaiting (text "ann")]) = .ok d ∧
        findCourse d.courses (text "CSC209") = some 0 ∧
      statsByCourse (text "CSC209") d = .ok ⟨1, 0, 0, 1, 0, 0⟩ ∧ addedTo d.log 0 = 1 :=
    exists_of_run (by decide)
  obtain ⟨m, hm, d', hd', accounts⟩ := Along.last first (always _ block lines _) hrun
  obtain rfl : d = d' := Except.ok.inj (hm.symm.trans hd')
  obtain ⟨numbers, hnumbers, sum⟩ := accounts _ 0 found
  obtain rfl := Except.ok.inj (stats.symm.trans hnumbers)
  simp [added] at sum

/-- No current student is stale as long as no TA asks for a course without waiting students while
having a current student; such a call leaves one. -/
theorem currents_sound (clock : Nat → Int) (lines : List (CString × CString)) (calls : List Call) :
    CurrentSound (opened lines) ∧
    (Along (step clock) (fun d a => ∃ d', step clock d a = .ok d' ∧ CurrentSound d')
        (opened lines) calls ↔
      Along (step clock) (fun d a => ¬ ForgetsCurrent d a) (opened lines) calls) := by
  obtain ⟨q, rep, history, fresh, _⟩ := settled_opened lines
  refine ⟨sound_of rep history fresh, ?_⟩
  refine along_iff (I := Fresh) ⟨q, rep, history,
    fresh⟩ ?_ (fun d a fresh => sound_step fresh a) calls
  rintro d a d' fresh ⟨d1, h1, sound⟩ h
  obtain rfl : d1 = d' := Except.ok.inj (h1.symm.trans h)
  exact fresh_step fresh h sound

/-- After asking for the next student of an empty course the TA still points at the student that
the same call has freed. -/
theorem released_student_still_current : ¬ ∀ (clock : Nat → Int) (lines : List (CString × CString))
    (calls : List Call), Along (step clock)
    (fun d a => ∃ d', step clock d a = .ok d' ∧ CurrentSound d') (opened lines) calls := by
  intro always
  let lines := [(text "CSC209", text "systems")]
  let first := [Call.addTa (text "tim"), .addStudent (text "ann") (text "CSC209"),
    .takeNextOverall (text "tim")]
  obtain ⟨d, hrun, list, node, gone⟩ : ∃ d, run (step fun _ => 0) (opened lines)
      (first ++ [.takeNextCourse (text "tim") (text "CSC209")]) = .ok d ∧ d.taList = some 0 ∧
      d.tas.get 0 = some ⟨text "tim", some 0, none⟩ ∧ d.students.get 0 = none :=
    exists_of_run (by decide)
  obtain ⟨m, hm, d', hd', ⟨staff, chain, good⟩, _⟩ := Along.last first (always _ lines _) hrun
  obtain rfl : d = d' := Except.ok.inj (hm.symm.trans hd')
  have member : 0 ∈ staff := List.mem_of_head? ((Chain.pointer_eq chain).symm.trans list)
  obtain ⟨⟨k, hk⟩, _⟩ := good 0 member _ 0 node rfl
  simp [gone] at hk

end DeskStatistics
