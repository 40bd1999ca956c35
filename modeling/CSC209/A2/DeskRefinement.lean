import CSC209.A2.DeskReading

/-!
# The pointer operations refine the lists

Every call on a help desk does to the lists that it holds what the list
operation does, with the same result, and fails exactly where that fails. The
two chains are repaired by different statements of the source, so the parts of
`Represents` are followed separately through each function.
-/

namespace DeskRefinement

open CStrings NodeMemory LinkedChain HelpDesk DeskReading
open DeskLists
  (Lists Hold holdOf_eq serving_setHold serving_letGo setHold_ids setHold_get mem_setHold)

variable {clock : Nat → Int} {d d' : Desk} {q q' : Lists} {t : DeskLists.Ta}
  {s : DeskLists.Student} {l r : List DeskLists.Student} {n : Student} {i c : Nat}

/-- Both calls return the same code in corresponding states, or both fail in the same way. -/
def Simulates (result : Except Fault (Nat × Desk)) : Except Fault (Nat × Lists) → Prop
  | .ok (code, q') => ∃ d', result = .ok (code, d') ∧ Represents d' q'
  | .error e => result = .error e

section Staff

variable {tas : Memory Ta} {hold : Hold} {next : Pointer}

/-- One TA's node changes hands, the others keep theirs. -/
theorem tas_setHold (rep : Represents d q) (hi : q.staff[i]? = some t)
    (here : tas.get t.id = some ⟨t.name, hold.pointer, next⟩)
    (others : ∀ a, a ≠ t.id → tas.get a = d.tas.get a) :
    ∀ u ∈ (q.setHold i hold).staff, ∃ next, tas.get u.id = some ⟨u.name, u.hold.pointer, next⟩ := by
  intro u hu
  rcases mem_setHold hi hu with rfl | ⟨j, hj, hu⟩
  · exact ⟨next, here⟩
  · rw [others u.id fun same => hj (rep.ta_index hi hu same)]
    exact rep.tas u (List.mem_of_getElem? hu)

end Staff

section Release

/-- The entry of a student being served, as its node has it. -/
theorem served_node (rep : Represents d q) (hi : q.staff[i]? = some t)
    (hs : q.holdOf i = .serving s) :
    s ∈ q.serving ∧ ∃ n, d.students.get s.id = some n ∧ n.arrivalTime = s.arrivalTime ∧
      n.course = s.course := by
  have mem : s ∈ q.serving := by
    refine List.mem_filterMap.mpr ⟨t, List.mem_of_getElem? hi, ?_⟩
    rw [← holdOf_eq hi, hs]
    rfl
  obtain ⟨n, hn, he⟩ := get_of_entry (rep.students s (List.mem_append_right _ mem))
  exact ⟨mem, n, hn, by rw [he], by rw [he]⟩

theorem represents_release (clock : Nat → Int) (rep : Represents d q) (hi : q.staff[i]? = some t)
    (hs : q.holdOf i = .serving s) (hn : d.students.get s.id = some n) :
    Represents
      (({ d.tick.setCourse s.course fun c =>
          { c with
            helpTime := c.helpTime + (clock d.ticks - s.arrivalTime)
            helped := c.helped + 1 } with
        students := d.students.store s.id none } : Desk).record (.ended s.id (clock d.ticks)))
      (DeskLists.release clock q i s) := by
  obtain ⟨before, after, hq, hset⟩ := serving_setHold hi
  rw [hs] at hq
  have serving : (DeskLists.release clock q i s).serving = before ++ after := hset (.released s.id)
  have perm : (q.queue ++ q.serving).Perm (s :: (q.queue ++ (before ++ after))) := by
    rw [hq]
    simp only [Hold.served, Option.toList_some, List.singleton_append, ← List.append_assoc]
    exact List.perm_middle
  have nodup := (perm.map DeskLists.Student.id).nodup_iff.mp rep.apart
  have gone : ∀ u ∈ q.queue ++ (before ++ after), u.id ≠ s.id := by
    intro u hu same
    exact (List.nodup_cons.mp nodup).1 (same ▸ List.mem_map_of_mem hu)
  have kept : ∀ u ∈ q.queue ++ (before ++ after),
      (d.students.store s.id none).get u.id = d.students.get u.id :=
    fun u hu => Memory.get_store_of_ne (gone u hu) none
  have links : ∀ b ∈ ids q.queue, (d.students.store s.id none).get b = d.students.get b := by
    intro b hb
    obtain ⟨u, hu, rfl⟩ := mem_ids.mp hb
    exact kept u (List.mem_append_left _ hu)
  obtain ⟨next, hta⟩ := rep.ta_get hi
  have codes : ∀ code, (DeskLists.release clock q i s).findCourse code = q.findCourse code :=
    findCourse_setCourse fun _ => rfl
  constructor
  · exact segment_congr (fun b hb => Memory.link_congr (links b hb)) rep.overall
  · exact (rep.byCourse.congr fun b hb => Memory.link_congr (links b hb)).modify fun _ => ⟨rfl, rfl⟩
  · change (d.courses.modify _ _).map tally = q.courses.modify _ _
    rw [← rep.courses, ← rep.ticks]
    exact DeskLists.map_modify fun _ => rfl
  · rw [serving]
    intro u hu
    exact (entryAt_congr (kept u hu)).trans
      (rep.students u (perm.mem_iff.mpr (List.mem_cons_of_mem s hu)))
  · rw [serving]
    exact (List.nodup_cons.mp nodup).2
  · rw [serving]
    intro u hu
    simp only [codes]
    exact rep.known u (perm.mem_iff.mpr (List.mem_cons_of_mem s hu))
  · intro u hu a ha
    by_cases same : a = s.id
    · subst same
      exact ⟨(Memory.size_store none).symm ▸ Memory.lt_size_of_get hn,
        Memory.get_store_same hn none⟩
    · rcases mem_setHold hi hu with rfl | ⟨j, _, hj⟩
      · cases ha; exact absurd rfl same
      · obtain ⟨lt, gone⟩ := rep.released u (List.mem_of_getElem? hj) a ha
        exact ⟨(Memory.size_store none).symm ▸ lt, (Memory.get_store_of_ne same none).trans gone⟩
  · rw [show (DeskLists.release clock q i s).staff.map DeskLists.Ta.id = _ from setHold_ids]
    exact rep.staff
  · rw [hs] at hta
    have nodes : ∀ u ∈ (q.setHold i (.released s.id)).staff, ∃ next,
        d.tas.get u.id = some ⟨u.name, u.hold.pointer, next⟩ :=
          tas_setHold rep hi hta fun _ _ => rfl
    exact nodes
  · exact (Memory.size_store none).trans rep.made
  · exact rep.hired
  · exact congrArg (· + 1) rep.ticks
  · simp only [Desk.record, DeskLists.release, DeskLists.note_log, rep.ticks]
    exact congrArg (· ++ _) rep.log

/-- Releasing follows the lists, and the TA's node is not written. -/
theorem release_refines (clock : Nat → Int) (rep : Represents d q) (hi : q.staff[i]? = some t) :
    (∃ e, DeskLists.releaseCurrentStudent clock i q = .error e ∧
      HelpDesk.releaseCurrentStudent clock (some t.id) d = .error e) ∨
    ∃ q1 d1, DeskLists.releaseCurrentStudent clock i q = .ok q1 ∧
      HelpDesk.releaseCurrentStudent clock (some t.id) d = .ok d1 ∧ Represents d1 q1 ∧
      d1.tas = d.tas ∧
      d1.taList = d.taList ∧ q1.staff[i]? = some { t with hold := q1.holdOf i } := by
  obtain ⟨next, hta⟩ := rep.ta_get hi
  have hit := holdOf_eq hi
  cases hs : q.holdOf i with
  | idle =>
    rw [hs] at hta
    refine .inr ⟨q, d, by simp [DeskLists.releaseCurrentStudent, hs], ?_, rep, rfl, rfl, ?_⟩
    · simp [HelpDesk.releaseCurrentStudent, hta, bind, Except.bind, Hold.pointer]
    · rw [hi, hit]
  | serving s =>
    obtain ⟨_, n, hn, harr, hcourse⟩ := served_node rep hi hs
    rw [hs] at hta
    refine .inr ⟨_, _, by simp [DeskLists.releaseCurrentStudent, hs], ?_,
      represents_release clock rep hi hs hn, rfl, rfl, ?_⟩
    · simp only [HelpDesk.releaseCurrentStudent, Memory.read_some_of_get hta, Hold.pointer, bind,
        Except.bind, Memory.read_some_of_get hn, harr, hcourse]
      rw [setCourse_students]
      simp only [Desk.tick, Memory.free_of_get hn]
    · rw [DeskLists.holdOf_release (List.getElem?_eq_some_iff.mp hi).1]
      exact setHold_get hi
  | released a =>
    have gone : d.students.get a = none :=
      (rep.released t (List.mem_of_getElem? hi) a (by rw [← hit, hs])).2
    rw [hs] at hta
    refine .inl ⟨.deadPointer, by simp [DeskLists.releaseCurrentStudent, hs], ?_⟩
    simp [HelpDesk.releaseCurrentStudent, hta, bind, Except.bind, Hold.pointer, Memory.read, gone]

end Release

section Serve

theorem updateTa_ok {next p : Pointer} {name : CString} {a : Addr}
    (hta : d.tas.get a = some ⟨name, p, next⟩) (new : Pointer) :
    (d.updateTa (some a) fun t => { t with currentStudent := new }) =
      .ok { d with tas := d.tas.store a (some ⟨name, new, next⟩) } := by
  simp [Desk.updateTa, Memory.update_of_get hta, bind, Except.bind]

/-- Storing another current student keeps the links of the staff. -/
theorem staff_store {next p : Pointer} {name : CString} {a : Addr} {new : Pointer}
    (hta : d.tas.get a = some ⟨name, p, next⟩) :
    (d.tas.store a (some ⟨name, new, next⟩)).link Ta.next = d.tas.link Ta.next :=
  Memory.link_store_same hta rfl

theorem represents_letGo (rep : Represents d q) (hi : q.staff[i]? = some t)
    (unserved : (q.holdOf i).served = none) :
    ∃ d', (d.updateTa (some t.id) fun t => { t with currentStudent := none }) = .ok d' ∧
      Represents d' (DeskLists.letGo q i) := by
  obtain ⟨next, hta⟩ := rep.ta_get hi
  have serving : (q.setHold i .idle).serving = q.serving := serving_letGo hi unserved rfl
  refine ⟨_, updateTa_ok hta none, rep.overall, rep.byCourse, rep.courses, ?_, ?_, ?_, ?_, ?_, ?_,
    rep.made, ?_, rep.ticks, rep.log⟩
  · rw [DeskLists.letGo, serving]; exact rep.students
  · rw [DeskLists.letGo, serving]; exact rep.apart
  · rw [DeskLists.letGo, serving]; exact rep.known
  · intro u hu a ha
    rcases mem_setHold hi hu with rfl | ⟨j, _, hj⟩
    · cases ha
    · exact rep.released u (List.mem_of_getElem? hj) a ha
  · rw [DeskLists.letGo, setHold_ids, staff_store hta]
    exact rep.staff
  · exact tas_setHold rep hi (Memory.get_store_same hta _) fun a ha => Memory.get_store_of_ne ha _
  · exact (Memory.size_store _).trans rep.hired

/-- The one-element test of the source is right: the first student is also the last one iff
nobody else of the course is waiting. -/
theorem dropHead_spec {m : Memory Student} (hm : d.students = m)
    (byCourse : ByCourse m d.courses (l ++ s :: r)) (first : ∀ u ∈ l, u.course ≠ s.course)
    {course : Course} (hc : d.courses[s.course]? = some course) :
    course.head = some s.id ∧ ∃ courses', dropHead s.course d = .ok { d with courses := courses' } ∧
      ByCourse m courses' (l ++ r) ∧ courses'.map tally = d.courses.map tally := by
  obtain ⟨chain, tail⟩ := byCourse s.course course hc
  rw [inCourse_append, inCourse_eq_nil first, inCourse_cons_same rfl, List.nil_append, ids_cons]
    at chain tail
  have head : course.head = some s.id := Chain.pointer_eq chain
  obtain ⟨_, next, hlink, hrest⟩ := chain
  have others : ∀ (courses' : List Course) (p p' : Pointer),
      (∀ x, courses'[s.course]? = some x → x.head = p ∧ x.tail = p') →
      (∀ j, j ≠ s.course → courses'[j]? = d.courses[j]?) →
      Chain (m.link Student.nextCourse) p (ids (inCourse r s.course)) →
      p' = (ids (inCourse r s.course)).getLast? → ByCourse m courses' (l ++ r) := by
    intro courses' p p' here same hp hp' j x hx
    by_cases hj : j = s.course
    · subst hj
      rw [inCourse_append, inCourse_eq_nil first, List.nil_append, (here x hx).1, (here x hx).2]
      exact ⟨hp, hp'⟩
    · have old := byCourse j x (same j hj ▸ hx)
      rw [inCourse_append, inCourse_cons_other (Ne.symm hj), ← inCourse_append] at old
      exact old
  have atHere : ∀ f : Course → Course, ∀ x, (d.courses.modify s.course f)[s.course]? = some x →
      x = f course := by
    intro f x hx
    simpa [hc, eq_comm] using hx
  have elsewhere : ∀ f : Course → Course, ∀ j, j ≠ s.course →
      (d.courses.modify s.course f)[j]? = d.courses[j]? := by
    intro f j hj
    simp [Ne.symm hj]
  refine ⟨head, ?_⟩
  by_cases single : course.head = course.tail
  · have alone : ids (inCourse r s.course) = [] := by
      rw [head, tail] at single
      cases hl : ids (inCourse r s.course) with
      | nil => rfl
      | cons b rest =>
        have nodup := (show Chain _ _ (s.id :: ids (inCourse r s.course)) from
          ⟨head, next, hlink, hrest⟩).nodup
        have last : some s.id = (b :: rest).getLast? := by simpa [hl] using single
        exact absurd (List.mem_of_getLast? last.symm) (hl ▸ (List.nodup_cons.mp nodup).1)
    refine ⟨d.courses.modify s.course fun c => { c with head := none, tail := none }, ?_,
      others _ none none ?_ (elsewhere _) ?_ (by simp [alone]),
        DeskLists.map_modify_same fun _ => rfl⟩
    · simp [dropHead, Desk.course, hc, bind, Except.bind, single, Desk.setCourse]
    · intro x hx
      rw [atHere _ x hx]
      exact ⟨rfl, rfl⟩
    · rw [alone]
      rfl
  · obtain ⟨n, hn, hnext⟩ := Memory.get_of_link hlink
    have more : ids (inCourse r s.course) ≠ [] := by
      intro hnil
      apply single
      rw [head, tail, hnil]
      rfl
    refine ⟨d.courses.modify s.course fun c => { c with head := n.nextCourse }, ?_,
      others _ next course.tail ?_ (elsewhere _) hrest ?_, DeskLists.map_modify_same fun _ => rfl⟩
    · rw [head] at single
      simp [dropHead, Desk.course, hc, bind, Except.bind, head, single, Desk.setCourse, hm, hn]
    · intro x hx
      rw [atHere _ x hx]
      exact ⟨hnext, rfl⟩
    · rw [tail]
      exact List.getLast?_cons_of_ne_nil more

theorem routeAround_spec
    (chain : Chain (d.students.link Student.nextOverall) d.stuList (ids (l ++ s :: r))) :
    ∃ m p, routeAround s.id d = .ok { d with students := m, stuList := p } ∧
      Chain (m.link Student.nextOverall) p (ids (l ++ r)) ∧
      m.link Student.nextCourse = d.students.link Student.nextCourse ∧
      entryAt m = entryAt d.students ∧ m.size = d.students.size := by
  have nodup := chain.nodup
  obtain ⟨p, hl, rfl, next, hlink, hrest⟩ := segment_append.mp (ids_append ▸ chain)
  obtain ⟨n, hn, hnext⟩ := Memory.get_of_link hlink
  rcases List.eq_nil_or_concat' l with rfl | ⟨before, u, rfl⟩
  · have front : d.stuList = some s.id := hl
    refine ⟨d.students, next, ?_, hrest, rfl, rfl, rfl⟩
    simp [routeAround, front, hn, bind, Except.bind, hnext]
  · have short : (ids before).length < d.students.size := by
      have := Memory.chain_length_le chain
      simp [ids] at this ⊢
      omega
    have whole : ids (before ++ [u] ++ s :: r) = ids before ++ u.id :: s.id :: ids r := by simp
    rw [whole] at chain nodup
    have differ : ∀ b ∈ ids before ++ [u.id], b ≠ s.id := by
      intro b hb
      have := List.nodup_append.mp
        (show (ids before ++ [u.id] ++ (s.id :: ids r)).Nodup by simpa using nodup)
      exact this.2.2 b hb s.id List.mem_cons_self
    have notFront : some s.id ≠ d.stuList := by
      rw [Chain.pointer_eq chain]
      cases before with
      | nil => simpa using Ne.symm (differ u.id (by simp))
      | cons b rest => simpa using Ne.symm (differ b.id (by simp))
    have walk : d.students.seekBefore Student.nextOverall (fun b => .ok (b == s.id)) d.students.size
        d.stuList = .ok (some u.id) := by
      refine Memory.seekBefore_chain chain short ?_ (by simp)
      intro b hb
      simpa using differ b (List.mem_of_mem_tail hb)
    obtain ⟨k, hk, _⟩ := Memory.get_of_link (chain.link_of_split)
    have past : d.students.link Student.nextOverall s.id = some n.nextOverall := by
      rw [hlink, hnext]
    have relinked := chain.unlink past
    refine ⟨d.students.store u.id (some { k with nextOverall := n.nextOverall }), d.stuList, ?_, ?_,
      Memory.link_store_same hk rfl, entryAt_relink hk ⟨rfl, rfl, rfl⟩, Memory.size_store _⟩
    · simp [routeAround, notFront, walk, hn, bind, Except.bind, Desk.updateStudent,
        Memory.update_of_get hk]
    · rw [Memory.link_store hk]
      simpa using relinked

theorem chargeWait_spec (clock : Nat → Int) (hn : d.students.get s.id = some n)
    (arrival : n.arrivalTime = s.arrivalTime) (course : n.course = s.course) :
    chargeWait clock s.id d = .ok
      (({ d.tick.setCourse s.course fun c =>
          { c with waitTime := c.waitTime + (clock d.ticks - s.arrivalTime) } with
        students :=
          d.students.store s.id (some { n with arrivalTime := clock d.ticks }) } : Desk).record
        (.taken s.id (clock d.ticks))) := by
  have updated :
      (d.tick.setCourse n.course fun c =>
        { c with waitTime := c.waitTime + (clock d.ticks - n.arrivalTime) }).students.get s.id =
      some n := hn
  simp only [chargeWait, Memory.read_some_of_get hn, bind, Except.bind, Desk.updateStudent,
    Memory.update_of_get updated]
  rw [← arrival, ← course]
  rfl

/-- What both ways of taking a student leave behind represents the list operation. -/
theorem represents_serve (clock : Nat → Int) (rep : Represents d q) (hi : q.staff[i]? = some t)
    (unserved : (q.holdOf i).served = none) (hq : q.queue = l ++ s :: r)
    (overall : Chain (d'.students.link Student.nextOverall) d'.stuList (ids (l ++ r)))
    (byCourse : ByCourse d'.students d'.courses (l ++ r))
    (courses : d'.courses.map tally = q.courses.modify s.course fun c =>
      { c with waitTime := c.waitTime + (clock q.ticks - s.arrivalTime) })
    (here : entryAt d'.students s.id = some { s with arrivalTime := clock q.ticks })
    (others : ∀ a, a ≠ s.id → entryAt d'.students a = entryAt d.students a)
    (size : d'.students.size = d.students.size)
    (tas : ∃ next, d'.tas = d.tas.store t.id (some ⟨t.name, some s.id, next⟩) ∧
      d.tas.link Ta.next t.id = some next)
    (taList : d'.taList = d.taList) (ticks : d'.ticks = d.ticks + 1)
    (log : d'.log = d.log ++ [.taken s.id (clock q.ticks)]) :
    Represents d' (DeskLists.serve clock q i s (l ++ r)) := by
  obtain ⟨before, after, hserving, hset⟩ := serving_setHold hi
  rw [unserved] at hserving
  have serving : (DeskLists.serve clock q i s (l ++ r)).serving =
      before ++ ({ s with arrivalTime := clock q.ticks } :: after) := hset (.serving _)
  have perm : (q.queue ++ q.serving).Perm (s :: (l ++ r ++ (before ++ after))) := by
    rw [hq, hserving]
    simp only [List.append_assoc, List.cons_append, Option.toList_none, List.nil_append]
    exact List.perm_middle
  have moved : (l ++ r ++ (before ++ ({ s with arrivalTime := clock q.ticks } :: after))).Perm
      ({ s with arrivalTime := clock q.ticks } :: (l ++ r ++ (before ++ after))) := by
    simp only [← List.append_assoc]
    exact List.perm_middle
  have nodup := (perm.map DeskLists.Student.id).nodup_iff.mp rep.apart
  have apart : ∀ u ∈ l ++ r ++ (before ++ after), u.id ≠ s.id := by
    intro u hu same
    exact (List.nodup_cons.mp nodup).1 (same ▸ List.mem_map_of_mem hu)
  have codes : ∀ code, (DeskLists.serve clock q i s (l ++ r)).findCourse code = q.findCourse code :=
    findCourse_setCourse (f := fun c =>
      { c with waitTime := c.waitTime + (clock q.ticks - s.arrivalTime) }) fun _ => rfl
  have old : ∀ u ∈ l ++ r ++ (before ++ after), u ∈ q.queue ++ q.serving :=
    fun u hu => perm.mem_iff.mpr (List.mem_cons_of_mem s hu)
  obtain ⟨next, htas, hnext⟩ := tas
  obtain ⟨k, hk, hkn⟩ := Memory.get_of_link hnext
  obtain ⟨_, hta⟩ := rep.ta_get hi
  refine ⟨overall, byCourse, courses, ?_, ?_, ?_, ?_, ?_, ?_, size.trans rep.made, ?_, ?_, ?_⟩
  · rw [serving]
    intro u hu
    rcases List.mem_cons.mp (moved.mem_iff.mp hu) with rfl | hu
    · exact here
    · exact (others u.id (apart u hu)).trans (rep.students u (old u hu))
  · rw [serving]
    exact (moved.map DeskLists.Student.id).nodup_iff.mpr nodup
  · rw [serving]
    intro u hu
    simp only [codes]
    rcases List.mem_cons.mp (moved.mem_iff.mp hu) with rfl | hu
    · exact rep.known s (perm.mem_iff.mpr List.mem_cons_self)
    · exact rep.known u (old u hu)
  · intro u hu a ha
    rcases mem_setHold hi hu with rfl | ⟨j, _, hj⟩
    · cases ha
    · obtain ⟨lt, gone⟩ := rep.released u (List.mem_of_getElem? hj) a ha
      have live := rep.students s (perm.mem_iff.mpr List.mem_cons_self)
      have hne : a ≠ s.id := by
        rintro rfl
        rw [entryAt_none.mpr gone] at live
        cases live
      refine ⟨size ▸ lt, ?_⟩
      rw [← entryAt_none, others a hne]
      exact entryAt_none.mpr gone
  · rw [taList, htas, Memory.link_store_same hk hkn.symm]
    rw [show (DeskLists.serve clock q i s (l ++ r)).staff.map DeskLists.Ta.id = _ from setHold_ids]
    exact rep.staff
  · rw [htas]
    have nodes :
        ∀ u ∈ (q.setHold i (.serving { s with arrivalTime := clock q.ticks })).staff, ∃ next',
        (d.tas.store t.id (some ⟨t.name, some s.id, next⟩)).get u.id =
          some ⟨u.name, u.hold.pointer, next'⟩ :=
      tas_setHold rep hi (Memory.get_store_same hk _) fun a ha => Memory.get_store_of_ne ha _
    exact nodes
  · rw [htas]
    exact (Memory.size_store _).trans rep.hired
  · rw [ticks, rep.ticks]
    rfl
  · rw [log, rep.log]
    rfl

/-- Taking the first student of the overall queue. -/
theorem serveOverall (clock : Nat → Int) (rep : Represents d q) (hi : q.staff[i]? = some t)
    (unserved : (q.holdOf i).served = none) (hq : q.queue = s :: r) :
    d.stuList = some s.id ∧ ∃ d',
      (do let d ← d.updateTa (some t.id) fun t => { t with currentStudent := some s.id }
          let d ← chargeWait clock s.id d
          let n ← d.students.read (some s.id)
          dropHead n.course { d with stuList := n.nextOverall }) = .ok d' ∧
      Represents d' (DeskLists.serve clock q i s r) := by
  have chain := rep.overall
  rw [hq] at chain
  have front : d.stuList = some s.id := Chain.pointer_eq chain
  obtain ⟨_, p, hlink, hrest⟩ := chain
  have mem : s ∈ q.queue ++ q.serving := by simp [hq]
  obtain ⟨n, hn, he⟩ := get_of_entry (rep.students s mem)
  have arrival : n.arrivalTime = s.arrivalTime := by rw [he]
  have course : n.course = s.course := by rw [he]
  obtain ⟨next, hta⟩ := rep.ta_get hi
  obtain ⟨x, hx⟩ := rep.course_of_mem mem
  refine ⟨front, ?_⟩
  let d1 : Desk := { d with tas := d.tas.store t.id (some ⟨t.name, some s.id, next⟩) }
  let d2 : Desk := ({ d1.tick.setCourse s.course fun c =>
      { c with waitTime := c.waitTime + (clock d.ticks - s.arrivalTime) } with
    students :=
      d.students.store s.id (some { n with arrivalTime := clock d.ticks }) } : Desk).record
      (.taken s.id (clock d.ticks))
  have links : ∀ f : Student → Pointer, f { n with arrivalTime := clock d.ticks } = f n →
      d2.students.link f = d.students.link f := fun f same => Memory.link_store_same hn same
  have byCourse : ByCourse d2.students d2.courses ([] ++ s :: r) :=
    ((hq ▸ rep.byCourse).congr fun b _ => congrFun (links _ rfl) b).modify fun _ => ⟨rfl, rfl⟩
  have hx2 : ∃ y, d2.courses[s.course]? = some y := by
    simp [d2, d1, Desk.setCourse, Desk.tick, Desk.record, hx]
  obtain ⟨y, hy⟩ := hx2
  have hn2 : d2.students.get s.id = some { n with arrivalTime := clock d.ticks } :=
    Memory.get_store_same hn _
  obtain ⟨_, courses', hdrop, hby, htally⟩ :=
    dropHead_spec (d := { d2 with stuList := n.nextOverall }) rfl byCourse (by simp) hy
  have charged : chargeWait clock s.id d1 = .ok d2 :=
    chargeWait_spec clock (d := d1) hn arrival course
  refine ⟨{ d2 with stuList := n.nextOverall, courses := courses' }, ?_,
    represents_serve clock rep hi unserved (l := []) hq ?_ hby ?_ ?_ ?_ ?_ ?_ rfl rfl ?_⟩
  · have taken := updateTa_ok hta (some s.id)
    simp only [taken, bind, Except.bind, show { d with tas := _ } = d1 from rfl, charged,
      Memory.read_some_of_get hn2, course]
    exact hdrop
  · rw [links _ rfl]
    have : p = n.nextOverall := by simpa [Memory.link_of_get hn, eq_comm] using hlink
    exact this ▸ hrest
  · rw [htally, ← rep.courses, ← rep.ticks]
    exact DeskLists.map_modify fun _ => rfl
  · simp only [entryAt, hn2, Option.map_some, rep.ticks]
    rw [he]
  · exact fun a ha => entryAt_congr (Memory.get_store_of_ne ha _)
  · exact Memory.size_store _
  · obtain ⟨_, htn⟩ := rep.tas t (List.mem_of_getElem? hi)
    exact ⟨next, rfl, Memory.link_of_get hta⟩
  · simp only [← rep.ticks]
    rfl

/-- Taking the first student of a course, from anywhere in the overall queue. -/
theorem serveCourse (clock : Nat → Int) (rep : Represents d q) (hi : q.staff[i]? = some t)
    (unserved : (q.holdOf i).served = none) (hq : q.queue = l ++ s :: r)
    (first : ∀ u ∈ l, u.course ≠ s.course) :
    ∃ d',
      (do let d ← d.updateTa (some t.id) fun t => { t with currentStudent := some s.id }
          let d ← dropHead s.course d
          let d ← routeAround s.id d
          chargeWait clock s.id d) = .ok d' ∧
      Represents d' (DeskLists.serve clock q i s (l ++ r)) := by
  have mem : s ∈ q.queue ++ q.serving := by simp [hq]
  obtain ⟨next, hta⟩ := rep.ta_get hi
  obtain ⟨x, hx⟩ := rep.course_of_mem mem
  let d1 : Desk := { d with tas := d.tas.store t.id (some ⟨t.name, some s.id, next⟩) }
  obtain ⟨_, courses', hdrop, hby, htally⟩ :=
    dropHead_spec (d := d1) rfl (hq ▸ rep.byCourse) first hx
  obtain ⟨m, p, hroute, hover, hlinks, hentries, hsize⟩ :=
    routeAround_spec (d := { d1 with courses := courses' }) (hq ▸ rep.overall)
  obtain ⟨n, hn, he⟩ := get_of_entry ((congrFun hentries s.id).trans (rep.students s mem))
  have arrival : n.arrivalTime = s.arrivalTime := by rw [he]
  have course : n.course = s.course := by rw [he]
  let d3 : Desk := { d1 with courses := courses', students := m, stuList := p }
  have charged := chargeWait_spec clock (d := d3) hn arrival course
  have links : ∀ f : Student → Pointer, f { n with arrivalTime := clock d.ticks } = f n →
      (m.store s.id (some { n with arrivalTime := clock d.ticks })).link f = m.link f :=
    fun f same => Memory.link_store_same hn same
  refine ⟨({ d3.tick.setCourse s.course fun c =>
      { c with waitTime := c.waitTime + (clock d.ticks - s.arrivalTime) } with
    students := m.store s.id (some { n with arrivalTime := clock d.ticks }) } : Desk).record
      (.taken s.id (clock d.ticks)), ?_, represents_serve clock rep hi unserved hq ?_ ?_ ?_ ?_ ?_ ?_
    ⟨next, rfl, Memory.link_of_get hta⟩ rfl rfl ?_⟩
  · have taken := updateTa_ok hta (some s.id)
    simp only [taken, bind, Except.bind, show { d with tas := _ } = d1 from rfl, hdrop, hroute]
    exact charged
  · rw [← links _ rfl] at hover
    exact hover
  · exact (hby.congr fun b _ =>
      (congrFun (links _ rfl) b).trans (congrFun hlinks b)).modify fun _ => ⟨rfl, rfl⟩
  · rw [← rep.courses, ← rep.ticks,
      ← show d1.courses.map tally = d.courses.map tally from rfl, ← htally]
    exact DeskLists.map_modify fun _ => rfl
  · have stored := Memory.get_store_same hn (some { n with arrivalTime := clock d.ticks })
    rw [← rep.ticks]
    refine (congrArg (Option.map _) stored).trans ?_
    rw [Option.map_some, he]
  · intro a ha
    exact (entryAt_congr (Memory.get_store_of_ne ha _)).trans (congrFun hentries a)
  · exact (Memory.size_store _).trans hsize
  · rw [← rep.ticks]
    rfl

end Serve

section AddStudent

variable {new : Addr}

theorem linkOverall_spec
    (chain : Chain (d.students.link Student.nextOverall) d.stuList (ids q.queue))
    (fresh : new ∉ ids q.queue) (ends : d.students.link Student.nextOverall new = some none) :
    ∃ m p, linkOverall new d = .ok { d with students := m, stuList := p } ∧
      Chain (m.link Student.nextOverall) p (ids q.queue ++ [new]) ∧
      m.link Student.nextCourse = d.students.link Student.nextCourse ∧
      entryAt m = entryAt d.students ∧ m.size = d.students.size := by
  rcases List.eq_nil_or_concat' q.queue with hnil | ⟨l, u, hl⟩
  · rw [hnil] at chain ⊢
    have empty : d.stuList = none := chain
    refine ⟨d.students, some new, by simp only [linkOverall, empty], ?_, rfl, rfl, rfl⟩
    exact ⟨rfl, none, ends, rfl⟩
  · have short : (ids l).length < d.students.size := by
      have := Memory.chain_length_le chain
      simp only [hl, ids, List.length_map, List.length_append, List.length_singleton] at this ⊢
      omega
    have whole : ids q.queue = ids l ++ [u.id] := by simp [hl]
    rw [whole] at chain fresh ⊢
    obtain ⟨first, hfirst⟩ : ∃ first, d.stuList = some first := by
      rw [Chain.pointer_eq chain]
      cases ids l <;> exact ⟨_, rfl⟩
    have walk : d.students.seekBefore Student.nextOverall (fun _ => .ok false) d.students.size
        (some first) = .ok (some u.id) :=
      Memory.seekBefore_chain (r := []) (hfirst ▸ chain) short (by simp) (by simp)
    obtain ⟨q', hq'⟩ := chain.readable (show u.id ∈ ids l ++ [u.id] by simp)
    obtain ⟨k, hk, _⟩ := Memory.get_of_link hq'
    have hne : u.id ≠ new := fun same => fresh (by simp [same])
    refine ⟨d.students.store u.id (some { k with nextOverall := some new }), d.stuList, ?_, ?_,
      Memory.link_store_same hk rfl, entryAt_relink hk ⟨rfl, rfl, rfl⟩, Memory.size_store _⟩
    · simp only [linkOverall, hfirst, walk, bind, Except.bind, Desk.updateStudent,
        Memory.update_of_get hk]
    · rw [Memory.link_store hk]
      refine chain.snoc new fresh ?_ ?_ (by simp)
      · rw [Function.update_of_ne (Ne.symm hne), ends]
      · intro a ha _
        exact Function.update_of_ne ha _ _

theorem linkCourse_spec (name : CString) (time : Int) {x : Course}
    (byCourse : ByCourse d.students d.courses q.queue) (nodup : (ids q.queue).Nodup)
    (hx : d.courses[c]? = some x) (fresh : new ∉ ids q.queue)
    (ends : d.students.link Student.nextCourse new = some none) :
    ∃ m courses', linkCourse new c d = .ok { d with students := m, courses := courses' } ∧
      ByCourse m courses' (q.queue ++ [⟨new, name, time, c⟩]) ∧
      courses'.map tally = d.courses.map tally ∧
      m.link Student.nextOverall = d.students.link Student.nextOverall ∧
      entryAt m = entryAt d.students ∧ m.size = d.students.size := by
  obtain ⟨chain, tail⟩ := byCourse c x hx
  have here :
      ids (inCourse (q.queue ++ [⟨new, name, time, c⟩]) c) = ids (inCourse q.queue c) ++ [new] := by
    rw [inCourse_append, inCourse_cons_same rfl, ids_append]
    rfl
  have elsewhere :
      ∀ j, j ≠ c → inCourse (q.queue ++ [⟨new, name, time, c⟩]) j = inCourse q.queue j := by
    intro j hj
    rw [inCourse_append, inCourse_cons_other (Ne.symm hj)]
    exact List.append_nil _
  -- the last student of this course is in no other course's queue
  have apart : ∀ j, j ≠ c → ∀ b ∈ ids (inCourse q.queue j), x.tail ≠ some b := by
    intro j hj b hb last
    obtain ⟨u, hu, rfl⟩ := mem_ids.mp hb
    obtain ⟨v, hv, same⟩ := mem_ids.mp (List.mem_of_getLast? (tail.symm.trans last))
    obtain rfl : v = u :=
      List.inj_on_of_nodup_map nodup (mem_of_mem_inCourse hv) (mem_of_mem_inCourse hu) same
    have cu : v.course = j := by simpa using (List.mem_filter.mp hu).2
    have cv : v.course = c := by simpa using (List.mem_filter.mp hv).2
    exact hj (cu.symm.trans cv)
  have build : ∀ (m : Memory Student) (f : Course → Course),
      Chain (m.link Student.nextCourse) (f x).head (ids (inCourse q.queue c) ++ [new]) →
      (f x).tail = some new →
      (∀ b ∈ ids q.queue, x.tail ≠ some b →
        m.link Student.nextCourse b = d.students.link Student.nextCourse b) →
      ByCourse m (d.courses.modify c f) (q.queue ++ [⟨new, name, time, c⟩]) := by
    intro m f hchain hlast links j y hy
    by_cases hj : j = c
    · subst hj
      have : y = f x := by simpa [hx, eq_comm] using hy
      rw [here, this, hlast]
      exact ⟨hchain, by simp⟩
    · have hy : d.courses[j]? = some y := by simpa [Ne.symm hj] using hy
      obtain ⟨hchain, hlast⟩ := byCourse j y hy
      rw [elsewhere j hj]
      refine ⟨segment_congr (fun b hb => links b (mem_ids_of_inCourse hb) (apart j hj b hb)) hchain,
        hlast⟩
  rcases List.eq_nil_or_concat' (ids (inCourse q.queue c)) with hnil | ⟨l, a, hl⟩
  · rw [hnil] at chain
    have empty : x.head = none := chain
    refine ⟨d.students,
      d.courses.modify c fun c => { c with head := some new, tail := some new }, ?_,
      build _ _ ?_ rfl (fun _ _ _ => rfl), DeskLists.map_modify_same fun _ => rfl, rfl, rfl, rfl⟩
    · simp only [linkCourse, Desk.course, hx, bind, Except.bind, empty, Desk.setCourse]
    · rw [hnil]
      exact ⟨rfl, none, ends, rfl⟩
  · rw [hl] at chain tail
    have last : x.tail = some a := by simpa using tail
    obtain ⟨first, hfirst⟩ : ∃ first, x.head = some first := by
      rw [Chain.pointer_eq chain]
      cases l <;> exact ⟨_, rfl⟩
    obtain ⟨p, hp⟩ := chain.readable (show a ∈ l ++ [a] by simp)
    obtain ⟨k, hk, _⟩ := Memory.get_of_link hp
    have inside : ∀ b ∈ l ++ [a], b ∈ ids q.queue := fun b hb => mem_ids_of_inCourse (hl ▸ hb)
    have hne : a ≠ new := fun same => fresh (inside new (by simp [same]))
    refine ⟨d.students.store a (some { k with nextCourse := some new }),
      d.courses.modify c fun c => { c with tail := some new }, ?_, build _ _ ?_ rfl ?_,
      DeskLists.map_modify_same fun _ => rfl, Memory.link_store_same hk rfl,
      entryAt_relink hk ⟨rfl, rfl, rfl⟩, Memory.size_store _⟩
    · simp only [linkCourse, Desk.course, hx, bind, Except.bind, hfirst, last, Desk.updateStudent,
        Memory.update_of_get hk, Desk.setCourse]
    · rw [hl, Memory.link_store hk]
      refine chain.snoc new (fun hmem => fresh (inside new hmem)) ?_ ?_ (by simp)
      · rw [Function.update_of_ne (Ne.symm hne), ends]
      · intro b hb _
        exact Function.update_of_ne hb _ _
    · intro b _ hb
      rw [Memory.link_store hk, Function.update_of_ne]
      rintro rfl
      exact hb last

theorem represents_turnAway (rep : Represents d q) (n : Student) :
    Represents { d.tick with students := d.students.alloc n } (DeskLists.turnAway q) := by
  have kept : ∀ s ∈ q.queue ++ q.serving, (d.students.alloc n).get s.id = d.students.get s.id := by
    intro s hs
    obtain ⟨k, hk, _⟩ := get_of_entry (rep.students s hs)
    rw [hk, Memory.get_alloc_of_some hk]
  have links : ∀ b ∈ ids q.queue, (d.students.alloc n).get b = d.students.get b := by
    intro b hb
    obtain ⟨s, hs, rfl⟩ := mem_ids.mp hb
    exact kept s (List.mem_append_left _ hs)
  refine ⟨segment_congr (fun b hb => Memory.link_congr (links b hb)) rep.overall,
    rep.byCourse.congr fun b hb => Memory.link_congr (links b hb), rep.courses, ?_, rep.apart,
    rep.known, ?_, rep.staff, rep.tas, ?_, rep.hired, congrArg (· + 1) rep.ticks, rep.log⟩
  · exact fun s hs => (entryAt_congr (kept s hs)).trans (rep.students s hs)
  · exact fun t ht a ha => (rep.released t ht a ha).alloc n
  · exact Memory.size_alloc.trans (congrArg (· + 1) rep.made)

theorem fresh_of_represents (rep : Represents d q) :
    ∀ s ∈ q.queue ++ q.serving, s.id ≠ d.students.size := by
  intro s hs
  obtain ⟨k, hk, _⟩ := get_of_entry (rep.students s hs)
  exact Nat.ne_of_lt (Memory.lt_size_of_get hk)

theorem addStudent_refines (rep : Represents d q) (name code : CString) :
    Simulates (HelpDesk.addStudent clock name code d)
      (.ok (DeskLists.addStudent clock name code q)) := by
  simp only [HelpDesk.addStudent, DeskLists.addStudent, findCourse_eq rep.courses]
  cases hc : q.findCourse code with
  | none => exact ⟨d, rfl, rep⟩
  | some c =>
  let n : Student := ⟨name, clock d.ticks, c, none, none⟩
  let d1 : Desk := { d.tick with students := d.students.alloc n }
  have rep1 : Represents d1 (DeskLists.turnAway q) := represents_turnAway rep n
  have scan : HelpDesk.findStudent d1 name = .ok ((q.findStudent name).map DeskLists.Student.id) :=
    seek_name rep1.overall (fun s hs => rep1.students s (List.mem_append_left _ hs)) name
  simp only
    [show { d.tick with students := d.students.alloc ⟨name, clock d.ticks, c, none, none⟩ } = d1
    from rfl, scan, bind, Except.bind]
  cases hs : q.findStudent name with
  | some s => exact ⟨d1, rfl, rep1⟩
  | none =>
  have fresh : d.students.size ∉ ids q.queue := by
    intro hmem
    obtain ⟨s, hs, same⟩ := mem_ids.mp hmem
    exact fresh_of_represents rep s (List.mem_append_left _ hs) same
  have hnew : d1.students.get d.students.size = some n := Memory.get_alloc_new
  obtain ⟨m2, p, hd2, chain2, links2, entries2, size2⟩ :=
    linkOverall_spec (q := DeskLists.turnAway q) rep1.overall fresh (Memory.link_of_get hnew)
  obtain ⟨x, hx⟩ := rep.course_of_lt (lt_of_findCourse hc)
  let d2 : Desk := { d1 with students := m2, stuList := p }
  have nodup : (ids q.queue).Nodup := (List.nodup_append.mp (ids_append ▸ rep.apart)).1
  obtain ⟨m3, courses', hd3, byCourse3, tallies, links3, entries3, size3⟩ :=
    linkCourse_spec (d := d2) (q := DeskLists.turnAway q) name (clock d.ticks)
      (rep1.byCourse.congr fun b _ => congrFun links2 b) nodup hx fresh
      ((congrFun links2 _).trans (Memory.link_of_get hnew))
  refine ⟨({ d2 with students := m3, courses := courses' }).record
    (.added d.students.size c (clock d.ticks)), ?_, ?_⟩
  · simp only [hd2, show { d1 with students := m2, stuList := p } = d2 from rfl, hd3]
    rfl
  have entries : entryAt m3 = entryAt d1.students := entries3.trans entries2
  have added :
      (q.queue ++ [(⟨q.made, name, clock q.ticks, c⟩ : DeskLists.Student)] ++ q.serving).Perm
      (⟨q.made, name, clock q.ticks, c⟩ :: (q.queue ++ q.serving)) := by
    simp only [List.append_assoc, List.cons_append, List.nil_append]
    exact List.perm_middle
  rw [rep.made] at chain2 byCourse3
  rw [rep.ticks] at byCourse3
  constructor
  · rw [← show m3.link Student.nextOverall = m2.link Student.nextOverall from links3] at chain2
    rw [show ids (DeskLists.enqueue clock q name c).queue = ids q.queue ++ [q.made] from ids_append]
    exact chain2
  · exact byCourse3
  · exact tallies.trans rep.courses
  · intro s hs
    rcases List.mem_cons.mp (added.mem_iff.mp hs) with rfl | hs
    · refine (congrFun entries q.made).trans ?_
      rw [← rep.made, ← rep.ticks, entryAt, hnew]
      rfl
    · exact (congrFun entries s.id).trans (rep1.students s hs)
  · refine (added.map DeskLists.Student.id).nodup_iff.mpr (List.nodup_cons.mpr ⟨?_, rep.apart⟩)
    intro hmem
    obtain ⟨s, hs, same⟩ := List.mem_map.mp hmem
    exact fresh_of_represents rep s hs (same.trans rep.made.symm)
  · intro s hs
    rcases List.mem_cons.mp (added.mem_iff.mp hs) with rfl | hs
    · exact ⟨code, hc⟩
    · exact rep.known s hs
  · intro t ht a ha
    obtain ⟨lt, gone⟩ := rep1.released t ht a ha
    refine ⟨(size3.trans size2) ▸ lt, ?_⟩
    exact entryAt_none.mp ((congrFun entries a).trans (entryAt_none.mpr gone))
  · exact rep.staff
  · exact rep.tas
  · exact (size3.trans size2).trans rep1.made
  · exact rep.hired
  · exact rep1.ticks
  · rw [Desk.record, rep.made, rep.ticks]
    exact congrArg (· ++ _) rep.log

end AddStudent

theorem giveUpWaiting_refines (rep : Represents d q) (name : CString) :
    Simulates (HelpDesk.giveUpWaiting clock name d) (.ok (DeskLists.giveUpWaiting clock name q)) :=
  by
  have nodes : ∀ s ∈ q.queue, entryAt d.students s.id = some s :=
    fun s hs => rep.students s (List.mem_append_left _ hs)
  have scan : HelpDesk.findStudent d name = .ok ((q.findStudent name).map DeskLists.Student.id) :=
    seek_name rep.overall nodes name
  simp only [HelpDesk.giveUpWaiting, DeskLists.giveUpWaiting, scan, bind, Except.bind]
  cases hs : q.findStudent name with
  | none => exact ⟨d, rfl, rep⟩
  | some s =>
  have mem : s ∈ q.queue := List.mem_of_find?_eq_some hs
  obtain ⟨n, hn, he⟩ := get_of_entry (nodes s mem)
  have arrival : n.arrivalTime = s.arrivalTime := by rw [he]
  have course : n.course = s.course := by rw [he]
  obtain ⟨x, hx⟩ := rep.course_of_mem (List.mem_append_left _ mem)
  obtain ⟨chain, _⟩ := rep.byCourse s.course x hx
  have found : ∀ l : List Addr, s.id ∈ l →
      l.find? (fun a => (d.students.get a).any fun _ => a == s.id) = some s.id := by
    intro l hl
    cases hf : l.find? (fun a => (d.students.get a).any fun _ => a == s.id) with
    | none => exact absurd (List.find?_eq_none.mp hf s.id hl) (by simp [hn])
    | some b =>
      have hb := List.find?_some hf
      obtain ⟨_, _, same⟩ := (Option.any_eq_true _ _).mp hb
      rw [show b = s.id by simpa using same]
  have overall :=
    Memory.seek_chain (fun a _ => a == s.id) rep.overall (Memory.chain_length_le rep.overall)
  rw [found _ (mem_ids.mpr ⟨s, mem, rfl⟩)] at overall
  have inside : s.id ∈ ids (inCourse q.queue s.course) :=
    mem_ids.mpr ⟨s, List.mem_filter.mpr ⟨mem, by simp⟩, rfl⟩
  have within := Memory.seek_chain (fun a _ => a == s.id) chain (Memory.chain_length_le chain)
  rw [found _ inside] at within
  let f : Course → Course := fun c =>
    { c with waitTime := c.waitTime + (clock d.ticks - s.arrivalTime), bailed := c.bailed + 1 }
  let d1 : Desk := d.tick.setCourse s.course f
  have hx1 : d1.courses[s.course]? = some (f x) :=
    (List.getElem?_modify_eq f s.course d.courses).trans (by rw [hx]; rfl)
  have inCourse : seekInCourse s.id s.course d1 = .ok (some s.id) := by
    simp only [seekInCourse, Desk.course, hx1, bind, Except.bind]
    split_ifs with front
    · exact congrArg _ front.symm
    · exact within
  -- both links are stored where they were read
  have again : ∀ g : Student → Student, g n = n → d1.updateStudent (some s.id) g = .ok d1 := by
    intro g hg
    have hn1 : d1.students.get s.id = some n := hn
    simp [Desk.updateStudent, Memory.update_of_get hn1, hg, Memory.store_get hn1, bind, Except.bind]
  have copied : copyLinks s.id (some s.id) (some s.id) d1 = .ok d1 := by
    have hn1 : d1.students.get s.id = some n := hn
    simp only [copyLinks, Memory.read_some_of_get hn1, bind, Except.bind,
      again (fun t => { t with nextOverall := n.nextOverall }) rfl,
      again (fun t => { t with nextCourse := n.nextCourse }) rfl]
  refine ⟨d1.record (.gaveUp s.id (clock d.ticks)), ?_, ?_⟩
  · simp only [Option.map_some, Memory.read_some_of_get hn, arrival, course]
    rw [show (d.tick.setCourse s.course fun c =>
          { c with
            waitTime := c.waitTime + (clock d.ticks - s.arrivalTime)
            bailed := c.bailed + 1 }) = d1 from rfl,
      show d1.students.seek Student.nextOverall (fun a _ => a == s.id) d1.students.size
        d1.stuList = _ from overall]
    simp only [inCourse, copied]
  · have codes : ∀ code, (DeskLists.bail clock q s).findCourse code = q.findCourse code :=
      findCourse_setCourse fun _ => rfl
    refine ⟨rep.overall, rep.byCourse.modify fun _ => ⟨rfl, rfl⟩, ?_, rep.students, rep.apart, ?_,
      rep.released, rep.staff, rep.tas, rep.made, rep.hired, congrArg (· + 1) rep.ticks, ?_⟩
    · change (d.courses.modify _ _).map tally = q.courses.modify _ _
      rw [← rep.courses, ← rep.ticks]
      exact DeskLists.map_modify fun _ => rfl
    · intro u hu
      simp only [codes]
      exact rep.known u hu
    · rw [Desk.record, rep.ticks]
      exact congrArg (· ++ _) rep.log

section Takes

theorem takeNextOverall_refines (rep : Represents d q) (taName : CString) :
    Simulates (HelpDesk.takeNextOverall clock taName d)
      (DeskLists.takeNextOverall clock taName q) := by
  rcases rep.findTa taName with ⟨hq, hd⟩ | ⟨i, t, hi, ht, hd⟩
  · simp only [HelpDesk.takeNextOverall, DeskLists.takeNextOverall, hq, hd]
    exact ⟨d, rfl, rep⟩
  simp only [HelpDesk.takeNextOverall, DeskLists.takeNextOverall, hi, hd, bind, Except.bind]
  obtain ⟨e, hqe, hde⟩ | ⟨q1, d1, hq1, hd1, rep1, _, _, ht1⟩ := release_refines clock rep ht
  · simp only [hqe, hde]
    rfl
  have unserved := (DeskLists.releaseCurrentStudent_cases (DeskLists.lt_of_findTa hi) hq1).2.1
  simp only [hq1, hd1]
  cases hqueue : q1.queue with
  | nil =>
    have empty : d1.stuList = none := by
      have := rep1.overall
      rw [hqueue] at this
      exact this
    obtain ⟨d2, hd2, rep2⟩ := represents_letGo rep1 ht1 unserved
    exact ⟨d2, by simp [empty, hd2], rep2⟩
  | cons s rest =>
    obtain ⟨front, d2, hd2, rep2⟩ := serveOverall clock rep1 ht1 unserved hqueue
    refine ⟨d2, ?_, rep2⟩
    obtain ⟨e1, he1, hd2⟩ := HaltingRuns.bind_ok_iff.mp hd2
    obtain ⟨e2, he2, hd2⟩ := HaltingRuns.bind_ok_iff.mp hd2
    obtain ⟨n, hn, hd2⟩ := HaltingRuns.bind_ok_iff.mp hd2
    simp only [front, he1, he2, hn, hd2]

theorem find_none_of_inCourse (hc : (q.queue.find? fun s => s.course == c) = none) :
    inCourse q.queue c = [] := by
  apply inCourse_eq_nil
  simpa using hc

theorem takeNextCourse_refines (rep : Represents d q) (taName code : CString) :
    Simulates (HelpDesk.takeNextCourse clock taName code d)
      (DeskLists.takeNextCourse clock taName code q) := by
  rcases rep.findTa taName with ⟨hq, hd⟩ | ⟨i, t, hi, ht, hd⟩
  · simp only [HelpDesk.takeNextCourse, DeskLists.takeNextCourse, hq, hd]
    exact ⟨d, rfl, rep⟩
  simp only [HelpDesk.takeNextCourse, DeskLists.takeNextCourse, hi, hd, bind, Except.bind]
  obtain ⟨e, hqe, hde⟩ | ⟨q1, d1, hq1, hd1, rep1, _, _, ht1⟩ := release_refines clock rep ht
  · simp only [hqe, hde]
    rfl
  have unserved := (DeskLists.releaseCurrentStudent_cases (DeskLists.lt_of_findTa hi) hq1).2.1
  simp only [hq1, hd1, findCourse_eq rep1.courses]
  cases hc : q1.findCourse code with
  | none =>
    obtain ⟨d2, hd2, rep2⟩ := represents_letGo rep1 ht1 unserved
    exact ⟨d2, by simp [hd2], rep2⟩
  | some c =>
    obtain ⟨x, hx⟩ := rep1.course_of_lt (lt_of_findCourse hc)
    obtain ⟨chain, _⟩ := rep1.byCourse c x hx
    have head := Chain.pointer_eq chain
    simp only [Desk.course, hx]
    cases hs : q1.queue.find? fun s => s.course == c with
    | none =>
      rw [find_none_of_inCourse hs] at head
      exact ⟨d1, by simp [head], rep1⟩
    | some s =>
      obtain ⟨l, r, hqueue, rfl, others, hrest⟩ := DeskLists.split_of_find hs
      rw [hqueue, inCourse_append, inCourse_eq_nil others, inCourse_cons_same rfl] at head
      obtain ⟨d2, hd2, rep2⟩ := serveCourse clock rep1 ht1 unserved hqueue others
      simp only [hrest]
      refine ⟨d2, ?_, rep2⟩
      obtain ⟨e1, he1, hd2⟩ := HaltingRuns.bind_ok_iff.mp hd2
      obtain ⟨e2, he2, hd2⟩ := HaltingRuns.bind_ok_iff.mp hd2
      obtain ⟨e3, he3, hd2⟩ := HaltingRuns.bind_ok_iff.mp hd2
      simp [head, he1, he2, he3, hd2]

end Takes

section Staffing

theorem addTa_represents (rep : Represents d q) (name : CString) :
    Represents (HelpDesk.addTa name d) (DeskLists.hire q name) := by
  have apart : ∀ t ∈ q.staff, (d.tas.alloc ⟨name, none, d.taList⟩).get t.id = d.tas.get t.id := by
    intro t ht
    obtain ⟨next, hn⟩ := rep.tas t ht
    rw [hn, Memory.get_alloc_of_some hn]
  have serving : (DeskLists.hire q name).serving = q.serving := by
    simp [DeskLists.hire, Lists.serving, Hold.served]
  refine ⟨rep.overall, rep.byCourse, rep.courses, ?_, ?_, ?_, ?_, ?_, ?_, rep.made, ?_,
    rep.ticks, rep.log⟩
  · rw [serving]; exact rep.students
  · rw [serving]; exact rep.apart
  · rw [serving]; exact rep.known
  · intro t ht a ha
    rcases List.mem_cons.mp ht with rfl | ht
    · cases ha
    · exact rep.released t ht a ha
  · rw [DeskLists.hire, List.map_cons, ← rep.hired]
    refine Chain.push rep.staff d.tas.size ?_ ?_
    · exact Memory.link_of_get Memory.get_alloc_new
    · intro a ha
      obtain ⟨t, ht, rfl⟩ := List.mem_map.mp ha
      exact Memory.link_congr (apart t ht)
  · intro t ht
    rcases List.mem_cons.mp ht with rfl | ht
    · exact ⟨d.taList, by rw [← rep.hired]; exact Memory.get_alloc_new⟩
    · obtain ⟨next, hn⟩ := rep.tas t ht
      exact ⟨next, (apart t ht).trans hn⟩
  · exact Memory.size_alloc.trans (congrArg (· + 1) rep.hired)

/-- Unlinking and freeing the node of a TA that serves nobody. -/
theorem represents_fire {before after : List DeskLists.Ta} {tas : Memory Ta} {p : Pointer}
    (rep : Represents d q) (hq : q.staff = before ++ t :: after)
    (unserved : (q.holdOf before.length).served = none)
    (chain : Chain (tas.link Ta.next) p ((before ++ after).map DeskLists.Ta.id))
    (nodes : ∀ u ∈ before ++ after, ∃ next, tas.get u.id = some ⟨u.name, u.hold.pointer, next⟩)
    (size : tas.size = d.tas.size) :
    Represents { d with tas := tas, taList := p } (DeskLists.fire q before.length) := by
  have staff : (DeskLists.fire q before.length).staff = before ++ after := by
    simp [DeskLists.fire, hq, List.eraseIdx_append_of_length_le]
  have hi : q.staff[before.length]? = some t := by simp [hq]
  have serving : (DeskLists.fire q before.length).serving = q.serving :=
    DeskLists.serving_fire hi unserved
  have sub : ∀ u ∈ before ++ after, u ∈ q.staff := by
    intro u hu
    rw [hq]
    exact (List.Sublist.append_left (List.sublist_cons_self t after) before).subset hu
  refine ⟨rep.overall, rep.byCourse, rep.courses, ?_, ?_, ?_, ?_, ?_, ?_, rep.made, ?_,
    rep.ticks, rep.log⟩
  · rw [serving]; exact rep.students
  · rw [serving]; exact rep.apart
  · rw [serving]; exact rep.known
  · rw [staff]; exact fun u hu => rep.released u (sub u hu)
  · rw [staff]; exact chain
  · rw [staff]; exact nodes
  · exact size.trans rep.hired

/-- Releasing does not look at the head of the staff. -/
theorem release_taList (clock : Nat → Int) (a p : Pointer) (d : Desk) :
    HelpDesk.releaseCurrentStudent clock a { d with taList := p } =
      (HelpDesk.releaseCurrentStudent clock a d).map fun d => { d with taList := p } := by
  simp only [HelpDesk.releaseCurrentStudent, bind, Except.bind]
  cases d.tas.read a with
  | error e => rfl
  | ok t =>
    cases ht : t.currentStudent with
    | none => simp [ht, Except.map]
    | some b =>
      cases hs : d.students.read (some b) with
      | error e => simp [ht, hs, Except.map]
      | ok s =>
        simp only [ht, hs]
        cases hf : d.students.free (some b) with
        | error e => simp [Desk.tick, hf, Except.map]
        | ok m => simp [Desk.tick, hf, Except.map, Desk.record, Desk.setCourse]

/-- Releasing changes at most what one TA holds. -/
theorem release_staff {q1 : Lists} {before after : List DeskLists.Ta}
    (hq : q.staff = before ++ t :: after)
    (h : DeskLists.releaseCurrentStudent clock before.length q = .ok q1) :
    ∃ t', q1.staff = before ++ t' :: after ∧ t'.id = t.id ∧ t'.name = t.name := by
  have lt : before.length < q.staff.length := by simp [hq]
  obtain ⟨_, rfl⟩ | ⟨s, _, rfl⟩ := (DeskLists.releaseCurrentStudent_cases lt h).1
  · exact ⟨t, hq, rfl, rfl⟩
  · refine ⟨{ t with hold := .released s.id }, ?_, rfl, rfl⟩
    have lt' : before.length < (before ++ t :: after).length := by simp
    simp [DeskLists.release, Lists.setHold, hq, List.modify_eq_take_cons_drop lt']

theorem split_findTa {name : CString} (h : q.findTa name = some i) :
    ∃ before t after, q.staff = before ++ t :: after ∧ i = before.length ∧ t.name = name ∧
      ∀ u ∈ before, u.name ≠ name := by
  obtain ⟨lt, hname, hbefore⟩ := List.findIdx?_eq_some_iff_getElem.mp h
  refine ⟨q.staff.take i, q.staff[i], q.staff.drop (i + 1), ?_, ?_, by simpa using hname, ?_⟩
  · rw [List.getElem_cons_drop, List.take_append_drop]
  · simp; omega
  · intro u hu
    obtain ⟨j, hj, rfl⟩ := List.mem_iff_getElem.mp hu
    rw [List.getElem_take]
    simpa using hbefore j (by simp at hj; omega)

/-- The loop of `remove_ta` compares the name of the next TA. -/
theorem nextName (rep : Represents d q) {u : DeskLists.Ta} (hu : u ∈ q.staff) (name : CString) :
    (do let n ← d.tas.read (some u.id); .ok (n.name == name) : Except Fault Bool) =
      .ok (u.name == name) := by
  obtain ⟨next, hn⟩ := rep.tas u hu
  simp [hn, bind, Except.bind]

/-- The loop stops before the first TA of the name behind the head, or at the last TA. -/
theorem seek_staff (rep : Represents d q) {before after : List DeskLists.Ta} (name : CString)
    (hq : q.staff = before ++ t :: after) (passes : ∀ v ∈ (before ++ [t]).tail, v.name ≠ name)
    (stops : ∀ v ∈ after.head?, v.name = name) :
    d.tas.seekBefore Ta.next (fun b =>
      do let u ← d.tas.read (some b); .ok (u.name == name)) d.tas.size
      d.taList = .ok (some t.id) := by
  have chain := rep.staff
  have enough := Memory.chain_length_le chain
  rw [hq, List.map_append, List.map_cons] at chain
  refine Memory.seekBefore_chain chain ?_ ?_ ?_
  · simp only [hq, List.length_map, List.length_append, List.length_cons] at enough ⊢
    omega
  · intro b hb
    rw [show before.map DeskLists.Ta.id ++ [t.id] = (before ++ [t]).map DeskLists.Ta.id by simp,
      ← List.map_tail] at hb
    obtain ⟨v, hv, rfl⟩ := List.mem_map.mp hb
    have hmem : v ∈ q.staff := by
      have := List.mem_of_mem_tail hv
      simp only [hq, List.mem_append, List.mem_cons] at this ⊢
      tauto
    rw [nextName rep hmem]
    simpa using passes v hv
  · intro b hb
    rw [List.head?_map] at hb
    obtain ⟨v, hv, rfl⟩ := Option.map_eq_some_iff.mp hb
    have hmem : v ∈ q.staff := by simp [hq, List.mem_of_head? hv]
    rw [nextName rep hmem]
    simpa using stops v hv

theorem removeTa_absent (rep : Represents d q) {name : CString}
    (others : ∀ u ∈ q.staff, u.name ≠ name) : HelpDesk.removeTa clock name d = .ok (1, d) := by
  have chain := rep.staff
  rcases List.eq_nil_or_concat' q.staff with hnil | ⟨l, u, hl⟩
  · rw [hnil] at chain
    simp [HelpDesk.removeTa, show d.taList = none from chain]
  obtain ⟨h, rest, hh⟩ : ∃ h rest, q.staff = h :: rest := by
    rw [hl]
    cases l <;> exact ⟨_, _, rfl⟩
  have first : d.taList = some h.id := by
    rw [Chain.pointer_eq chain, hh]
    rfl
  obtain ⟨next, hn⟩ := rep.tas h (by simp [hh])
  have walk := seek_staff rep name hl
    (fun v hv => others v (hl ▸ List.mem_of_mem_tail hv)) (by simp)
  obtain ⟨last, hlast⟩ := rep.tas u (by simp [hl])
  have ends : last = none := by
    rw [hl, List.map_append] at chain
    obtain ⟨_, _, _, p, hp, hend⟩ := segment_append.mp chain
    have := (Memory.link_of_get hlast).symm.trans hp
    exact (Option.some.inj this).trans hend
  rw [first] at walk
  simp only [HelpDesk.removeTa, first, Memory.read_some_of_get hn, bind, Except.bind,
    if_neg (others h (by simp [hh]))]
  simp only [bind, Except.bind] at walk
  simp only [walk, Memory.read_some_of_get hlast, ends]

/-- Removing the TA behind `u`. -/
theorem removeTa_inner (rep : Represents d q) {name : CString} {l after : List DeskLists.Ta}
    {u : DeskLists.Ta} (hq : q.staff = l ++ u :: t :: after) (hname : t.name = name)
    (others : ∀ v ∈ l ++ [u], v.name ≠ name) :
    Simulates (HelpDesk.removeTa clock name d)
      (do let q ← DeskLists.releaseCurrentStudent clock (l ++ [u]).length q
          .ok (0, DeskLists.fire q (l ++ [u]).length)) := by
  have chain := rep.staff
  have split : q.staff = (l ++ [u]) ++ t :: after := by simp [hq]
  obtain ⟨h, rest, hh⟩ : ∃ h rest, l ++ [u] = h :: rest := by
    cases l <;> exact ⟨_, _, rfl⟩
  have first : d.taList = some h.id := by
    rw [Chain.pointer_eq chain, split, hh]
    rfl
  obtain ⟨next, hn⟩ := rep.tas h (by simp [split, hh])
  have walk := seek_staff rep name hq (fun v hv => others v (List.mem_of_mem_tail hv))
    (by simpa using hname)
  rw [first] at walk
  simp only [bind, Except.bind] at walk
  obtain ⟨un, hun⟩ := rep.tas u (by simp [hq])
  obtain ⟨tn, htn⟩ := rep.tas t (by simp [hq])
  have hi : q.staff[(l ++ [u]).length]? = some t := by simp [hq]
  rw [hq, List.map_append, List.map_cons, List.map_cons] at chain
  have points : un = some t.id := by
    have := (Memory.link_of_get hun).symm.trans chain.link_of_split
    exact Option.some.inj this
  have head : HelpDesk.removeTa clock name d = (do
      let d ← HelpDesk.releaseCurrentStudent clock (some t.id) d
      let n ← d.tas.read (some t.id)
      let d ← d.updateTa (some u.id) fun t => { t with next := n.next }
      let tas ← d.tas.free (some t.id)
      .ok (0, { d with tas := tas })) := by
    simp only [HelpDesk.removeTa, first, Memory.read_some_of_get hn, bind, Except.bind,
      if_neg (others h (by simp [hh])), walk, Memory.read_some_of_get hun, points]
  rw [head]
  obtain ⟨e, hqe, hde⟩ | ⟨q1, d1, hq1, hd1, rep1, htas, htaList, ht1⟩ :=
    release_refines clock rep hi
  · simp only [hqe, hde, bind, Except.bind]
    rfl
  simp only [hq1, hd1, bind, Except.bind, htas, Memory.read_some_of_get htn, Desk.updateTa,
    Memory.update_of_get hun]
  have unserved := (DeskLists.releaseCurrentStudent_cases (by simp [split]) hq1).2.1
  obtain ⟨t', hstaff, hid, _⟩ := release_staff split hq1
  have nodup := chain.nodup
  have differ : t.id ≠ u.id := by
    have := (List.nodup_append.mp nodup).2.1
    intro same
    exact (List.nodup_cons.mp this).1 (by simp [same])
  have htn' : (d.tas.store u.id (some ⟨u.name, u.hold.pointer, tn⟩)).get t.id = some ⟨t.name,
    t.hold.pointer, tn⟩ :=
    (Memory.get_store_of_ne differ _).trans htn
  simp only [Memory.free_of_get htn']
  have stay : ∀ v ∈ l ++ [u] ++ after, v ∈ q.staff ∧ v.id ≠ t.id := by
    have perm :
        (q.staff.map DeskLists.Ta.id).Perm (t.id :: (l ++ [u] ++ after).map DeskLists.Ta.id) := by
      simp only [split, List.map_append, List.map_cons]
      exact List.perm_middle
    have apart := (List.nodup_cons.mp (perm.nodup_iff.mp rep.staff.nodup)).1
    intro v hv
    refine ⟨?_, fun same => apart (same ▸ List.mem_map_of_mem hv)⟩
    simp only [hq, List.mem_append, List.mem_cons] at hv ⊢
    tauto
  have kept : ∀ v ∈ l ++ [u] ++ after,
      ((d.tas.store u.id (some ⟨u.name, u.hold.pointer, tn⟩)).store t.id none).get v.id =
        (d.tas.store u.id (some ⟨u.name, u.hold.pointer, tn⟩)).get v.id :=
    fun v hv => Memory.get_store_of_ne (stay v hv).2 none
  refine ⟨_, rfl, represents_fire rep1 hstaff unserved ?_ ?_ ?_⟩
  · rw [htaList]
    have relinked := chain.unlink (Memory.link_of_get htn)
    rw [show l.map DeskLists.Ta.id ++ u.id :: after.map DeskLists.Ta.id =
      (l ++ [u] ++ after).map DeskLists.Ta.id by simp] at relinked
    refine segment_congr (fun b hb => ?_) relinked
    obtain ⟨v, hv, rfl⟩ := List.mem_map.mp hb
    rw [Memory.link_congr (kept v hv), Memory.link_store hun]
  · intro v hv
    rw [kept v hv]
    by_cases same : v.id = u.id
    · obtain rfl : v = u :=
        List.inj_on_of_nodup_map rep.staff.nodup (stay v hv).1 (by simp [hq]) same
      exact ⟨tn, Memory.get_store_same hun _⟩
    · rw [Memory.get_store_of_ne same]
      exact rep.tas v (stay v hv).1
  · simp [htas]

theorem removeTa_head (rep : Represents d q) {name : CString} {after : List DeskLists.Ta}
    (hq : q.staff = t :: after) (hname : t.name = name) :
    Simulates (HelpDesk.removeTa clock name d)
      (do let q ← DeskLists.releaseCurrentStudent clock 0 q
          .ok (0, DeskLists.fire q 0)) := by
  have chain := rep.staff
  rw [hq] at chain
  have first : d.taList = some t.id := Chain.pointer_eq chain
  obtain ⟨tn, htn⟩ := rep.tas t (by simp [hq])
  have hi : q.staff[0]? = some t := by simp [hq]
  obtain ⟨_, p, hp, hrest⟩ := chain
  obtain rfl : tn = p := Option.some.inj ((Memory.link_of_get htn).symm.trans hp)
  have head : HelpDesk.removeTa clock name d = (do
      let d ← (HelpDesk.releaseCurrentStudent clock (some t.id) d).map fun d =>
        { d with taList := tn }
      let tas ← d.tas.free (some t.id)
      .ok (0, { d with tas := tas })) := by
    simp only [HelpDesk.removeTa, first, Memory.read_some_of_get htn, bind, Except.bind, hname,
      if_true, ← release_taList]
  rw [head]
  obtain ⟨e, hqe, hde⟩ | ⟨q1, d1, hq1, hd1, rep1, htas, _, _⟩ := release_refines clock rep hi
  · simp only [hqe, hde, bind, Except.bind]
    rfl
  have htn1 : d1.tas.get t.id = some ⟨t.name, t.hold.pointer, tn⟩ := htas ▸ htn
  simp only [hq1, hd1, bind, Except.bind, Except.map, Memory.free_of_get htn1]
  have unserved := (DeskLists.releaseCurrentStudent_cases (by simp [hq]) hq1).2.1
  have split : q.staff = [] ++ t :: after := hq
  obtain ⟨t', hstaff, _⟩ := release_staff split hq1
  have apart := (List.nodup_cons.mp (hq ▸ rep.staff.nodup)).1
  have kept : ∀ v ∈ after, (d1.tas.store t.id none).get v.id = d.tas.get v.id := by
    intro v hv
    have differ : v.id ≠ t.id := fun same => apart (same ▸ List.mem_map_of_mem hv)
    rw [Memory.get_store_of_ne differ, htas]
  refine ⟨_, rfl, represents_fire rep1 hstaff unserved ?_ ?_ (Memory.size_store _)⟩
  · refine segment_congr (fun b hb => ?_) hrest
    obtain ⟨v, hv, rfl⟩ := List.mem_map.mp hb
    exact Memory.link_congr (kept v hv)
  · intro v hv
    rw [kept v hv]
    exact rep.tas v (by simp [hq, show v ∈ after from hv])

theorem removeTa_refines (rep : Represents d q) (name : CString) :
    Simulates (HelpDesk.removeTa clock name d) (DeskLists.removeTa clock name q) := by
  have chain := rep.staff
  simp only [DeskLists.removeTa]
  cases hi : q.findTa name with
  | none =>
    have others : ∀ u ∈ q.staff, u.name ≠ name := by simpa [Lists.findTa] using hi
    exact ⟨d, removeTa_absent rep others, rep⟩
  | some i =>
    obtain ⟨before, t, after, hq, rfl, hname, hbefore⟩ := split_findTa hi
    rcases List.eq_nil_or_concat' before with rfl | ⟨l, u, rfl⟩
    · exact removeTa_head rep hq hname
    · exact removeTa_inner rep (by simpa using hq) hname hbefore

end Staffing

theorem call_refines (clock : Nat → Int) (rep : Represents d q) (a : Call) :
    Simulates (HelpDesk.call clock d a) (DeskLists.call clock q a) := by
  cases a with
  | addStudent name code => exact addStudent_refines rep name code
  | giveUpWaiting name => exact giveUpWaiting_refines rep name
  | addTa name => exact ⟨_, rfl, addTa_represents rep name⟩
  | removeTa name => exact removeTa_refines rep name
  | takeNextOverall taName => exact takeNextOverall_refines rep taName
  | takeNextCourse taName code => exact takeNextCourse_refines rep taName code

theorem opened_represents (lines : List (CString × CString)) :
    Represents (HelpDesk.opened lines) (DeskLists.opened lines) := by
  refine ⟨rfl, ?_, ?_, by simp [DeskLists.opened, Lists.serving], List.nodup_nil,
    by simp [DeskLists.opened, Lists.serving], by simp [DeskLists.opened], rfl,
    by simp [DeskLists.opened], rfl, rfl, rfl, rfl⟩
  · intro c x hx
    simp only [HelpDesk.opened, List.getElem?_map, Option.map_eq_some_iff] at hx
    obtain ⟨l, _, rfl⟩ := hx
    exact ⟨rfl, rfl⟩
  · simp [HelpDesk.opened, DeskLists.opened, tally, newCourse]

end DeskRefinement
