import CSC209.A4.QueueReading

/-!
# The pointer operations refine the queue

Every call of the queue module succeeds on a well-formed heap, leaves a
well-formed heap, acts on the abstraction as the list operation does, and
frees exactly the nodes that drop out of the lists. The liveness of the
current students is needed: without it `remove_ta` frees a node twice.
-/

namespace QueueRefinement

open CStrings HelpQueue QueueHeap QueueReading LinkedChain

variable {h : Heap} {q : Lists} {fuel : Nat}

/-- The call succeeds with the result of the list operation, in a heap that represents its lists. -/
def Refines (h : Heap) (q : Lists) (result : Except Fault (Nat × Heap))
    (spec : Nat × Lists) : Prop :=
  ∃ h', result = .ok (spec.1, h') ∧ Represents h' spec.2 ∧ FreesExactly h h' q spec.2

theorem unchanged (rep : Represents h q) (code : Nat) :
    Refines h q (.ok (code, h)) (code, q) :=
  ⟨h, rfl, rep, rep.freesNothing⟩

section AddStudent

variable {new : Addr} {name code : CString} {course : Course} {courses : List Course}

theorem apart_of_fresh (rep : Represents h q) (fresh : ¬ StudentLive h new) :
    ∀ s ∈ q.stuList ++ serving q.taList, s.id ≠ new :=
  fun s hs heq => fresh (student_live_iff.mpr ⟨s, heq ▸ rep.students s hs⟩)

/-- A node that is allocated and freed again leaves the lists and the liveness alone. -/
theorem discarded (rep : Represents h q) (fresh : ¬ StudentLive h new) (n : StudentNode) :
    Represents ((h.setStudent new (.live n)).setStudent new .freed) q ∧
      FreesExactly h ((h.setStudent new (.live n)).setStudent new .freed) q q := by
  have same : ∀ a, a ≠ new →
      ((h.setStudent new (.live n)).setStudent new .freed).students a = h.students a :=
    fun a ha => by rw [setStudent_other _ ha, setStudent_other _ ha]
  have apart := apart_of_fresh rep fresh
  refine ⟨⟨segment_congr ?_ rep.stuChain, rep.taChain, ?_, rep.tas, rep.valid⟩, ?_,
    rep.freesNothing.2⟩
  · intro a ha
    obtain ⟨s, hs, rfl⟩ := List.mem_map.mp ha
    exact stuLink_congr (same s.id (apart s (List.mem_append_left _ hs)))
  · exact fun s hs => (absStudent_congr (same s.id (apart s hs))).trans (rep.students s hs)
  · refine frees_gone [] rep.valid.students (List.Perm.refl _) rep.student_live ?_
    intro a
    rw [studentLive_freed]
    by_cases ha : a = new
    · subst ha; simp [fresh]
    · simp [StudentLive, setStudent_other _ ha, ha]

/-- The heap after the new node has been linked in behind the chain. -/
theorem appended (rep : Represents h q) (fresh : ¬ StudentLive h new)
    (unnamed : ∀ s ∈ q.stuList, s.name ≠ name) {h' : Heap}
    (chain : Chain (stuLink h') h'.stuList (q.stuList.map Student.id ++ [new]))
    (taList : h'.taList = h.taList) (tas : h'.tas = h.tas)
    (same : absStudent h' = absStudent (h.setStudent new (.live ⟨name, some course, none⟩))) :
    Represents h' { q with stuList := q.stuList ++ [⟨new, name, course⟩] } ∧
      FreesExactly h h' q { q with stuList := q.stuList ++ [⟨new, name, course⟩] } := by
  have apart := apart_of_fresh rep fresh
  have perm : ((q.stuList ++ [(⟨new, name, course⟩ : Student)] ++ serving q.taList).map
      Student.id).Perm (new :: (q.stuList ++ serving q.taList).map Student.id) := by
    simp only [List.map_append, List.map_cons, List.append_assoc, List.cons_append, List.nil_append]
    exact List.perm_middle
  have taLinks : taLink h' = taLink h := by funext a; exact taLink_congr (by rw [tas])
  refine ⟨⟨by simpa using chain, ?_, ?_, ?_, ?_⟩, ?_, ?_⟩
  · rw [taLinks, taList]; exact rep.taChain
  · intro s hs
    rw [same]
    have cases_s : s ∈ q.stuList ++ serving q.taList ∨ s = ⟨new, name, course⟩ := by
      simp only [List.mem_append, List.mem_singleton] at hs ⊢
      tauto
    rcases cases_s with hs | rfl
    · exact (absStudent_congr (setStudent_other _ (apart s hs))).trans (rep.students s hs)
    · simp [absStudent, entry]
  · rw [tas]; exact rep.tas
  · have hv : (HelpQueue.addStudent [course] new name course.code q).2.Valid :=
      rep.valid.addStudent new name course.code apart
    simpa [HelpQueue.addStudent, findStudent_eq_none.mpr unnamed, findCourse] using hv
  · refine frees_fresh perm rep.student_live ?_ fresh
    intro a
    rw [studentLive_of_abs same]
    by_cases ha : a = new
    · subst ha; simp [StudentLive]
    · simp [StudentLive, setStudent_other _ ha, ha]
  · have := rep.freesNothing.2
    simpa [TaLive, tas] using this

/-- Walking to the last node and linking the new one behind it. -/
theorem linkedLast (course : Course) (rep : Represents h q) (fresh : ¬ StudentLive h new)
    (unnamed : ∀ s ∈ q.stuList, s.name ≠ name) {l : List Student} {s : Student}
    (hl : q.stuList = l ++ [s]) (enough : q.stuList.length < fuel) :
    ∃ first, h.stuList = some first ∧ ∃ h1 h',
      lastStudent (h.setStudent new (.live ⟨name, some course, none⟩)) fuel (some first) =
        .ok (some h1) ∧
      (h.setStudent new (.live ⟨name, some course, none⟩)).linkStudent (some h1)
      (some new) = .ok h' ∧
      Represents h' { q with stuList := q.stuList ++ [⟨new, name, course⟩] } ∧
      FreesExactly h h' q { q with stuList := q.stuList ++ [⟨new, name, course⟩] } := by
  have apart := apart_of_fresh rep fresh
  have chain := rep.stuChain
  rw [hl, List.map_append, List.map_cons, List.map_nil] at chain
  have hs := rep.students s (by simp [hl])
  obtain ⟨n, hn, _⟩ := absStudent_some hs
  have hne : s.id ≠ new := apart s (by simp [hl])
  have absent : new ∉ l.map Student.id ++ [s.id] := by
    intro hm
    have : new ∈ q.stuList.map Student.id := by simpa [hl] using hm
    obtain ⟨u, hu, heq⟩ := List.mem_map.mp this
    exact apart u (List.mem_append_left _ hu) heq
  generalize hg : h.setStudent new (.live ⟨name, some course, none⟩) = g
  have hn' : g.students s.id = .live n := by rw [← hg, setStudent_other _ hne, hn]
  have links : ∀ c, c ≠ new → stuLink g c = stuLink h c :=
    fun c hc => stuLink_congr (by rw [← hg, setStudent_other _ hc])
  have chain' : Chain (stuLink g) h.stuList (l.map Student.id ++ [s.id]) :=
    segment_congr (fun c hc => links c fun heq => absent (heq ▸ hc)) chain
  have last := lastStudent_chain fuel chain' (by simp [hl] at enough; simp; omega)
  obtain ⟨first, hfirst⟩ : ∃ first, h.stuList = some first := by
    cases hmap : l.map Student.id ++ [s.id] with
    | nil => simp at hmap
    | cons a rest => rw [hmap] at chain; exact ⟨a, chain.1⟩
  rw [hfirst] at last
  refine ⟨first, hfirst, s.id, _, last, linkStudent_ok hn' (some new), ?_⟩
  refine appended rep fresh unnamed ?_ ?_ ?_ ?_
  · have start : g.stuList = h.stuList := by rw [← hg]; rfl
    rw [hl, List.map_append, List.map_cons, List.map_nil, stuLink_relink, setStudent_stuList, start]
    refine Chain.snoc chain new absent ?_ ?_ (by simp)
    · rw [Function.update_of_ne (Ne.symm hne), ← hg]
      simp [stuLink]
    · intro c hca hcn
      rw [Function.update_of_ne hca]
      exact links c hcn
  · rw [← hg]; rfl
  · rw [← hg]; rfl
  · rw [absStudent_relink hn', hg]

theorem addStudent_refines (rep : Represents h q) (courses : List Course)
    (fresh : ¬ StudentLive h new) (name code : CString) (enough : q.stuList.length < fuel) :
    Refines h q (QueueHeap.addStudent courses new name code fuel h)
      (HelpQueue.addStudent courses new name code q) := by
  have nodes : ∀ s ∈ q.stuList, absStudent h s.id = some s := fun s hs =>
    rep.students s (List.mem_append_left _ hs)
  have scan := findStudent_chain name rep.stuChain nodes enough
  unfold QueueHeap.addStudent HelpQueue.addStudent
  rw [scan]
  cases hfind : HelpQueue.findStudent q.stuList name with
  | some s => exact unchanged rep 1
  | none =>
  have unnamed := findStudent_eq_none.mp hfind
  cases hc : findCourse courses code with
  | none =>
    have made : (h.setStudent new (.live ⟨name, none, none⟩)).students new =
        .live ⟨name, none, none⟩ := setStudent_same _
    refine ⟨_, ?_, discarded rep fresh ⟨name, none, none⟩⟩
    simp [bind, Except.bind, freeStudent_ok made]
  | some course =>
    rcases List.eq_nil_or_concat' q.stuList with hnil | ⟨l, s, hl⟩
    · have hp : h.stuList = none := by
        have := rep.stuChain
        rw [hnil] at this
        exact this
      refine ⟨{ h.setStudent new (.live ⟨name, some course, none⟩) with stuList := some new }, ?_,
        appended rep fresh unnamed ?_ rfl rfl rfl⟩
      · simp [bind, Except.bind, hp]
      · rw [hnil]
        exact ⟨rfl, none, by simp [stuLink], rfl⟩
    · obtain ⟨first, hfirst, last, h', hlast, hlink, done⟩ :=
        linkedLast course rep fresh unnamed hl enough
      refine ⟨h', ?_, done⟩
      simp [bind, Except.bind, hfirst, hlast, hlink]

end AddStudent

theorem giveUpWaiting_refines (rep : Represents h q) (name : CString)
    (enough : q.stuList.length < fuel) :
    Refines h q (QueueHeap.giveUpWaiting name fuel h) (HelpQueue.giveUpWaiting name q) := by
  have nodes : ∀ s ∈ q.stuList, absStudent h s.id = some s := fun s hs =>
    rep.students s (List.mem_append_left _ hs)
  have scan := findStudent_chain name rep.stuChain nodes enough
  unfold QueueHeap.giveUpWaiting
  rw [scan]
  rcases giveUpWaiting_cases name q with ⟨absent, heq⟩ | ⟨before, s, after, hq, hn, hb, heq⟩
  · rw [findStudent_eq_none.mpr absent, heq]
    exact unchanged rep 1
  have found : HelpQueue.findStudent q.stuList name = some s := by
    simp only [HelpQueue.findStudent, List.find?_eq_some_iff_append]
    exact ⟨by simpa using hn, before, after, hq, by simpa using hb⟩
  rw [found, heq]
  have chain := rep.stuChain
  rw [hq, List.map_append, List.map_cons] at chain
  obtain ⟨h1, hroute, chain1, habs, htas, htaList⟩ := routeAround_chain fuel chain
    (by simp [hq] at enough; simp; omega)
  have perm : ((q.stuList ++ serving q.taList).map Student.id).Perm
      ([s.id] ++ (before ++ after ++ serving q.taList).map Student.id) := by
    rw [hq]
    simp only [List.map_append, List.map_cons, List.append_assoc, List.cons_append,
      List.nil_append]
    exact List.perm_middle
  have elsewhere : ∀ a ∈ (before ++ after ++ serving q.taList).map Student.id, a ≠ s.id := by
    intro a ha heq
    have hn := List.nodup_append.mp (perm.nodup_iff.mp rep.valid.students)
    exact hn.2.2 s.id (List.mem_singleton_self _) a ha heq.symm
  obtain ⟨n, hnode, _⟩ := absStudent_some ((congrFun habs s.id).trans (nodes s (by simp [hq])))
  refine ⟨h1.setStudent s.id .freed, ?_, ⟨?_, ?_, ?_, ?_, ?_⟩, ?_, ?_⟩
  · simp only [Option.map_some, bind, Except.bind, hroute, freeStudent_ok hnode]
  · simp only [setStudent_stuList, List.map_append]
    refine segment_congr (fun a ha => stuLink_congr (setStudent_other _ ?_)) chain1
    exact elsewhere a (by simp only [List.map_append]; exact List.mem_append_left _ ha)
  · have : taLink h1 = taLink h := by funext a; exact taLink_congr (by rw [htas])
    simp only [setStudent_taList, htaList]
    rw [show taLink (h1.setStudent s.id .freed) = taLink h1 from rfl, this]
    exact rep.taChain
  · intro u hu
    have hne : u.id ≠ s.id := elsewhere u.id (List.mem_map_of_mem hu)
    rw [absStudent_congr (setStudent_other _ hne), habs]
    apply rep.students u
    simp only [hq, List.mem_append, List.mem_cons] at hu ⊢
    tauto
  · simp only [setStudent_tas, htas]; exact rep.tas
  · have hv := rep.valid.giveUpWaiting name
    rwa [heq] at hv
  · apply frees_gone _ rep.valid.students perm rep.student_live
    intro a
    rw [studentLive_freed, studentLive_of_abs habs]
  · have := rep.freesNothing.2
    simpa [TaLive, htas] using this

theorem addTa_refines (rep : Represents h q) (new : Addr) (fresh : ¬ TaLive h new)
    (name : CString) :
    Refines h q (.ok (0, QueueHeap.addTa new name h)) (0, HelpQueue.addTa new name q) := by
  have apart : ∀ t ∈ q.taList, t.id ≠ new := by
    intro t ht heq
    obtain ⟨next, hn⟩ := rep.tas t ht
    exact fresh ⟨_, heq ▸ hn⟩
  refine ⟨_, rfl, ⟨rep.stuChain, ?_, ?_, ?_, rep.valid.addTa new name apart⟩, ?_, ?_⟩
  · apply Chain.push rep.taChain new (by simp [QueueHeap.addTa, taLink])
    intro a ha
    obtain ⟨t, ht, rfl⟩ := List.mem_map.mp ha
    exact taLink_congr (by simp [QueueHeap.addTa, setTa_other _ (apart t ht)])
  · intro s hs
    exact rep.students s (by simpa [HelpQueue.addTa] using hs)
  · intro t ht
    rcases List.mem_cons.mp ht with rfl | ht
    · exact ⟨h.taList, by simp [QueueHeap.addTa]⟩
    · obtain ⟨next, hn⟩ := rep.tas t ht
      exact ⟨next, by simp [QueueHeap.addTa, setTa_other _ (apart t ht), hn]⟩
  · have := rep.freesNothing.1
    simpa [StudentLive, HelpQueue.addTa, QueueHeap.addTa] using this
  · refine frees_fresh (List.Perm.refl _) rep.ta_live ?_ fresh
    intro a
    by_cases ha : a = new
    · subst ha; simp [TaLive, QueueHeap.addTa]
    · simp [TaLive, QueueHeap.addTa, setTa_other _ ha, ha]

section TakeStudent

/-- The heap after the student being served, if any, has been freed. -/
def releaseServee (h : Heap) : Option Addr → Heap
  | none => h
  | some s => h.setStudent s .freed

variable {a : Addr} {n : TaNode}

@[simp] theorem releaseServee_tas (p : Option Addr) : (releaseServee h p).tas = h.tas := by
  cases p <;> rfl

@[simp] theorem releaseServee_stuList (p : Option Addr) :
    (releaseServee h p).stuList = h.stuList := by
  cases p <;> rfl

@[simp] theorem releaseServee_taList (p : Option Addr) : (releaseServee h p).taList = h.taList := by
  cases p <;> rfl

theorem releaseServee_other {p : Option Addr} {b : Addr} (hne : b ∉ p.toList) :
    (releaseServee h p).students b = h.students b := by
  cases p with
  | none => rfl
  | some s => exact setStudent_other _ (by simpa using hne)

theorem releaseServee_live (p : Option Addr) (b : Addr) :
    StudentLive (releaseServee h p) b ↔ StudentLive h b ∧ b ∉ p.toList := by
  cases p with
  | none => simp [releaseServee]
  | some s => exact (studentLive_freed s b).trans (by simp)

/-- `take_student` releases the old student, installs the new one and unlinks it. -/
theorem takeStudent_eq (fuel : Nat) (hn : h.tas a = .live n)
    (held : ∀ s, n.currentStudent = some s → StudentLive h s) (toServe : Option Addr) :
    QueueHeap.takeStudent a toServe fuel h =
      match toServe with
      | none => .ok ((releaseServee h n.currentStudent).setTa a
          (.live { n with currentStudent := none }))
      | some s => routeAroundOverall s fuel ((releaseServee h n.currentStudent).setTa a
          (.live { n with currentStudent := some s })) := by
  cases hcur : n.currentStudent with
  | none => cases toServe <;> simp [QueueHeap.takeStudent, ta_ok hn, hcur, releaseServee, bind,
      Except.bind]
  | some s =>
    obtain ⟨m, hm⟩ := held s hcur
    cases toServe <;>
      simp [QueueHeap.takeStudent, ta_ok hn, hcur, releaseServee, freeStudent_ok hm, bind,
        Except.bind]

theorem current_live (rep : Represents h q) {t : Ta} (ht : t ∈ q.taList) :
    ∀ s, t.currentStudent.map Student.id = some s → StudentLive h s := by
  intro s hs
  obtain ⟨u, hu, rfl⟩ := Option.map_eq_some_iff.mp hs
  refine rep.student_live u.id (List.mem_map_of_mem (List.mem_append_right _ ?_))
  exact List.mem_filterMap.mpr ⟨t, ht, hu⟩

end TakeStudent

section RemoveTa

variable {name : CString} {before after : List Ta} {t : Ta}

/-- The other TAs have other nodes. -/
theorem tas_apart (rep : Represents h q) (hq : q.taList = before ++ t :: after) :
    ∀ u ∈ before ++ after, u ∈ q.taList ∧ u.id ≠ t.id := by
  have perm : (q.taList.map Ta.id).Perm (t.id :: (before ++ after).map Ta.id) := by
    rw [hq, List.map_append, List.map_cons, List.map_append]
    exact List.perm_middle
  have later := (List.nodup_cons.mp (perm.nodup_iff.mp rep.valid.tas)).1
  intro u hu
  constructor
  · simp only [hq, List.mem_append, List.mem_cons] at hu ⊢
    tauto
  · exact fun same => later (same ▸ List.mem_map_of_mem hu)

/-- The heap after a TA has been unlinked and freed together with the student being served. -/
theorem unlinkedTa (rep : Represents h q) (hq : q.taList = before ++ t :: after) {h' : Heap}
    (students : h'.students = (releaseServee h (t.currentStudent.map Student.id)).students)
    (stuList : h'.stuList = h.stuList)
    (chain : Chain (taLink h') h'.taList ((before ++ after).map Ta.id))
    (nodes : ∀ u ∈ before ++ after, ∃ next,
      h'.tas u.id = .live ⟨u.name, u.currentStudent.map Student.id, next⟩)
    (live : ∀ a, TaLive h' a ↔ TaLive h a ∧ a ∉ [t.id]) :
    Represents h' { q with taList := before ++ after } ∧
      FreesExactly h h' q { q with taList := before ++ after } := by
  have perm : ((q.stuList ++ serving q.taList).map Student.id).Perm
      ((t.currentStudent.map Student.id).toList ++
        (q.stuList ++ serving (before ++ after)).map Student.id) := by
    rw [hq]
    simp only [serving_append, serving_cons, List.map_append, Option.toList_map]
    generalize t.currentStudent.toList.map Student.id = old
    exact ((List.perm_append_comm_assoc _ _ _).append_left _).trans
      (List.perm_append_comm_assoc _ _ _)
  have split := List.nodup_append.mp (perm.nodup_iff.mp rep.valid.students)
  have same : ∀ a ∈ (q.stuList ++ serving (before ++ after)).map Student.id,
      h'.students a = h.students a := by
    intro a ha
    rw [students]
    exact releaseServee_other fun hold => split.2.2 a hold a ha rfl
  refine ⟨⟨?_, chain, ?_, nodes, ?_⟩, ?_, ?_⟩
  · rw [stuList]
    refine segment_congr (fun a ha => stuLink_congr (same a ?_)) rep.stuChain
    rw [List.map_append]; exact List.mem_append_left _ ha
  · intro s hs
    rw [absStudent_congr (same s.id (List.mem_map_of_mem hs))]
    apply rep.students s
    simp only [hq, serving_append, serving_cons, List.mem_append] at hs ⊢
    tauto
  · exact rep.valid.sublist (List.Sublist.refl _) (by simp [hq])
  · apply frees_gone _ rep.valid.students perm rep.student_live
    intro a
    rw [← releaseServee_live]
    simp [StudentLive, students]
  · refine frees_gone [t.id] rep.valid.tas ?_ rep.ta_live live
    rw [hq]
    simp only [List.map_append, List.map_cons, List.cons_append, List.nil_append]
    exact List.perm_middle

/-- The loop behind the head passes over TAs of other names. -/
theorem removeTaAfter_skip (name : CString) {l : List Addr} {head : Addr} (fuel : Nat)
    (chain : Chain (taLink h) (some head) (head :: l))
    (others : ∀ b ∈ l, ∃ m, h.tas b = .live m ∧ m.name ≠ name) (enough : l.length < fuel) :
    removeTaAfter name h fuel head = .ok (1, h) := by
  induction l generalizing head fuel with
  | nil =>
    obtain ⟨fuel, rfl⟩ := exists_fuel enough
    obtain ⟨_, next, hlink, hend⟩ := chain
    obtain rfl : next = none := hend
    obtain ⟨n, hn, hnext⟩ := ta_of_link hlink
    simp [removeTaAfter, ta_ok hn, bind, Except.bind, hnext]
  | cons b rest ih =>
    obtain ⟨fuel, rfl⟩ := exists_fuel enough
    obtain ⟨_, next, hlink, hrest⟩ := chain
    obtain rfl : next = some b := hrest.1
    obtain ⟨m, hm, hne⟩ := others b List.mem_cons_self
    obtain ⟨n, hn, hnext⟩ := ta_of_link hlink
    simp only [removeTaAfter, ta_ok hn, bind, Except.bind, hnext, ta_ok hm, if_neg hne]
    exact ih fuel hrest (fun c hcm => others c (List.mem_cons_of_mem b hcm))
      (by simp at enough; omega)

/-- The heap after the loop has taken out `b`, the successor of `p`. -/
def unhook (h : Heap) (p b : Addr) (pn tn : TaNode) : Heap :=
  (((releaseServee h tn.currentStudent).setTa b (.live { tn with currentStudent := none })).setTa p
    (.live { pn with next := tn.next })).setTa b .freed

/-- The loop behind the head takes out the first TA of the name. -/
theorem removeTaAfter_found (name : CString) {l r : List Addr} {p b head : Addr} (fuel : Nat)
    {tn : TaNode}
    (chain : Chain (taLink h) (some head) (l ++ p :: b :: r))
    (others : ∀ c ∈ l ++ [p], ∃ m, h.tas c = .live m ∧ m.name ≠ name)
    (hb : h.tas b = .live tn) (hit : tn.name = name)
    (held : ∀ s, tn.currentStudent = some s → StudentLive h s) (enough : l.length < fuel) :
    ∃ pn, h.tas p = .live pn ∧
      removeTaAfter name h fuel head = .ok (0, unhook h p b pn tn) := by
  induction l generalizing head fuel with
  | nil =>
    obtain ⟨fuel, rfl⟩ := exists_fuel enough
    have nodup := chain.nodup
    obtain ⟨hp, next, hlink, hrest⟩ := chain
    obtain rfl := Option.some.inj hp
    obtain rfl : next = some b := hrest.1
    obtain ⟨pn, hpn, _⟩ := others head (by simp)
    have hnext : pn.next = some b := Option.some.inj ((taLink_live hpn).symm.trans hlink)
    have hne : head ≠ b := by
      rintro rfl
      simp at nodup
    refine ⟨pn, hpn, ?_⟩
    have taken := takeStudent_eq fuel hb held none
    simp only [removeTaAfter, ta_ok hpn, bind, Except.bind, hnext, ta_ok hb, if_pos hit, taken]
    generalize hg : (releaseServee h tn.currentStudent).setTa b
      (.live { tn with currentStudent := none }) = g
    have gp : g.tas head = .live pn := by
      rw [← hg, setTa_other _ hne, releaseServee_tas, hpn]
    have gb : g.tas b = .live { tn with currentStudent := none } := by rw [← hg]; exact setTa_same _
    have gb' : (g.setTa head (.live { pn with next := tn.next })).tas b =
        .live { tn with currentStudent := none } := by rw [setTa_other _ (Ne.symm hne), gb]
    simp only [ta_ok gp, hnext, ta_ok gb, freeTa_ok gb', unhook, hg]
  | cons c rest ih =>
    obtain ⟨fuel, rfl⟩ := exists_fuel enough
    obtain ⟨hc, next, hlink, hrest⟩ := chain
    obtain rfl := Option.some.inj hc
    obtain ⟨cn, hcn, _⟩ := others head (by simp)
    have hnext : cn.next = next := Option.some.inj ((taLink_live hcn).symm.trans hlink)
    -- the node after this one is still before `b`, so it has another name
    obtain ⟨d, rfl, hd⟩ : ∃ d, next = some d ∧ d ∈ rest ++ [p] := by
      cases rest with
      | nil => exact ⟨p, hrest.1, by simp⟩
      | cons d _ => exact ⟨d, hrest.1, by simp⟩
    obtain ⟨dn, hdn, hdne⟩ := others d (by simp at hd ⊢; tauto)
    obtain ⟨pn, hpn, hrun⟩ := ih fuel hrest
      (fun e he => others e (by simp at he ⊢; tauto)) (by simp at enough; omega)
    refine ⟨pn, hpn, ?_⟩
    simp only [removeTaAfter, ta_ok hcn, bind, Except.bind, hnext, ta_ok hdn, if_neg hdne]
    exact hrun

theorem named_node (rep : Represents h q) {u : Ta} (hu : u ∈ q.taList) (other : u.name ≠ name) :
    ∃ m, h.tas u.id = .live m ∧ m.name ≠ name := by
  obtain ⟨next, hn⟩ := rep.tas u hu
  exact ⟨_, hn, other⟩

theorem removeTa_absent (rep : Represents h q) (absent : ∀ u ∈ q.taList, u.name ≠ name)
    (enough : q.taList.length < fuel) : QueueHeap.removeTa name fuel h = .ok (1, h) := by
  unfold QueueHeap.removeTa
  have chain := rep.taChain
  cases hl : q.taList with
  | nil =>
    rw [hl] at chain
    have hp : h.taList = none := chain
    rw [hp]
  | cons u rest =>
    rw [hl, List.map_cons] at chain
    have hp := chain.1
    obtain ⟨next, hn⟩ := rep.tas u (by simp [hl])
    rw [hp] at chain ⊢
    have skip := removeTaAfter_skip name fuel chain ?_ (by simp [hl] at enough; simp; omega)
    · simp only [ta_ok hn, bind, Except.bind, if_neg (absent u (by simp [hl])), skip]
    · intro b hb
      obtain ⟨v, hv, rfl⟩ := List.mem_map.mp hb
      have listed : v ∈ q.taList := by simp [hl, hv]
      exact named_node rep listed (absent v listed)

/-- The TA at the head of the list is unlinked by moving the list pointer. -/
theorem removeTa_head (rep : Represents h q) (hq : q.taList = t :: after) (hname : t.name = name) :
    ∃ h', QueueHeap.removeTa name fuel h = .ok (0, h') ∧
      Represents h' { q with taList := after } ∧
      FreesExactly h h' q { q with taList := after } := by
  have ht : t ∈ q.taList := by simp [hq]
  obtain ⟨next, hn⟩ := rep.tas t ht
  have first : q.taList = [] ++ t :: after := hq
  have apart := tas_apart rep first
  have chain := rep.taChain
  rw [hq] at chain
  obtain ⟨hp, nx, hlink, hrest⟩ := chain
  obtain rfl : nx = next := Option.some.inj (hlink.symm.trans (taLink_live hn))
  have hn' : ({ h with taList := nx } : Heap).tas t.id =
      .live ⟨t.name, t.currentStudent.map Student.id, nx⟩ := hn
  have taken := takeStudent_eq fuel hn' (current_live rep ht) none
  refine ⟨((releaseServee { h with taList := nx } (t.currentStudent.map Student.id)).setTa t.id
    (.live ⟨t.name, none, nx⟩)).setTa t.id .freed, ?_,
    unlinkedTa rep first ?_ ?_ ?_ ?_ ?_⟩
  · simp only [QueueHeap.removeTa, hp, ta_ok hn, bind, Except.bind, if_pos hname, taken,
      freeTa_ok (setTa_same _)]
  · cases t.currentStudent <;> rfl
  · simp
  · simp only [setTa_taList, releaseServee_taList, List.nil_append] at hrest ⊢
    refine segment_congr (fun a ha => ?_) hrest
    obtain ⟨u, hu, rfl⟩ := List.mem_map.mp ha
    have hne := (apart u hu).2
    exact taLink_congr (by rw [setTa_other _ hne, setTa_other _ hne, releaseServee_tas])
  · intro u hu
    obtain ⟨listed, hne⟩ := apart u hu
    obtain ⟨nu, hnu⟩ := rep.tas u listed
    exact ⟨nu, by rw [setTa_other _ hne, setTa_other _ hne, releaseServee_tas]; exact hnu⟩
  · intro a
    rw [taLive_freed, taLive_set _ ⟨_, by rw [releaseServee_tas]; exact hn'⟩]
    simp [TaLive]

/-- Unhooking the TA behind `p` leaves the heap of the list without it. -/
theorem unhooked {l : List Ta} {p : Ta} {np next : Option Addr} (rep : Represents h q)
    (hq : q.taList = l ++ [p] ++ t :: after)
    (hp : h.tas p.id = .live ⟨p.name, p.currentStudent.map Student.id, np⟩)
    (hn : h.tas t.id = .live ⟨t.name, t.currentStudent.map Student.id, next⟩) {h' : Heap}
    (made : h' = unhook h p.id t.id ⟨p.name, p.currentStudent.map Student.id, np⟩
      ⟨t.name, t.currentStudent.map Student.id, next⟩) :
    Represents h' { q with taList := l ++ [p] ++ after } ∧
      FreesExactly h h' q { q with taList := l ++ [p] ++ after } := by
  have apart := tas_apart rep hq
  have hne : p.id ≠ t.id := (apart p (by simp)).2
  have chain := rep.taChain
  rw [hq] at chain
  have tas : ∀ a, a ≠ t.id → h'.tas a =
      if a = p.id then .live ⟨p.name, p.currentStudent.map Student.id, next⟩ else h.tas a := by
    intro a ha
    rw [made, unhook, setTa_other _ ha]
    split
    · rename_i same
      rw [same, setTa_same]
    · rename_i other
      rw [setTa_other _ other, setTa_other _ ha, releaseServee_tas]
  refine unlinkedTa rep hq ?_ ?_ ?_ ?_ ?_
  · rw [made]
    cases t.currentStudent <;> rfl
  · simp [made, unhook]
  · have short := Chain.unlink (l := l.map Ta.id) (a := p.id) (b := t.id) (r := after.map Ta.id)
      (by simpa using chain) (taLink_live hn)
    have list : h'.taList = h.taList := by simp [made, unhook]
    have ids : (l ++ [p] ++ after).map Ta.id = l.map Ta.id ++ p.id :: after.map Ta.id := by simp
    rw [ids, list]
    refine segment_congr (fun a ha => ?_) short
    rw [← ids] at ha
    obtain ⟨u, hu, rfl⟩ := List.mem_map.mp ha
    have here := tas u.id (apart u hu).2
    by_cases hup : u.id = p.id
    · rw [if_pos hup] at here
      rw [taLink_live here, hup, Function.update_self]
    · rw [if_neg hup] at here
      rw [taLink_congr here, Function.update_of_ne hup]
  · intro u hu
    obtain ⟨listed, hut⟩ := apart u hu
    obtain ⟨nu, hnu⟩ := rep.tas u listed
    rw [tas u.id hut]
    split
    · rename_i same
      rw [same, hp] at hnu
      have fields := TaNode.mk.inj (Cell.live.inj hnu)
      exact ⟨next, by rw [fields.1, fields.2.1]⟩
    · exact ⟨nu, hnu⟩
  · intro a
    by_cases ha : a = t.id
    · simp [made, unhook, TaLive, ha]
    · by_cases hap : a = p.id
      · subst hap
        simp [TaLive, tas p.id hne, hp, hne]
      · simp [TaLive, tas a ha, hap, ha]

/-- A TA further down is unhooked from its predecessor. -/
theorem removeTa_behind {l : List Ta} {p : Ta} (rep : Represents h q)
    (hq : q.taList = l ++ [p] ++ t :: after) (hname : t.name = name)
    (hb : ∀ u ∈ l ++ [p], u.name ≠ name) (enough : q.taList.length < fuel) :
    ∃ h', QueueHeap.removeTa name fuel h = .ok (0, h') ∧
      Represents h' { q with taList := l ++ [p] ++ after } ∧
      FreesExactly h h' q { q with taList := l ++ [p] ++ after } := by
  have ht : t ∈ q.taList := by simp [hq]
  obtain ⟨next, hn⟩ := rep.tas t ht
  have chain := rep.taChain
  rw [hq, List.map_append, List.map_append, List.append_assoc, List.map_cons, List.map_cons,
    List.map_nil, List.singleton_append] at chain
  -- the nodes up to the predecessor, of which the first is the head of the list
  have others : ∀ c ∈ l.map Ta.id ++ [p.id], ∃ m, h.tas c = .live m ∧ m.name ≠ name := by
    intro c hc
    have hm : c ∈ (l ++ [p]).map Ta.id := by simpa using hc
    obtain ⟨u, hu, rfl⟩ := List.mem_map.mp hm
    exact named_node rep (by rw [hq]; exact List.mem_append_left _ hu) (hb u hu)
  obtain ⟨head, hhead, hmem⟩ : ∃ head, h.taList = some head ∧ head ∈ l.map Ta.id ++ [p.id] := by
    cases hm : l.map Ta.id with
    | nil => rw [hm] at chain; exact ⟨p.id, chain.1, by simp⟩
    | cons a rest => rw [hm] at chain; exact ⟨a, chain.1, by simp⟩
  obtain ⟨first, hfirst, hfirstName⟩ := others head hmem
  obtain ⟨pn, hpn, hrun⟩ := removeTaAfter_found name fuel (hhead ▸ chain) others hn hname
    (current_live rep ht) (by simp [hq] at enough; simp; omega)
  obtain ⟨np, hp⟩ := rep.tas p (by simp [hq])
  obtain rfl : pn = ⟨p.name, p.currentStudent.map Student.id, np⟩ := by
    rw [hpn] at hp
    exact Cell.live.inj hp
  refine ⟨_, ?_, unhooked rep hq hp hn rfl⟩
  simp only [QueueHeap.removeTa, hhead, ta_ok hfirst, bind, Except.bind, if_neg hfirstName, hrun]

end RemoveTa

theorem removeTa_refines (rep : Represents h q) (name : CString) (enough : q.taList.length < fuel) :
    Refines h q (QueueHeap.removeTa name fuel h) (HelpQueue.removeTa name q) := by
  rcases removeTa_cases name q with ⟨absent, heq⟩ | ⟨before, t, after, hq, hname, hb, heq⟩
  · rw [heq, removeTa_absent rep absent enough]
    exact unchanged rep 1
  rw [heq]
  rcases List.eq_nil_or_concat' before with rfl | ⟨l, p, rfl⟩
  · exact removeTa_head rep hq hname
  · exact removeTa_behind rep hq hname hb enough

section NextOverall

variable {name : CString} {before after : List Ta} {t : Ta} {next : Option Addr}

/-- The lists after the TA `t` has taken the head of the queue. -/
def headTaken (q : Lists) (before after : List Ta) (t : Ta) : Lists :=
  ⟨q.stuList.tail, before ++ { t with currentStudent := q.stuList.head? } :: after⟩

/-- The heap in which the old student is freed and the TA points at the head of the queue. -/
def headServed (h : Heap) (t : Ta) (next : Option Addr) : Heap :=
  (releaseServee h (t.currentStudent.map Student.id)).setTa t.id (.live ⟨t.name, h.stuList, next⟩)

theorem stuList_head (rep : Represents h q) : h.stuList = q.stuList.head?.map Student.id := by
  have chain := rep.stuChain
  cases hs : q.stuList with
  | nil => rw [hs] at chain; exact chain
  | cons s rest => rw [hs] at chain; exact chain.1

/-- The entries that remain are not those freed. -/
theorem headServed_students (next : Option Addr) (rep : Represents h q)
    (hq : q.taList = before ++ t :: after) :
    ∀ s ∈ (headTaken q before after t).stuList ++ serving (headTaken q before after t).taList,
      (headServed h t next).students s.id = h.students s.id := by
  have perm := (nextOverall_students hq).map Student.id
  rw [List.map_append] at perm
  have split := List.nodup_append.mp (perm.nodup_iff.mpr rep.valid.students)
  intro s hs
  refine releaseServee_other fun hold => ?_
  rw [Option.toList_map] at hold
  exact split.2.2 s.id hold s.id (List.mem_map_of_mem hs) rfl

/-- `take_student` on the head of the queue unlinks it and alters nothing else there. -/
theorem takeStudent_chain (rep : Represents h q) (hq : q.taList = before ++ t :: after)
    (hn : h.tas t.id = .live ⟨t.name, t.currentStudent.map Student.id, next⟩) (enough : 0 < fuel) :
    ∃ h', QueueHeap.takeStudent t.id h.stuList fuel h = .ok h' ∧
      Chain (stuLink h') h'.stuList (q.stuList.tail.map Student.id) ∧
      absStudent h' = absStudent (headServed h t next) ∧ h'.tas = (headServed h t next).tas ∧
      h'.taList = h.taList := by
  have taken := takeStudent_eq fuel hn (current_live rep (by simp [hq])) h.stuList
  have head := stuList_head rep
  have same := headServed_students next rep hq
  rw [taken]
  cases hs : q.stuList with
  | nil =>
    have hp : h.stuList = none := by rw [head, hs]; rfl
    refine ⟨headServed h t next, by rw [headServed, hp], ?_, rfl, rfl, by simp [headServed]⟩
    simp [headServed, hp, Chain, Segment]
  | cons s rest =>
    have hp : h.stuList = some s.id := by rw [head, hs]; rfl
    have chain := rep.stuChain
    rw [hs] at chain
    have chain' : Chain (stuLink (headServed h t next)) (headServed h t next).stuList
        ([] ++ s.id :: rest.map Student.id) := by
      have start : (headServed h t next).stuList = h.stuList := by simp [headServed]
      rw [start, List.nil_append]
      refine segment_congr (fun a ha => stuLink_congr ?_) chain
      obtain ⟨u, hu, rfl⟩ : ∃ u ∈ s :: rest, u.id = a := List.mem_map.mp ha
      apply same u
      rcases List.mem_cons.mp hu with rfl | hu
      · simp [headTaken, hs]
      · simp [headTaken, hs, hu]
    obtain ⟨h', hroute, hchain, habs, htas, htaList⟩ := routeAround_chain fuel chain' enough
    refine ⟨h', ?_, hchain, habs, htas, by rw [htaList]; simp [headServed]⟩
    rw [← hroute, headServed, hp]

/-- The heap after the head of the queue has moved to the TA. -/
theorem takenNext (rep : Represents h q) (hq : q.taList = before ++ t :: after)
    (hn : h.tas t.id = .live ⟨t.name, t.currentStudent.map Student.id, next⟩)
    (valid : (headTaken q before after t).Valid) {h' : Heap}
    (chain : Chain (stuLink h') h'.stuList (q.stuList.tail.map Student.id))
    (students : absStudent h' = absStudent (headServed h t next))
    (tas : h'.tas = (headServed h t next).tas) (taList : h'.taList = h.taList) :
    Represents h' (headTaken q before after t) ∧
    FreesExactly h h' q (headTaken q before after t) := by
  have moved := nextOverall_students hq
  have perm := moved.map Student.id
  rw [List.map_append] at perm
  have elsewhere : ∀ a, a ≠ t.id → h'.tas a = h.tas a := fun a ha => by
    rw [tas, headServed, setTa_other _ ha, releaseServee_tas]
  have here : h'.tas t.id = .live ⟨t.name, h.stuList, next⟩ := by rw [tas, headServed, setTa_same]
  refine ⟨⟨chain, ?_, ?_, ?_, valid⟩, ?_, ?_⟩
  · have links : taLink h' = taLink h := by
      funext a
      by_cases ha : a = t.id
      · subst ha; rw [taLink_live here, taLink_live hn]
      · exact taLink_congr (elsewhere a ha)
    have old := rep.taChain
    rw [hq] at old
    rw [links, taList]
    simpa [headTaken] using old
  · intro s hs
    rw [students, absStudent_congr (headServed_students next rep hq s hs)]
    exact rep.students s (moved.subset (List.mem_append_right _ hs))
  · intro u hu
    have apart := tas_apart rep hq
    rcases List.mem_append.mp hu with hu | hu
    · obtain ⟨old, hne⟩ := apart u (List.mem_append_left _ hu)
      rw [elsewhere u.id hne]
      exact rep.tas u old
    rcases List.mem_cons.mp hu with rfl | hu
    · exact ⟨next, by rw [here, stuList_head rep]⟩
    · obtain ⟨old, hne⟩ := apart u (List.mem_append_right _ hu)
      rw [elsewhere u.id hne]
      exact rep.tas u old
  · refine frees_gone _ rep.valid.students perm.symm rep.student_live fun a => ?_
    rw [studentLive_of_abs students, ← Option.toList_map]
    exact releaseServee_live _ a
  · refine frees_gone [] rep.valid.tas (by simp [hq, headTaken]) rep.ta_live fun a => ?_
    by_cases ha : a = t.id
    · subst ha; simp [TaLive, here, hn]
    · simp [TaLive, elsewhere a ha]

theorem nextOverall_refines (rep : Represents h q) (name : CString)
    (enough : q.taList.length < fuel) :
    Refines h q (QueueHeap.nextOverall name fuel h) (HelpQueue.nextOverall name q) := by
  have scan := findTa_chain name rep.taChain rep.tas enough
  unfold QueueHeap.nextOverall
  rcases nextOverall_cases name q with ⟨absent, heq⟩ | ⟨before, t, after, hq, hname, hb, heq⟩
  · rw [heq, scan, findTa_eq_none.mpr absent]
    exact unchanged rep 1
  rw [heq, scan, findTa_first hq hname hb]
  obtain ⟨next, hn⟩ := rep.tas t (by simp [hq])
  obtain ⟨h', hrun, chain, students, tas, taList⟩ :=
    takeStudent_chain rep hq hn (Nat.zero_lt_of_lt enough)
  have valid := rep.valid.nextOverall name
  rw [heq] at valid
  refine ⟨h', ?_, takenNext rep hq hn valid chain students tas taList⟩
  simp only [Option.map_some, bind, Except.bind, hrun]

end NextOverall

section Abstraction

theorem map_filterMap_id {α : Type} {f : Addr → Option α} {id : α → Addr} {l : List Addr}
    (back : ∀ a ∈ l, ∃ x, f a = some x ∧ id x = a) : (l.filterMap f).map id = l := by
  induction l with
  | nil => rfl
  | cons a rest ih =>
    obtain ⟨x, hx, hid⟩ := back a List.mem_cons_self
    rw [List.filterMap_cons_some hx, List.map_cons, hid,
      ih fun b hb => back b (List.mem_cons_of_mem a hb)]

theorem filterMap_map_id {α : Type} {f : Addr → Option α} {id : α → Addr} {l : List α}
    (read : ∀ x ∈ l, f (id x) = some x) : (l.map id).filterMap f = l := by
  induction l with
  | nil => rfl
  | cons x rest ih =>
    rw [List.map_cons, List.filterMap_cons_some (read x List.mem_cons_self),
      ih fun y hy => read y (List.mem_cons_of_mem x hy)]

variable {ss ts : List Addr}

/-- The current students of the TAs `ts`, as addresses and as entries. -/
theorem serving_ids (live : ∀ t ∈ ts, ∃ n, h.tas t = .live n)
    (held : ∀ t ∈ ts, ∀ s, currentOf h t = some s → StudentLive h s) :
    (serving (ts.filterMap (absTa h))).map Student.id = ts.filterMap (currentOf h) := by
  induction ts with
  | nil => rfl
  | cons t rest ih =>
    obtain ⟨n, hn⟩ := live t List.mem_cons_self
    have here := held t List.mem_cons_self
    have tail := ih (fun u hu => live u (List.mem_cons_of_mem t hu))
      fun u hu => held u (List.mem_cons_of_mem t hu)
    have habs : absTa h t = some ⟨t, n.name, n.currentStudent.bind (absStudent h)⟩ := by
      simp [absTa, hn]
    have hcur : currentOf h t = n.currentStudent := by simp [currentOf, hn]
    rw [List.filterMap_cons_some habs, serving_cons, List.map_append, tail]
    cases hc : n.currentStudent with
    | none => rw [List.filterMap_cons_none (by rw [hcur, hc])]; simp
    | some s =>
      obtain ⟨e, he⟩ := student_live_iff.mp (here s (by rw [hcur, hc]))
      rw [List.filterMap_cons_some (by rw [hcur, hc])]
      simp [he, absStudent_id he]

theorem current_nodup (nodup : ts.Nodup)
    (unshared : ∀ t ∈ ts, ∀ u ∈ ts, ∀ s, currentOf h t = some s → currentOf h u = some s → t = u) :
    (ts.filterMap (currentOf h)).Nodup := by
  refine List.pairwise_filterMap.mpr (nodup.imp_of_mem ?_)
  intro t u ht hu hne s hs v hv heq
  exact hne (unshared t ht u hu s hs (heq ▸ hv))

theorem names_read (live : ∀ a ∈ ss, ∃ n, h.students a = .live n) :
    ((ss.filterMap (absStudent h)).map Student.name).map some = ss.map (studentName h) := by
  induction ss with
  | nil => rfl
  | cons a rest ih =>
    obtain ⟨n, hn⟩ := live a List.mem_cons_self
    have habs : absStudent h a = some (entry a n) := by simp [absStudent, hn]
    rw [List.filterMap_cons_some habs, List.map_cons, List.map_cons, List.map_cons,
      ih fun b hb => live b (List.mem_cons_of_mem a hb)]
    simp [studentName, hn, entry]

/-- A well-formed heap holds the lists that the abstraction reads from it. -/
theorem represents_of_wellFormed (wf : WellFormed h ss ts) :
    Represents h (abstraction h ss ts) ∧ (abstraction h ss ts).stuList.map Student.id = ss ∧
      (abstraction h ss ts).taList.map Ta.id = ts := by
  have stuLive : ∀ a ∈ ss, ∃ n, h.students a = .live n := fun a ha =>
    let ⟨_, hlink⟩ := wf.stuChain.readable ha
    let ⟨n, hn, _⟩ := student_of_link hlink
    ⟨n, hn⟩
  have taLive : ∀ a ∈ ts, ∃ n, h.tas a = .live n := fun a ha =>
    let ⟨_, hlink⟩ := wf.taChain.readable ha
    let ⟨n, hn, _⟩ := ta_of_link hlink
    ⟨n, hn⟩
  have stuIds : (abstraction h ss ts).stuList.map Student.id = ss :=
    map_filterMap_id fun a ha => by
      obtain ⟨n, hn⟩ := stuLive a ha
      exact ⟨entry a n, by simp [absStudent, hn], rfl⟩
  have taIds : (abstraction h ss ts).taList.map Ta.id = ts :=
    map_filterMap_id fun a ha => by
      obtain ⟨n, hn⟩ := taLive a ha
      exact ⟨⟨a, n.name, n.currentStudent.bind (absStudent h)⟩, by simp [absTa, hn], rfl⟩
  have servingIds : (serving (abstraction h ss ts).taList).map Student.id =
      ts.filterMap (currentOf h) := serving_ids taLive wf.held
  -- every entry was read from its own address
  have read : ∀ s ∈ (abstraction h ss ts).stuList ++ serving (abstraction h ss ts).taList,
      absStudent h s.id = some s := by
    intro s hs
    have from_heap : ∃ a, absStudent h a = some s := by
      rcases List.mem_append.mp hs with hs | hs
      · obtain ⟨a, _, ha⟩ := List.mem_filterMap.mp hs
        exact ⟨a, ha⟩
      · obtain ⟨t, ht, hcur⟩ := List.mem_filterMap.mp hs
        obtain ⟨a, ha, habs⟩ := List.mem_filterMap.mp ht
        obtain ⟨n, hn⟩ := taLive a ha
        simp only [absTa, hn, Option.some.injEq] at habs
        rw [← habs] at hcur
        obtain ⟨b, _, hb⟩ := Option.bind_eq_some_iff.mp hcur
        exact ⟨b, hb⟩
    obtain ⟨a, ha⟩ := from_heap
    rw [absStudent_id ha]
    exact ha
  refine ⟨⟨stuIds.symm ▸ wf.stuChain, taIds.symm ▸ wf.taChain, read, ?_, ?_, ?_, ?_⟩, stuIds, taIds⟩
  · intro t ht
    obtain ⟨a, ha, habs⟩ := List.mem_filterMap.mp ht
    obtain ⟨⟨name, current, next⟩, hn⟩ := taLive a ha
    simp only [absTa, hn, Option.some.injEq] at habs
    subst habs
    refine ⟨next, ?_⟩
    cases current with
    | none => simp [hn]
    | some s =>
      obtain ⟨e, he⟩ := student_live_iff.mp (wf.held a ha s (by simp [currentOf, hn]))
      simp [hn, he, absStudent_id he]
  · exact List.Nodup.of_map some (names_read stuLive ▸ wf.names)
  · rw [List.map_append, stuIds, servingIds]
    refine List.nodup_append.mpr ⟨wf.stuChain.nodup, current_nodup wf.taChain.nodup wf.unshared, ?_⟩
    intro a ha b hb heq
    obtain ⟨t, ht, hcur⟩ := List.mem_filterMap.mp hb
    exact wf.apart t ht a ha (heq ▸ hcur)
  · rw [taIds]; exact wf.taChain.nodup

/-- A heap that holds lists is well formed along their addresses, and they are its abstraction. -/
theorem wellFormed_of_represents (rep : Represents h q) :
    WellFormed h (q.stuList.map Student.id) (q.taList.map Ta.id) ∧
      abstraction h (q.stuList.map Student.id) (q.taList.map Ta.id) = q := by
  have current : ∀ t ∈ q.taList, currentOf h t.id = t.currentStudent.map Student.id := by
    intro t ht
    obtain ⟨next, hn⟩ := rep.tas t ht
    simp [currentOf, hn]
  have served : ∀ t ∈ q.taList, ∀ s, t.currentStudent = some s → s ∈ serving q.taList :=
    fun t ht s hs => List.mem_filterMap.mpr ⟨t, ht, hs⟩
  have split := rep.valid.students
  rw [List.map_append] at split
  have apart := List.nodup_append.mp split
  refine ⟨⟨⟨rep.stuChain, rep.taChain, ?_, ?_, ?_⟩, ?_⟩, ?_⟩
  · have names : (q.stuList.map Student.id).map (studentName h) =
        (q.stuList.map Student.name).map some := by
      rw [List.map_map, List.map_map]
      refine List.map_congr_left fun s hs => ?_
      obtain ⟨n, hn, hentry⟩ := absStudent_some (rep.students s (List.mem_append_left _ hs))
      have hname : n.name = s.name := congrArg Student.name hentry
      simp [studentName, hn, hname]
    rw [names]
    exact rep.valid.names.map fun _ _ => Option.some.inj
  · intro a ha b hb heq
    obtain ⟨t, ht, rfl⟩ := List.mem_map.mp ha
    rw [current t ht] at heq
    obtain ⟨s, hs, rfl⟩ := Option.map_eq_some_iff.mp heq
    exact apart.2.2 s.id hb s.id (List.mem_map_of_mem (served t ht s hs)) rfl
  · intro a ha b hb x hx hy
    obtain ⟨t, ht, rfl⟩ := List.mem_map.mp ha
    obtain ⟨u, hu, rfl⟩ := List.mem_map.mp hb
    rw [current t ht] at hx
    rw [current u hu] at hy
    obtain ⟨s, hs, rfl⟩ := Option.map_eq_some_iff.mp hx
    obtain ⟨v, hv, hid⟩ := Option.map_eq_some_iff.mp hy
    rw [server_unique apart.2.1 ht hu hs hv hid.symm]
  · intro a ha x hx
    obtain ⟨t, ht, rfl⟩ := List.mem_map.mp ha
    rw [current t ht] at hx
    obtain ⟨s, hs, rfl⟩ := Option.map_eq_some_iff.mp hx
    exact rep.student_live s.id (List.mem_map_of_mem (List.mem_append_right _ (served t ht s hs)))
  · have stu : (q.stuList.map Student.id).filterMap (absStudent h) = q.stuList :=
      filterMap_map_id fun s hs => rep.students s (List.mem_append_left _ hs)
    have tas : (q.taList.map Ta.id).filterMap (absTa h) = q.taList := by
      refine filterMap_map_id fun t ht => ?_
      obtain ⟨next, hn⟩ := rep.tas t ht
      cases hc : t.currentStudent with
      | none => cases t; simp_all [absTa]
      | some s =>
        have hs := rep.students s (List.mem_append_right _ (served t ht s hc))
        cases t; simp_all [absTa]
    rw [abstraction, stu, tas]

end Abstraction

theorem call_refines (rep : Represents h q) (courses : List Course) (call : Call) {new : Addr}
    (freshStudent : ¬ StudentLive h new) (freshTa : ¬ TaLive h new)
    (enough : q.stuList.length + q.taList.length < fuel) :
    Refines h q (call.onHeap courses new fuel h) (call.onLists courses new q) := by
  cases call with
  | addStudent name code => exact addStudent_refines rep courses freshStudent name code (by omega)
  | giveUpWaiting name => exact giveUpWaiting_refines rep name (by omega)
  | addTa name => exact addTa_refines rep new freshTa name
  | removeTa name => exact removeTa_refines rep name (by omega)
  | nextOverall name => exact nextOverall_refines rep name (by omega)

/-- Each call on a well-formed heap ends without a fault in a well-formed heap, computes on
the abstraction what the list operation computes, and frees exactly what leaves the lists. -/
theorem heapRefinesQueue (courses : List Course) (call : Call) (h : Heap) (ss ts : List Addr)
    (wf : WellFormed h ss ts) (new : Addr) (freshStudent : ¬ StudentLive h new)
    (freshTa : ¬ TaLive h new) (fuel : Nat) (enough : ss.length + ts.length < fuel) :
    ∃ h' ss' ts', call.onHeap courses new fuel h =
        .ok ((call.onLists courses new (abstraction h ss ts)).1, h') ∧
      WellFormed h' ss' ts' ∧
      abstraction h' ss' ts' = (call.onLists courses new (abstraction h ss ts)).2 ∧
      FreesExactly h h' (abstraction h ss ts) (abstraction h' ss' ts') := by
  obtain ⟨rep, stuIds, taIds⟩ := represents_of_wellFormed wf
  have size :
      (abstraction h ss ts).stuList.length + (abstraction h ss ts).taList.length < fuel := by
    rw [← stuIds, ← taIds, List.length_map, List.length_map] at enough
    exact enough
  obtain ⟨h', hrun, rep', frees⟩ := call_refines rep courses call freshStudent freshTa size
  obtain ⟨wf', habs⟩ := wellFormed_of_represents rep'
  exact ⟨h', _, _, hrun, wf', habs, habs.symm ▸ frees⟩

/-- One TA, waiting for a student, and one student in the queue. -/
def smallHeap : Heap where
  students := fun a => if a = 3 then .live ⟨text "Ann", some ⟨text "CSC209"⟩, none⟩ else .unused
  tas := fun a => if a = 4 then .live ⟨text "Tom", none, none⟩ else .unused
  stuList := some 3
  taList := some 4

theorem smallHeap_wellFormed : WellFormed smallHeap [3] [4] where
  stuChain := ⟨rfl, none, rfl, rfl⟩
  taChain := ⟨rfl, none, rfl, rfl⟩
  names := by simp
  apart := by simp [currentOf, smallHeap]
  unshared := by simp
  held := by simp [currentOf, smallHeap]

theorem heapRefinesQueue_next : ∃ h' ss' ts',
    (Call.nextOverall (text "Tom")).onHeap [] 7 9 smallHeap =
      .ok (((Call.nextOverall (text "Tom")).onLists [] 7 (abstraction smallHeap [3] [4])).1, h') ∧
    WellFormed h' ss' ts' ∧
    abstraction h' ss' ts' =
      ((Call.nextOverall (text "Tom")).onLists [] 7 (abstraction smallHeap [3] [4])).2 ∧
    FreesExactly smallHeap h' (abstraction smallHeap [3] [4]) (abstraction h' ss' ts') :=
  heapRefinesQueue [] (.nextOverall (text "Tom")) smallHeap [3] [4] smallHeap_wellFormed 7
    (by simp [StudentLive, smallHeap]) (by simp [TaLive, smallHeap]) 9 (by decide)

/-- A TA whose current student has already been freed. -/
def staleHeap : Heap where
  students := fun a => if a = 3 then .freed else .unused
  tas := fun a => if a = 4 then .live ⟨text "Tom", some 3, none⟩ else .unused
  stuList := none
  taList := some 4

/-- Separation alone does not keep the calls from freeing a node twice. -/
theorem separated_not_enough : ¬ ∀ (h : Heap) (ss ts : List Addr), Separated h ss ts →
    ∀ (call : Call) (new : Addr), ¬ StudentLive h new → ¬ TaLive h new →
      ∃ fuel result, call.onHeap [] new fuel h = .ok result := by
  intro always
  have separated : Separated staleHeap [] [4] := by
    refine ⟨rfl, ⟨rfl, none, rfl, rfl⟩, by simp, by simp, by simp⟩
  obtain ⟨fuel, result, hrun⟩ := always staleHeap [] [4] separated (.removeTa (text "Tom")) 9
    (by simp [StudentLive, staleHeap]) (by simp [TaLive, staleHeap])
  have fault : (Call.removeTa (text "Tom")).onHeap [] 9 fuel staleHeap = .error .deadPointer := rfl
  rw [fault] at hrun
  cases hrun

end QueueRefinement
