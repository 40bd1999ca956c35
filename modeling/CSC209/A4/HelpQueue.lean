import CSC209.CStrings
import Mathlib.Data.List.Nodup
import Mathlib.Data.List.Perm.Basic

/-!
# The help-centre queue of A4

The operations of `A4/hcq.c` on the two global lists, read as lists: waiting
students in order of arrival, TAs with the newest first. Each node carries a
number that stands for the node's identity, so that two entries of one name
stay distinguishable. The pointer version of the same operations, and the
proof that it computes these, are in `QueueHeap` and `QueueRefinement`.
-/

namespace HelpQueue

open CStrings

structure Course where
  code : CString
  deriving DecidableEq, Repr

structure Student where
  id : Nat
  name : CString
  course : Course
  deriving DecidableEq, Repr

structure Ta where
  id : Nat
  name : CString
  currentStudent : Option Student
  deriving DecidableEq, Repr

/-- The global lists `stu_list` and `ta_list`. -/
structure Lists where
  stuList : List Student
  taList : List Ta
  deriving DecidableEq, Repr

def findStudent (stuList : List Student) (name : CString) : Option Student :=
  stuList.find? fun s => s.name = name

def findTa (taList : List Ta) (name : CString) : Option Ta :=
  taList.find? fun t => t.name = name

def findCourse (courses : List Course) (code : CString) : Option Course :=
  courses.find? fun c => c.code = code

/-- Append a new node, unless the name is waiting (1) or the course is unknown (2). -/
def addStudent (courses : List Course) (id : Nat) (name code : CString) (q : Lists) : Nat × Lists :=
  match findStudent q.stuList name with
  | some _ => (1, q)
  | none =>
    match findCourse courses code with
    | none => (2, q)
    | some course => (0, { q with stuList := q.stuList ++ [⟨id, name, course⟩] })

def giveUpWaiting (name : CString) (q : Lists) : Nat × Lists :=
  match findStudent q.stuList name with
  | none => (1, q)
  | some _ => (0, { q with stuList := q.stuList.eraseP fun s => s.name = name })

def addTa (id : Nat) (name : CString) (q : Lists) : Lists :=
  { q with taList := ⟨id, name, none⟩ :: q.taList }

/-- The first TA of that name leaves, together with the student being served. -/
def removeTa (name : CString) (q : Lists) : Nat × Lists :=
  match findTa q.taList name with
  | none => (1, q)
  | some _ => (0, { q with taList := q.taList.eraseP fun t => t.name = name })

/-- `take_student` on the first TA of that name. -/
def takeStudent (name : CString) (toServe : Option Student) : List Ta → List Ta
  | [] => []
  | t :: rest =>
    if t.name = name then { t with currentStudent := toServe } :: rest
    else t :: takeStudent name toServe rest

def nextOverall (name : CString) (q : Lists) : Nat × Lists :=
  match findTa q.taList name with
  | none => (1, q)
  | some _ => (0, ⟨q.stuList.tail, takeStudent name q.stuList.head? q.taList⟩)

/-- The students that some TA is serving, in the order of the TAs. -/
def serving (taList : List Ta) : List Student :=
  taList.filterMap Ta.currentStudent

/-- Waiting names are distinct, no student node is in two places, no TA node occurs twice. -/
structure Lists.Valid (q : Lists) : Prop where
  names : (q.stuList.map Student.name).Nodup
  students : ((q.stuList ++ serving q.taList).map Student.id).Nodup
  tas : (q.taList.map Ta.id).Nodup

section Shape

variable {courses : List Course} {q : Lists} {name code : CString}

theorem findStudent_eq_none {stuList : List Student} :
    findStudent stuList name = none ↔ ∀ s ∈ stuList, s.name ≠ name := by
  simp [findStudent]

theorem findTa_eq_none {taList : List Ta} :
    findTa taList name = none ↔ ∀ t ∈ taList, t.name ≠ name := by
  simp [findTa]

theorem findCourse_code {course : Course} (h : findCourse courses code = some course) :
    course ∈ courses ∧ course.code = code :=
  ⟨List.mem_of_find?_eq_some h, by simpa using List.find?_some h⟩

/-- The first TA of a name, with the TAs before it, which have other names. -/
theorem findTa_split {taList : List Ta} {t : Ta} (h : findTa taList name = some t) :
    ∃ before after, taList = before ++ t :: after ∧ t.name = name ∧
      ∀ b ∈ before, b.name ≠ name := by
  obtain ⟨hn, before, after, heq, hb⟩ := List.find?_eq_some_iff_append.mp h
  exact ⟨before, after, heq, by simpa using hn, by simpa using hb⟩

theorem findTa_first {taList before after : List Ta} {t : Ta}
    (split : taList = before ++ t :: after)
    (here : t.name = name) (first : ∀ b ∈ before, b.name ≠ name) : findTa taList name = some t := by
  rw [findTa, List.find?_eq_some_iff_append]
  exact ⟨by simpa using here, before, after, split, by simpa using first⟩

theorem findStudent_split {stuList : List Student} {s : Student}
    (h : findStudent stuList name = some s) :
    ∃ before after, stuList = before ++ s :: after ∧ s.name = name ∧
      ∀ b ∈ before, b.name ≠ name := by
  obtain ⟨hn, before, after, heq, hb⟩ := List.find?_eq_some_iff_append.mp h
  exact ⟨before, after, heq, by simpa using hn, by simpa using hb⟩

theorem eraseP_student {before after : List Student} {s : Student} (hs : s.name = name)
    (hb : ∀ b ∈ before, b.name ≠ name) :
    (before ++ s :: after).eraseP (fun s => s.name = name) = before ++ after := by
  rw [List.eraseP_append_right _ (by simpa using hb), List.eraseP_cons_of_pos (by simpa using hs)]

theorem eraseP_ta {before after : List Ta} {t : Ta} (ht : t.name = name)
    (hb : ∀ b ∈ before, b.name ≠ name) :
    (before ++ t :: after).eraseP (fun t => t.name = name) = before ++ after := by
  rw [List.eraseP_append_right _ (by simpa using hb), List.eraseP_cons_of_pos (by simpa using ht)]

theorem takeStudent_append {before after : List Ta} {t : Ta} (ht : t.name = name)
    (hb : ∀ b ∈ before, b.name ≠ name) (toServe : Option Student) :
    takeStudent name toServe (before ++ t :: after) =
      before ++ { t with currentStudent := toServe } :: after := by
  induction before with
  | nil => simp [takeStudent, ht]
  | cons b rest ih =>
    have hne : b.name ≠ name := hb b List.mem_cons_self
    simp only [List.cons_append, takeStudent, if_neg hne, List.cons.injEq, true_and]
    exact ih fun c hc => hb c (List.mem_cons_of_mem b hc)

/-- What `add_student` can do: refuse a waiting name, refuse a course, or append. -/
theorem addStudent_cases (courses : List Course) (id : Nat) (name code : CString) (q : Lists) :
    ((∃ s ∈ q.stuList, s.name = name) ∧ addStudent courses id name code q = (1, q)) ∨
    ((∀ s ∈ q.stuList, s.name ≠ name) ∧ findCourse courses code = none ∧
      addStudent courses id name code q = (2, q)) ∨
    (∃ course, (∀ s ∈ q.stuList, s.name ≠ name) ∧ findCourse courses code = some course ∧
      addStudent courses id name code q =
        (0, { q with stuList := q.stuList ++ [⟨id, name, course⟩] })) := by
  cases hs : findStudent q.stuList name with
  | some s =>
    obtain ⟨before, after, heq, hn, _⟩ := findStudent_split hs
    exact Or.inl ⟨⟨s, by simp [heq], hn⟩, by simp [addStudent, hs]⟩
  | none =>
    have absent := findStudent_eq_none.mp hs
    cases hc : findCourse courses code with
    | none => exact Or.inr (Or.inl ⟨absent, rfl, by simp [addStudent, hs, hc]⟩)
    | some course => exact Or.inr (Or.inr ⟨course, absent, rfl, by simp [addStudent, hs, hc]⟩)

theorem addStudent_taList (courses : List Course) (id : Nat) (name code : CString) (q : Lists) :
    (addStudent courses id name code q).2.taList = q.taList := by
  rcases addStudent_cases courses id name code q with ⟨_, heq⟩ | ⟨_, _, heq⟩ | ⟨_, _, _, heq⟩
  · rw [heq]
  · rw [heq]
  · rw [heq]

/-- What `give_up_waiting` can do: nothing, or unlink the first entry of that name. -/
theorem giveUpWaiting_cases (name : CString) (q : Lists) :
    ((∀ s ∈ q.stuList, s.name ≠ name) ∧ giveUpWaiting name q = (1, q)) ∨
    (∃ before s after, q.stuList = before ++ s :: after ∧ s.name = name ∧
      (∀ b ∈ before, b.name ≠ name) ∧
      giveUpWaiting name q = (0, { q with stuList := before ++ after })) := by
  cases hs : findStudent q.stuList name with
  | none => exact Or.inl ⟨findStudent_eq_none.mp hs, by simp [giveUpWaiting, hs]⟩
  | some s =>
    obtain ⟨before, after, heq, hn, hb⟩ := findStudent_split hs
    refine Or.inr ⟨before, s, after, heq, hn, hb, ?_⟩
    simp only [giveUpWaiting, hs]
    rw [heq, eraseP_student hn hb]

/-- What `remove_ta` can do: nothing, or unlink the first TA of that name. -/
theorem removeTa_cases (name : CString) (q : Lists) :
    ((∀ t ∈ q.taList, t.name ≠ name) ∧ removeTa name q = (1, q)) ∨
    (∃ before t after, q.taList = before ++ t :: after ∧ t.name = name ∧
      (∀ b ∈ before, b.name ≠ name) ∧
      removeTa name q = (0, { q with taList := before ++ after })) := by
  cases ht : findTa q.taList name with
  | none => exact Or.inl ⟨findTa_eq_none.mp ht, by simp [removeTa, ht]⟩
  | some t =>
    obtain ⟨before, after, heq, hn, hb⟩ := findTa_split ht
    refine Or.inr ⟨before, t, after, heq, hn, hb, ?_⟩
    simp only [removeTa, ht]
    rw [heq, eraseP_ta hn hb]

/-- What `next_overall` can do: nothing, or hand the head of the queue to that TA. -/
theorem nextOverall_cases (name : CString) (q : Lists) :
    ((∀ t ∈ q.taList, t.name ≠ name) ∧ nextOverall name q = (1, q)) ∨
    (∃ before t after, q.taList = before ++ t :: after ∧ t.name = name ∧
      (∀ b ∈ before, b.name ≠ name) ∧
      nextOverall name q = (0, ⟨q.stuList.tail,
        before ++ { t with currentStudent := q.stuList.head? } :: after⟩)) := by
  cases ht : findTa q.taList name with
  | none => exact Or.inl ⟨findTa_eq_none.mp ht, by simp [nextOverall, ht]⟩
  | some t =>
    obtain ⟨before, after, heq, hn, hb⟩ := findTa_split ht
    refine Or.inr ⟨before, t, after, heq, hn, hb, ?_⟩
    simp only [nextOverall, ht]
    rw [heq, takeStudent_append hn hb]

theorem nextOverall_names (name : CString) (q : Lists) :
    (nextOverall name q).2.taList.map Ta.name = q.taList.map Ta.name := by
  rcases nextOverall_cases name q with ⟨_, heq⟩ | ⟨before, t, after, hq, _, _, heq⟩
  · rw [heq]
  · simp [heq, hq]

theorem nextOverall_stuList (name : CString) (q : Lists) (h : name ∈ q.taList.map Ta.name) :
    (nextOverall name q).2.stuList = q.stuList.tail := by
  obtain ⟨t, ht, hn⟩ := List.mem_map.mp h
  rcases nextOverall_cases name q with ⟨absent, _⟩ | ⟨before, t, after, _, _, _, heq⟩
  · exact absurd hn (absent t ht)
  · simp [heq]

theorem removeTa_names (name : CString) (q : Lists) :
    (removeTa name q).2.taList.map Ta.name = (q.taList.map Ta.name).erase name := by
  rcases removeTa_cases name q with ⟨absent, heq⟩ | ⟨before, t, after, hq, hn, hb, heq⟩
  · rw [heq, List.erase_of_not_mem]
    simpa using absent
  · have first : name ∉ before.map Ta.name := by simpa using hb
    rw [heq, hq, List.map_append, List.map_append, List.map_cons, hn,
      List.erase_append_right _ first, List.erase_cons_head]

/-- With distinct names, giving up takes out the entry of that name and no other. -/
theorem mem_giveUpWaiting (name : CString) {q : Lists} (names : (q.stuList.map Student.name).Nodup)
    (x : Student) : x ∈ (giveUpWaiting name q).2.stuList ↔ x ∈ q.stuList ∧ x.name ≠ name := by
  rcases giveUpWaiting_cases name q with ⟨absent, heq⟩ | ⟨before, s, after, hq, hn, hb, heq⟩
  · rw [heq]
    exact ⟨fun hx => ⟨hx, absent x hx⟩, And.left⟩
  · rw [hq, List.map_append, List.map_cons] at names
    have later := (List.nodup_cons.mp (List.nodup_append.mp names).2.1).1
    have ha : ∀ u ∈ after, u.name ≠ name := fun u hu heq =>
      later (hn ▸ heq ▸ List.mem_map_of_mem hu)
    rw [heq, hq]
    simp only [List.mem_append, List.mem_cons]
    constructor
    · rintro (hx | hx)
      · exact ⟨Or.inl hx, hb x hx⟩
      · exact ⟨Or.inr (Or.inr hx), ha x hx⟩
    · rintro ⟨hx | rfl | hx, hne⟩
      · exact Or.inl hx
      · exact absurd hn hne
      · exact Or.inr hx

end Shape

section Validity

variable {courses : List Course} {q : Lists}

@[simp] theorem serving_append (a b : List Ta) : serving (a ++ b) = serving a ++ serving b := by
  simp [serving]

@[simp] theorem serving_cons (t : Ta) (rest : List Ta) :
    serving (t :: rest) = t.currentStudent.toList ++ serving rest := by
  cases h : t.currentStudent <;> simp [serving, h]

/-- Two TAs that serve the same student are the same TA. -/
theorem server_unique {taList : List Ta} (nodup : ((serving taList).map Student.id).Nodup)
    {t u : Ta} (ht : t ∈ taList) (hu : u ∈ taList) {s v : Student}
    (hs : t.currentStudent = some s) (hv : u.currentStudent = some v) (same : s.id = v.id) :
    t = u := by
  obtain ⟨b, a, rfl⟩ := List.append_of_mem ht
  simp only [serving_append, serving_cons, hs, Option.toList_some, List.map_append,
    List.map_cons, List.map_nil] at nodup
  have elsewhere : ∀ l : List Ta, u ∈ l → s.id ∈ (serving l).map Student.id := fun l hl =>
    same ▸ List.mem_map_of_mem (List.mem_filterMap.mpr ⟨u, hl, hv⟩)
  have hsplit := List.nodup_append.mp nodup
  rcases List.mem_append.mp hu with hb | ha
  · exact absurd rfl (hsplit.2.2 s.id (elsewhere b hb) s.id (by simp))
  rcases List.mem_cons.mp ha with rfl | ha
  · rfl
  · exact absurd (elsewhere a ha) (List.nodup_cons.mp hsplit.2.1).1

theorem Lists.Valid.addStudent (h : q.Valid) (id : Nat) (name code : CString)
    (fresh : ∀ s ∈ q.stuList ++ serving q.taList, s.id ≠ id) :
    (addStudent courses id name code q).2.Valid := by
  rcases addStudent_cases courses id name code q with ⟨_, heq⟩ | ⟨_, _, heq⟩ | ⟨c, absent, _, heq⟩
  · exact heq ▸ h
  · exact heq ▸ h
  rw [heq]
  refine ⟨?_, ?_, h.tas⟩
  · simp only [List.map_append, List.map_cons, List.map_nil]
    apply List.Nodup.append h.names (List.nodup_singleton _)
    simpa [List.disjoint_singleton] using absent
  · have moved : (q.stuList ++ [(⟨id, name, c⟩ : Student)] ++ serving q.taList).Perm
        (⟨id, name, c⟩ :: (q.stuList ++ serving q.taList)) := by
      simpa only [List.append_assoc, List.cons_append, List.nil_append] using List.perm_middle
    apply ((moved.map Student.id).nodup_iff).mpr
    simp only [List.map_cons, List.nodup_cons]
    refine ⟨?_, h.students⟩
    rintro hm
    obtain ⟨s, hs, hid⟩ := List.mem_map.mp hm
    exact fresh s hs hid

theorem Lists.Valid.sublist {q r : Lists} (h : q.Valid) (hs : r.stuList.Sublist q.stuList)
    (ht : r.taList.Sublist q.taList) : r.Valid where
  names := (hs.map _).nodup h.names
  students := ((hs.append (ht.filterMap _)).map _).nodup h.students
  tas := (ht.map _).nodup h.tas

theorem Lists.Valid.giveUpWaiting (h : q.Valid) (name : CString) :
    (giveUpWaiting name q).2.Valid := by
  rcases giveUpWaiting_cases name q with ⟨_, heq⟩ | ⟨before, s, after, hq, _, _, heq⟩
  · exact heq ▸ h
  · rw [heq]
    exact h.sublist (by simp [hq]) (List.Sublist.refl _)

theorem Lists.Valid.addTa (h : q.Valid) (id : Nat) (name : CString)
    (fresh : ∀ t ∈ q.taList, t.id ≠ id) : (addTa id name q).Valid := by
  refine ⟨h.names, ?_, ?_⟩
  · simpa [HelpQueue.addTa] using h.students
  · simp only [HelpQueue.addTa, List.map_cons, List.nodup_cons]
    refine ⟨?_, h.tas⟩
    intro hm
    obtain ⟨t, ht, hid⟩ := List.mem_map.mp hm
    exact fresh t ht hid

theorem Lists.Valid.removeTa (h : q.Valid) (name : CString) : (removeTa name q).2.Valid := by
  rcases removeTa_cases name q with ⟨_, heq⟩ | ⟨before, t, after, hq, _, _, heq⟩
  · exact heq ▸ h
  · rw [heq]
    exact h.sublist (List.Sublist.refl _) (by simp [hq])

/-- Handing over the head only moves it from the queue into the place of the old student. -/
theorem nextOverall_students {before after : List Ta} {t : Ta}
    (hq : q.taList = before ++ t :: after) :
    (t.currentStudent.toList ++ (q.stuList.tail ++ serving (before ++
        { t with currentStudent := q.stuList.head? } :: after))).Perm
      (q.stuList ++ serving q.taList) := by
  rw [hq]
  cases q.stuList with
  | nil =>
    simp only [serving_append, serving_cons, List.tail_nil, List.head?_nil, Option.toList_none,
      List.nil_append]
    exact List.perm_append_comm_assoc _ _ _
  | cons s rest =>
    simp only [serving_append, serving_cons, List.tail_cons, List.head?_cons,
      Option.toList_some, List.cons_append, List.nil_append]
    generalize t.currentStudent.toList = old
    generalize serving before = left
    generalize serving after = right
    have h1 :
        (old ++ (rest ++ (left ++ s :: right))).Perm (s :: (old ++ (rest ++ (left ++ right)))) := by
      simpa only [List.append_assoc] using
        @List.perm_middle _ s (old ++ (rest ++ left)) right
    have h2 : (old ++ (rest ++ (left ++ right))).Perm (rest ++ (left ++ (old ++ right))) := by
      refine (List.perm_append_comm_assoc _ _ _).trans (List.Perm.append_left _ ?_)
      exact List.perm_append_comm_assoc _ _ _
    exact h1.trans (h2.cons s)

theorem Lists.Valid.nextOverall (h : q.Valid) (name : CString) :
    (nextOverall name q).2.Valid := by
  rcases nextOverall_cases name q with ⟨_, heq⟩ | ⟨before, t, after, hq, _, _, heq⟩
  · exact heq ▸ h
  rw [heq]
  refine ⟨?_, ?_, ?_⟩
  · exact ((List.tail_sublist _).map _).nodup h.names
  · have moved := ((nextOverall_students hq).map Student.id).nodup_iff.mpr h.students
    rw [List.map_append] at moved
    exact moved.of_append_right
  · have h0 := h.tas
    rw [hq] at h0
    simpa using h0

end Validity

/-- The global lists together with the numbers of the nodes made so far. Students are
numbered by their successful `add_student` call and TAs by their `add_ta` call. -/
structure Queue extends Lists where
  nextStudent : Nat
  nextTa : Nat
  valid : toLists.Valid
  students_old : ∀ s ∈ stuList ++ serving taList, s.id < nextStudent
  tas_old : ∀ t ∈ taList, t.id < nextTa

namespace Queue

/-- No TA serves a student who is waiting. -/
theorem head_not_served (q : Queue) {s : Student} {rest : List Student} {t : Ta}
    (hq : q.stuList = s :: rest) (ht : t ∈ q.taList) : t.currentStudent ≠ some s := by
  intro serves
  have nodup := q.valid.students
  rw [hq, List.cons_append, List.map_cons] at nodup
  apply (List.nodup_cons.mp nodup).1
  apply List.mem_map_of_mem
  exact List.mem_append_right _ (List.mem_filterMap.mpr ⟨t, ht, serves⟩)

def empty : Queue where
  stuList := []
  taList := []
  nextStudent := 0
  nextTa := 0
  valid := ⟨by simp, by simp [serving], by simp⟩
  students_old := by simp [serving]
  tas_old := by simp

variable (q : Queue)

theorem addStudent_old (courses : List Course) (name code : CString) :
    let r := HelpQueue.addStudent courses q.nextStudent name code q.toLists
    ∀ s ∈ r.2.stuList ++ serving r.2.taList,
      s.id < if r.1 = 0 then q.nextStudent + 1 else q.nextStudent := by
  intro r s hs
  rcases addStudent_cases courses q.nextStudent name code q.toLists with
    ⟨_, heq⟩ | ⟨_, _, heq⟩ | ⟨c, _, _, heq⟩
  · have hr : r = (1, q.toLists) := heq
    simpa [hr] using q.students_old s (by simpa [hr] using hs)
  · have hr : r = (2, q.toLists) := heq
    simpa [hr] using q.students_old s (by simpa [hr] using hs)
  · have hr : r = (0, { q.toLists with
        stuList := q.stuList ++ [⟨q.nextStudent, name, c⟩] }) := heq
    simp only [hr, List.append_assoc, List.cons_append, List.nil_append, List.mem_append,
      List.mem_cons, if_true] at hs ⊢
    rcases hs with hs | rfl | hs
    · have := q.students_old s (by simp [hs]); omega
    · simp
    · have := q.students_old s (by simp [hs]); omega

def addStudent (courses : List Course) (name code : CString) : Nat × Queue :=
  let r := HelpQueue.addStudent courses q.nextStudent name code q.toLists
  (r.1, { r.2 with
    nextStudent := if r.1 = 0 then q.nextStudent + 1 else q.nextStudent
    nextTa := q.nextTa
    valid :=
      q.valid.addStudent q.nextStudent name code fun s hs => Nat.ne_of_lt (q.students_old s hs)
    students_old := q.addStudent_old courses name code
    tas_old := by
      intro t ht
      exact q.tas_old t (addStudent_taList courses q.nextStudent name code q.toLists ▸ ht) })

theorem sublist_old {r : Lists} (hs : r.stuList.Sublist q.stuList)
    (ht : r.taList.Sublist q.taList) : ∀ s ∈ r.stuList ++ serving r.taList, s.id < q.nextStudent :=
  fun s hm => q.students_old s ((hs.append (ht.filterMap _)).subset hm)

theorem giveUpWaiting_sublist (name : CString) (q : Lists) :
    (HelpQueue.giveUpWaiting name q).2.stuList.Sublist q.stuList ∧
      (HelpQueue.giveUpWaiting name q).2.taList = q.taList := by
  rcases giveUpWaiting_cases name q with ⟨_, heq⟩ | ⟨before, s, after, hq, _, _, heq⟩
  · rw [heq]; exact ⟨List.Sublist.refl _, rfl⟩
  · rw [heq]; exact ⟨by simp [hq], rfl⟩

theorem removeTa_sublist (name : CString) (q : Lists) :
    (HelpQueue.removeTa name q).2.stuList = q.stuList ∧
      (HelpQueue.removeTa name q).2.taList.Sublist q.taList := by
  rcases removeTa_cases name q with ⟨_, heq⟩ | ⟨before, t, after, hq, _, _, heq⟩
  · rw [heq]; exact ⟨rfl, List.Sublist.refl _⟩
  · rw [heq]; exact ⟨rfl, by simp [hq]⟩

def giveUpWaiting (name : CString) : Nat × Queue :=
  let r := HelpQueue.giveUpWaiting name q.toLists
  have same := giveUpWaiting_sublist name q.toLists
  (r.1, { r.2 with
    nextStudent := q.nextStudent
    nextTa := q.nextTa
    valid := q.valid.giveUpWaiting name
    students_old := q.sublist_old same.1 (same.2 ▸ List.Sublist.refl _)
    tas_old := fun t ht => q.tas_old t (same.2 ▸ ht) })

def addTa (name : CString) : Queue where
  toLists := HelpQueue.addTa q.nextTa name q.toLists
  nextStudent := q.nextStudent
  nextTa := q.nextTa + 1
  valid := q.valid.addTa q.nextTa name fun t ht => Nat.ne_of_lt (q.tas_old t ht)
  students_old := by simpa [HelpQueue.addTa] using q.students_old
  tas_old := by
    intro t ht
    rcases List.mem_cons.mp ht with rfl | ht
    · exact Nat.lt_succ_self _
    · exact Nat.lt_succ_of_lt (q.tas_old t ht)

def removeTa (name : CString) : Nat × Queue :=
  let r := HelpQueue.removeTa name q.toLists
  have same := removeTa_sublist name q.toLists
  (r.1, { r.2 with
    nextStudent := q.nextStudent
    nextTa := q.nextTa
    valid := q.valid.removeTa name
    students_old := q.sublist_old (same.1 ▸ List.Sublist.refl _) same.2
    tas_old := fun t ht => q.tas_old t (same.2.subset ht) })

theorem nextOverall_old (name : CString) :
    (∀ s ∈ (HelpQueue.nextOverall name q.toLists).2.stuList ++
        serving (HelpQueue.nextOverall name q.toLists).2.taList, s.id < q.nextStudent) ∧
      ∀ t ∈ (HelpQueue.nextOverall name q.toLists).2.taList, t.id < q.nextTa := by
  rcases nextOverall_cases name q.toLists with ⟨_, heq⟩ | ⟨before, t, after, hq, _, _, heq⟩
  · rw [heq]; exact ⟨q.students_old, q.tas_old⟩
  rw [heq]
  constructor
  · intro s hs
    exact q.students_old s ((nextOverall_students hq).subset (List.mem_append_right _ hs))
  · intro u hu
    have told := q.tas_old
    simp only [hq, List.mem_append, List.mem_cons] at told hu
    rcases hu with hu | rfl | hu
    · exact told u (Or.inl hu)
    · exact told t (Or.inr (Or.inl rfl))
    · exact told u (Or.inr (Or.inr hu))

def nextOverall (name : CString) : Nat × Queue :=
  let r := HelpQueue.nextOverall name q.toLists
  (r.1, { r.2 with
    nextStudent := q.nextStudent
    nextTa := q.nextTa
    valid := q.valid.nextOverall name
    students_old := (q.nextOverall_old name).1
    tas_old := (q.nextOverall_old name).2 })

end Queue

end HelpQueue
