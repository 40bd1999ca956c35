import CSC209.A2.DeskLists
import Mathlib.Data.List.Find

/-!
# The lists that a help desk holds

`Represents d q` says that the links, nodes, courses and TAs of `d` are those
of the lists `q`: the overall chain is the queue, the chain of each course is
the part of the queue with that course, and every TA points at what it holds.
-/

namespace DeskReading

open CStrings NodeMemory LinkedChain HelpDesk
open DeskLists (Lists Hold holdOf_eq)

def entryAt (m : Memory Student) (a : Addr) : Option DeskLists.Student :=
  (m.get a).map fun s => ⟨a, s.name, s.arrivalTime, s.course⟩

/-- A course without its queue. -/
def tally (c : Course) : DeskLists.Course :=
  ⟨c.code, c.description, c.helped, c.bailed, c.waitTime, c.helpTime⟩

def ids (l : List DeskLists.Student) : List Addr := l.map DeskLists.Student.id

def inCourse (l : List DeskLists.Student) (c : Nat) : List DeskLists.Student :=
  l.filter (·.course == c)

/-- The queue of every course ends at its tail and holds the students of the course in order. -/
def ByCourse (m : Memory Student) (courses : List Course) (queue : List DeskLists.Student) : Prop :=
  ∀ c course, courses[c]? = some course →
    Chain (m.link Student.nextCourse) course.head (ids (inCourse queue c)) ∧
      course.tail = (ids (inCourse queue c)).getLast?

structure Represents (d : Desk) (q : Lists) : Prop where
  overall : Chain (d.students.link Student.nextOverall) d.stuList (ids q.queue)
  byCourse : ByCourse d.students d.courses q.queue
  courses : d.courses.map tally = q.courses
  students : ∀ s ∈ q.queue ++ q.serving, entryAt d.students s.id = some s
  apart : (ids (q.queue ++ q.serving)).Nodup
  known : ∀ s ∈ q.queue ++ q.serving, ∃ code, q.findCourse code = some s.course
  released : ∀ t ∈ q.staff, ∀ a, t.hold = .released a → d.students.Freed a
  staff : Chain (d.tas.link Ta.next) d.taList (q.staff.map DeskLists.Ta.id)
  tas : ∀ t ∈ q.staff, ∃ next, d.tas.get t.id = some ⟨t.name, t.hold.pointer, next⟩
  made : d.students.size = q.made
  hired : d.tas.size = q.hired
  ticks : d.ticks = q.ticks
  log : d.log = q.log

variable {d d' : Desk} {q : Lists} {m m' : Memory Student} {n n' : Student} {a b : Addr}
  {courses courses' : List Course} {queue l r : List DeskLists.Student} {s : DeskLists.Student}
  {c : Nat}

@[simp] theorem ids_nil : ids [] = [] := rfl
@[simp] theorem ids_cons : ids (s :: l) = s.id :: ids l := rfl
@[simp] theorem ids_append : ids (l ++ r) = ids l ++ ids r := List.map_append

theorem mem_ids : a ∈ ids l ↔ ∃ s ∈ l, s.id = a := List.mem_map

@[simp] theorem inCourse_append : inCourse (l ++ r) c = inCourse l c ++ inCourse r c :=
  List.filter_append ..

theorem inCourse_cons_same (h : s.course = c) : inCourse (s :: l) c = s :: inCourse l c := by
  simp [inCourse, h]

theorem inCourse_cons_other (h : s.course ≠ c) : inCourse (s :: l) c = inCourse l c := by
  simp [inCourse, h]

theorem inCourse_eq_nil (h : ∀ t ∈ l, t.course ≠ c) : inCourse l c = [] := by
  simpa [inCourse] using h

theorem mem_of_mem_inCourse (h : s ∈ inCourse l c) : s ∈ l := (List.mem_filter.mp h).1

theorem mem_ids_of_inCourse (h : a ∈ ids (inCourse l c)) : a ∈ ids l := by
  obtain ⟨t, ht, rfl⟩ := mem_ids.mp h
  exact mem_ids.mpr ⟨t, mem_of_mem_inCourse ht, rfl⟩

section Nodes

theorem get_of_entry (h : entryAt m a = some s) :
    ∃ n, m.get a = some n ∧ s = ⟨a, n.name, n.arrivalTime, n.course⟩ := by
  obtain ⟨n, hn, he⟩ := Option.map_eq_some_iff.mp h
  exact ⟨n, hn, he.symm⟩

theorem entryAt_congr (h : m'.get a = m.get a) : entryAt m' a = entryAt m a := by
  simp [entryAt, h]

theorem entryAt_none : entryAt m a = none ↔ m.get a = none := by simp [entryAt]

/-- Relinking a node keeps what the lists say about it. -/
theorem entryAt_relink (h : m.get a = some n)
    (same : n'.name = n.name ∧ n'.arrivalTime = n.arrivalTime ∧ n'.course = n.course) :
    entryAt (m.store a (some n')) = entryAt m := by
  funext b
  by_cases hb : b = a
  · subst hb
    simp [entryAt, Memory.get_store_same h, h, same]
  · exact entryAt_congr (Memory.get_store_of_ne hb _)

end Nodes

section Courses

@[simp] theorem setCourse_students (f : Course → Course) :
    (d.setCourse c f).students = d.students := rfl

/-- Replacing tallies leaves the queues of the courses alone. -/
theorem ByCourse.modify {f : Course → Course} (h : ByCourse m courses queue)
    (same : ∀ x, (f x).head = x.head ∧ (f x).tail = x.tail) :
    ByCourse m (courses.modify c f) queue := by
  intro i x hx
  rw [List.getElem?_modify] at hx
  obtain ⟨y, hy, rfl⟩ := Option.map_eq_some_iff.mp hx
  obtain ⟨hchain, htail⟩ := h i y hy
  split
  · rw [(same y).1, (same y).2]
    exact ⟨hchain, htail⟩
  · exact ⟨hchain, htail⟩

theorem ByCourse.congr (h : ByCourse m courses queue)
    (agree : ∀ b ∈ ids queue, m'.link Student.nextCourse b = m.link Student.nextCourse b) :
    ByCourse m' courses queue := by
  intro i x hx
  obtain ⟨hchain, htail⟩ := h i x hx
  exact ⟨segment_congr (fun b hb => agree b (mem_ids_of_inCourse hb)) hchain, htail⟩

theorem findCourse_eq (h : courses.map tally = q.courses) (code : CString) :
    findCourse courses code = q.findCourse code := by
  rw [Lists.findCourse, ← h, List.findIdx?_map]
  rfl

/-- Tallies change, codes do not. -/
theorem findCourse_setCourse {f : DeskLists.Course → DeskLists.Course}
    (same : ∀ x, (f x).code = x.code) (code : CString) :
    (q.setCourse c f).findCourse code = q.findCourse code :=
  DeskLists.findIdx?_modify (· == code) same

theorem lt_of_findCourse {code : CString} (h : q.findCourse code = some c) : c < q.courses.length :=
  (List.findIdx?_eq_some_iff_getElem.mp h).1

theorem Represents.course_of_lt (rep : Represents d q) (h : c < q.courses.length) :
    ∃ x, d.courses[c]? = some x := by
  have same : d.courses.length = q.courses.length := by rw [← rep.courses, List.length_map]
  exact ⟨d.courses[c], List.getElem?_eq_getElem (by omega)⟩

theorem Represents.course_of_mem (rep : Represents d q) (hs : s ∈ q.queue ++ q.serving) :
    ∃ x, d.courses[s.course]? = some x := by
  obtain ⟨code, hcode⟩ := rep.known s hs
  exact rep.course_of_lt (lt_of_findCourse hcode)

end Courses

section Staff

variable {staff : List DeskLists.Ta} {t : DeskLists.Ta} {i : Nat}

/-- Every TA is found at its own position only. -/
theorem Represents.ta_index (rep : Represents d q) {j : Nat} {u : DeskLists.Ta}
    (hi : q.staff[i]? = some t) (hj : q.staff[j]? = some u) (same : u.id = t.id) : j = i := by
  have nodup := rep.staff.nodup
  have hj' : (q.staff.map DeskLists.Ta.id)[j]? = some u.id := by simp [hj]
  have hi' : (q.staff.map DeskLists.Ta.id)[i]? = some u.id := by simp [hi, same]
  obtain ⟨lt, _⟩ := List.getElem?_eq_some_iff.mp hj'
  exact (List.getElem?_inj lt nodup).mp (hj'.trans hi'.symm)

theorem Represents.ta_get (rep : Represents d q) (hi : q.staff[i]? = some t) :
    ∃ next, d.tas.get t.id = some ⟨t.name, (q.holdOf i).pointer, next⟩ := by
  rw [holdOf_eq hi]
  exact rep.tas t (List.mem_of_getElem? hi)

/-- Where the search for a TA ends. -/
theorem Represents.findTa (rep : Represents d q) (name : CString) :
    (q.findTa name = none ∧ HelpDesk.findTa d name = .ok none) ∨
      ∃ i t, q.findTa name = some i ∧ q.staff[i]? = some t ∧
        HelpDesk.findTa d name = .ok (some t.id) := by
  have scan :=
    Memory.seek_chain (fun _ t => t.name == name) rep.staff (Memory.chain_length_le rep.staff)
  have names :
      ∀ t ∈ q.staff, (d.tas.get t.id).any (fun u => u.name == name) = (t.name == name) := by
    intro t ht
    obtain ⟨next, hn⟩ := rep.tas t ht
    simp [hn]
  rw [List.find?_map] at scan
  have here :
      (q.staff.find? ((fun a => (d.tas.get a).any fun u => u.name == name) ∘ DeskLists.Ta.id)) =
      (q.findTa name).bind (q.staff[·]?) :=
    (List.find?_congr names).trans List.find?_eq_bind_findIdx?_getElem?
  rw [here] at scan
  cases hi : q.findTa name with
  | none => exact .inl ⟨rfl, by simpa [HelpDesk.findTa, hi] using scan⟩
  | some i =>
    have hlt := DeskLists.lt_of_findTa hi
    have ht : q.staff[i]? = some q.staff[i] := List.getElem?_eq_getElem hlt
    exact .inr ⟨i, q.staff[i], rfl, ht, by simpa [HelpDesk.findTa, hi, ht] using scan⟩

end Staff

/-- The search for a waiting student, in any memory that holds the queue. -/
theorem seek_name {p : Pointer} (chain : Chain (m.link Student.nextOverall) p (ids queue))
    (nodes : ∀ s ∈ queue, entryAt m s.id = some s) (name : CString) :
    m.seek Student.nextOverall (fun _ s => s.name == name) m.size p =
      .ok ((queue.find? fun s => s.name == name).map DeskLists.Student.id) := by
  rw [Memory.seek_chain _ chain (Memory.chain_length_le chain), ids, List.find?_map]
  congr 2
  apply List.find?_congr
  intro s hs
  obtain ⟨n, hn, he⟩ := get_of_entry (nodes s hs)
  have same : s.name = n.name := by rw [he]
  simp [hn, same]

end DeskReading
