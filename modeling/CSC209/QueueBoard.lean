import CSC209.A2.DeskStatistics
import CSC209.A4.QueueHeap
import Mathlib.Data.List.Basic

/-!
# One queue for two programs

What both versions of the help centre keep: who waits for which course, and
who is on duty and is serving whom. `act` says what a command does to it, and
the lists of A2 and of A4 both follow `act`. A2 looks for the course first and
A4 for the name, which makes no difference to whether a student is added.
-/

namespace QueueBoard

open CStrings
open HelpDesk (taOf)

/-- Calls that both versions have; giving up and asking for a course are left out. -/
inductive Command where
  | addStudent (name code : CString)
  | addTa (name : CString)
  | removeTa (name : CString)
  | next (taName : CString)
  deriving DecidableEq, Repr

structure Board where
  waiting : List (CString × CString)
  staff : List (CString × Option CString)
  deriving DecidableEq, Repr

/-- Whether the command succeeds, and the board afterwards. -/
def act (codes : List CString) (b : Board) : Command → Bool × Board
  | .addStudent name code =>
    if (∀ s ∈ b.waiting, s.1 ≠ name) ∧ ∃ c ∈ codes, c = code then
      (true, { b with waiting := b.waiting ++ [(name, code)] })
    else (false, b)
  | .addTa name => (true, { b with staff := (name, none) :: b.staff })
  | .removeTa name =>
    if ∃ t ∈ b.staff, t.1 = name then (true, { b with staff := b.staff.eraseP fun t => t.1 = name })
    else (false, b)
  | .next taName =>
    if ∃ t ∈ b.staff, t.1 = taName then
      (true, ⟨b.waiting.tail, b.staff.replaceF fun t =>
        if t.1 = taName then some (t.1, b.waiting.head?.map Prod.fst) else none⟩)
    else (false, b)

def Command.onDesk : Command → HelpDesk.Call
  | .addStudent name code => .addStudent name code
  | .addTa name => .addTa name
  | .removeTa name => .removeTa name
  | .next taName => .takeNextOverall taName

def Command.onHeap : Command → QueueHeap.Call
  | .addStudent name code => .addStudent name code
  | .addTa name => .addTa name
  | .removeTa name => .removeTa name
  | .next taName => .nextOverall taName

variable {codes : List CString} {b : Board} {name code : CString}
  {before after : List (CString × Option CString)} {served : Option CString}

section Acting

theorem act_added (new : ∀ s ∈ b.waiting, s.1 ≠ name) (known : code ∈ codes) :
    act codes b (.addStudent name code) =
      (true, { b with waiting := b.waiting ++ [(name, code)] }) := by
  have good : (∀ s ∈ b.waiting, s.1 ≠ name) ∧ ∃ c ∈ codes, c = code := ⟨new, code, known, rfl⟩
  simp only [act, if_pos good]

theorem act_refused (refused : (∃ s ∈ b.waiting, s.1 = name) ∨ code ∉ codes) :
    act codes b (.addStudent name code) = (false, b) := by
  have fails : ¬ ((∀ s ∈ b.waiting, s.1 ≠ name) ∧ ∃ c ∈ codes, c = code) := by
    rintro ⟨new, c, known, rfl⟩
    rcases refused with ⟨s, hs, same⟩ | unknown
    · exact new s hs same
    · exact unknown known
  simp only [act, if_neg fails]

theorem act_removeTa (split : b.staff = before ++ (name, served) :: after)
    (first : ∀ t ∈ before, t.1 ≠ name) :
    act codes b (.removeTa name) = (true, { b with staff := before ++ after }) := by
  have mem : ∃ t ∈ b.staff, t.1 = name := ⟨(name, served), by simp [split], rfl⟩
  have erased : b.staff.eraseP (fun t => t.1 = name) = before ++ after := by
    rw [split, List.eraseP_append_right _ (by simpa using first)]
    simp
  simp only [act, if_pos mem, erased]

theorem act_next (split : b.staff = before ++ (name, served) :: after)
    (first : ∀ t ∈ before, t.1 ≠ name) : act codes b (.next name) =
      (true, ⟨b.waiting.tail, before ++ (name, b.waiting.head?.map Prod.fst) :: after⟩) := by
  have mem : ∃ t ∈ b.staff, t.1 = name := ⟨(name, served), by simp [split], rfl⟩
  have replaced : ∀ l : List (CString × Option CString), (∀ t ∈ l, t.1 ≠ name) →
      (l ++ (name, served) :: after).replaceF
        (fun t => if t.1 = name then some (t.1, b.waiting.head?.map Prod.fst) else none) =
      l ++ (name, b.waiting.head?.map Prod.fst) :: after := by
    intro l others
    induction l with
    | nil => simp
    | cons t rest ih =>
      have other : t.1 ≠ name := others t List.mem_cons_self
      simp [other, ih fun u hu => others u (List.mem_cons_of_mem t hu)]
  simp only [act, if_pos mem]
  rw [split, replaced before first]

theorem act_unknownTa (absent : ∀ t ∈ b.staff, t.1 ≠ name) :
    act codes b (.removeTa name) = (false, b) ∧ act codes b (.next name) = (false, b) := by
  have unknown : ¬ ∃ t ∈ b.staff, t.1 = name := fun ⟨t, ht, same⟩ => absent t ht same
  simp only [act, if_neg unknown, and_self]

end Acting

section Desk

open DeskLists (call_cases)

variable {clock : Nat → Int} {q q' m : DeskLists.Lists} {c : Command} {n i : Nat}

def staffEntry (t : DeskLists.Ta) : CString × Option CString := (t.name, t.hold.served.map (·.name))

/-- The lists of A2 as a board; a student's course is an index of the codes. -/
def deskBoard (codes : List CString) (q : DeskLists.Lists) : Board where
  waiting := q.queue.map fun s => (s.name, codes[s.course]?.getD [])
  staff := q.staff.map staffEntry

theorem setHold_split {before after : List DeskLists.Ta} {t : DeskLists.Ta}
    (hm : m.staff = before ++ t :: after) (hold : DeskLists.Hold) :
    (m.setHold before.length hold).staff = before ++ { t with hold := hold } :: after := by
  have lt : before.length < (before ++ t :: after).length := by simp
  simp [DeskLists.Lists.setHold, hm, List.modify_eq_take_cons_drop lt]

/-- What a call finds of the TA it names, and the staff after the release. -/
theorem found_split {taName : CString} (hi : q.findTa taName = some i)
    (hm : DeskLists.releaseCurrentStudent clock i q = .ok m) :
    ∃ before after t t', i = before.length ∧ m.queue = q.queue ∧ m.staff = before ++ t' :: after ∧
      t'.name = taName ∧
      (deskBoard codes q).staff = before.map staffEntry ++ (taName, t) :: after.map staffEntry ∧
      ∀ u ∈ before.map staffEntry, u.1 ≠ taName := by
  obtain ⟨before, t, after, hq, rfl, rfl, first⟩ := DeskRefinement.split_findTa hi
  obtain ⟨t', staff, _, name⟩ := DeskRefinement.release_staff hq hm
  have queue := DeskStatistics.release_queue_eq (DeskLists.lt_of_findTa hi) hm
  exact ⟨before, after, _, t', rfl, queue, staff, name, by simp [deskBoard, hq, staffEntry]; rfl,
    by simpa [staffEntry] using first⟩

theorem unknown_staff {taName : CString} (hi : q.findTa taName = none) :
    ∀ t ∈ (deskBoard codes q).staff, t.1 ≠ taName := by
  simpa [deskBoard, staffEntry, DeskLists.Lists.findTa] using hi

theorem deskBoard_addStudent (courses : q.courses.map DeskLists.Course.code = codes)
    (h : DeskLists.call clock q (.addStudent name code) = .ok (n, q')) :
    (n = 0 ↔ (act codes (deskBoard codes q) (.addStudent name code)).1 = true) ∧
      deskBoard codes q' = (act codes (deskBoard codes q) (.addStudent name code)).2 := by
  cases call_cases h with
  | unknownCourse _ _ unknown =>
    have none : code ∉ codes := by
      simpa [← courses, DeskLists.Lists.findCourse] using unknown
    simp [act_refused (.inr none)]
  | alreadyWaiting _ _ c s _ hs =>
    have waits : ∃ s ∈ (deskBoard codes q).waiting, s.1 = name := by
      have same : s.name = name := by simpa using List.find?_some hs
      exact ⟨_, List.mem_map_of_mem (List.mem_of_find?_eq_some hs), same⟩
    rw [act_refused (.inl waits)]
    exact ⟨by simp, rfl⟩
  | added _ _ c hc hs =>
    obtain ⟨lt, found, _⟩ := List.findIdx?_eq_some_iff_getElem.mp hc
    have here : codes[c]? = some code := by
      rw [← courses]
      simpa [List.getElem?_eq_getElem lt] using found
    have new_name : ∀ s ∈ (deskBoard codes q).waiting, s.1 ≠ name := by
      simpa [deskBoard, DeskLists.Lists.findStudent] using hs
    rw [act_added new_name (List.mem_of_getElem? here)]
    simp [deskBoard, DeskLists.enqueue, here]
  | unknownTa _ _ none => cases none

theorem deskBoard_removeTa (h : DeskLists.call clock q (.removeTa name) = .ok (n, q')) :
    (n = 0 ↔ (act codes (deskBoard codes q) (.removeTa name)).1 = true) ∧
      deskBoard codes q' = (act codes (deskBoard codes q) (.removeTa name)).2 := by
  cases call_cases h with
  | unknownTa _ _ same hi =>
    obtain rfl := Option.some.inj same
    simp [(act_unknownTa (unknown_staff hi)).1]
  | fired _ i m hi hm =>
    obtain ⟨before, after, t, t', rfl, queue, staff, _, split, first⟩ := found_split hi hm
    rw [act_removeTa split first]
    have left : m.staff.eraseIdx before.length = before ++ after := by
      rw [staff, List.eraseIdx_append_of_length_le (Nat.le_refl _)]
      simp
    simp [deskBoard, DeskLists.fire, queue, left]

theorem deskBoard_next (h : DeskLists.call clock q (.takeNextOverall name) = .ok (n, q')) :
    (n = 0 ↔ (act codes (deskBoard codes q) (.next name)).1 = true) ∧
      deskBoard codes q' = (act codes (deskBoard codes q) (.next name)).2 := by
  cases call_cases h with
  | unknownTa _ _ same hi =>
    obtain rfl := Option.some.inj same
    simp [(act_unknownTa (unknown_staff hi)).2]
  | emptyQueue _ i m hi hm none =>
    obtain ⟨before, after, t, t', rfl, queue, staff, rfl, split, first⟩ := found_split hi hm
    rw [act_next split first]
    simp [deskBoard, DeskLists.letGo, setHold_split staff, none, ← queue, staffEntry,
      DeskLists.Hold.served]
  | tookOverall _ i m s rest hi hm hqueue =>
    obtain ⟨before, after, t, t', rfl, queue, staff, rfl, split, first⟩ := found_split hi hm
    rw [act_next split first]
    have staff' : (DeskLists.serve clock m before.length s rest).staff =
        before ++
          { t' with hold := .serving { s with arrivalTime := clock m.ticks } } :: after := by
      rw [DeskLists.serve, DeskLists.note_staff]
      exact setHold_split staff _
    simp [deskBoard, staff', ← queue, hqueue, staffEntry, DeskLists.Hold.served]

/-- Every call of A2 that returns follows the board. -/
theorem deskBoard_call (courses : q.courses.map DeskLists.Course.code = codes)
    (h : DeskLists.call clock q c.onDesk = .ok (n, q')) :
    (n = 0 ↔ (act codes (deskBoard codes q) c).1 = true) ∧
      deskBoard codes q' = (act codes (deskBoard codes q) c).2 := by
  cases c with
  | addStudent name code => exact deskBoard_addStudent courses h
  | addTa name =>
    cases call_cases h with
    | hired => exact ⟨by simp [act], rfl⟩
    | unknownTa _ _ none => cases none
  | removeTa name => exact deskBoard_removeTa h
  | next taName => exact deskBoard_next h

end Desk

section Lists

open HelpQueue

variable {courses : List Course} {q : Lists}

def taEntry (t : Ta) : CString × Option CString := (t.name, t.currentStudent.map (·.name))

/-- The lists of A4 as a board. -/
def listBoard (q : Lists) : Board where
  waiting := q.stuList.map fun s => (s.name, s.course.code)
  staff := q.taList.map taEntry

theorem listBoard_call (courses : List Course) (new : Nat) (q : Lists) (c : Command) :
    ((c.onHeap.onLists courses new q).1 = 0 ↔
        (act (courses.map Course.code) (listBoard q) c).1 = true) ∧
      listBoard (c.onHeap.onLists courses new q).2 =
        (act (courses.map Course.code) (listBoard q) c).2 := by
  cases c with
  | addStudent name code =>
    rcases addStudent_cases courses new name code q with
      ⟨⟨s, hs, rfl⟩, eq⟩ | ⟨_, unknown, eq⟩ | ⟨course, absent, known, eq⟩
    · have waits : ∃ u ∈ (listBoard q).waiting, u.1 = s.name := ⟨_, List.mem_map_of_mem hs, rfl⟩
      simp [Command.onHeap, QueueHeap.Call.onLists, eq, act_refused (.inl waits)]
    · have none : code ∉ courses.map Course.code := by simpa [findCourse] using unknown
      simp [Command.onHeap, QueueHeap.Call.onLists, eq, act_refused (.inr none)]
    · obtain ⟨mem, rfl⟩ := findCourse_code known
      have new_name : ∀ s ∈ (listBoard q).waiting, s.1 ≠ name := by simpa [listBoard] using absent
      rw [act_added new_name (List.mem_map_of_mem mem)]
      simp [Command.onHeap, QueueHeap.Call.onLists, eq, listBoard]
  | addTa name => simp [Command.onHeap, QueueHeap.Call.onLists, act, addTa, listBoard, taEntry]
  | removeTa name =>
    rcases removeTa_cases name q with ⟨absent, eq⟩ | ⟨before, t, after, hq, rfl, first, eq⟩
    · have unknown : ∀ t ∈ (listBoard q).staff, t.1 ≠ name := by
        simpa [listBoard, taEntry] using absent
      simp [Command.onHeap, QueueHeap.Call.onLists, eq, (act_unknownTa unknown).1]
    · have split : (listBoard q).staff = before.map taEntry ++ taEntry t :: after.map taEntry := by
        simp [listBoard, hq]
      rw [act_removeTa split (by simpa [taEntry] using first)]
      simp [Command.onHeap, QueueHeap.Call.onLists, eq, listBoard]
  | next name =>
    rcases nextOverall_cases name q with ⟨absent, eq⟩ | ⟨before, t, after, hq, rfl, first, eq⟩
    · have unknown : ∀ t ∈ (listBoard q).staff, t.1 ≠ name := by
        simpa [listBoard, taEntry] using absent
      simp [Command.onHeap, QueueHeap.Call.onLists, eq, (act_unknownTa unknown).2]
    · have split : (listBoard q).staff = before.map taEntry ++ taEntry t :: after.map taEntry := by
        simp [listBoard, hq]
      rw [act_next split (by simpa [taEntry] using first)]
      cases hq :
          q.stuList <;> simp [Command.onHeap, QueueHeap.Call.onLists, eq, listBoard, taEntry, hq]

end Lists

end QueueBoard
