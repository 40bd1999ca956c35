import CSC209.A2.HelpDesk
import Mathlib.Data.List.Basic

/-!
# The help centre as lists

The two intrusive lists of `HelpDesk` are one list of waiting students here. A
TA is idle, is serving a student, or still points at a student that has been
released. A student who gives up stays in the list, as in the code.

Every call is made of a few moves. `Outcome` lists the ways in which a call can
return, and `KeptBy` what has to be shown of each move, where it can occur, for
a property to be kept by all calls.
-/

namespace DeskLists

open CStrings NodeMemory
open HelpDesk (Event Call taOf)

structure Student where
  id : Addr
  name : CString
  arrivalTime : Int
  course : Nat
  deriving DecidableEq, Repr

inductive Hold where
  | idle
  | serving (s : Student)
  | released (id : Addr)
  deriving DecidableEq, Repr

structure Ta where
  id : Addr
  name : CString
  hold : Hold
  deriving DecidableEq, Repr

structure Course where
  code : CString
  description : CString
  helped : Int
  bailed : Int
  waitTime : Int
  helpTime : Int
  deriving DecidableEq, Repr

/-- `made` and `hired` count the nodes that were ever allocated. -/
structure Lists where
  queue : List Student
  staff : List Ta
  courses : List Course
  made : Nat
  hired : Nat
  ticks : Nat
  log : List Event
  deriving DecidableEq, Repr

def opened (lines : List (CString × CString)) : Lists :=
  ⟨[], [], lines.map fun l => ⟨l.1, l.2, 0, 0, 0, 0⟩, 0, 0, 0, []⟩

def Hold.served : Hold → Option Student
  | .serving s => some s
  | _ => none

/-- The pointer that the TA's node holds. -/
def Hold.pointer : Hold → Pointer
  | .idle => none
  | .serving s => some s.id
  | .released a => some a

namespace Lists

variable (q : Lists)

/-- The students being served, in the order of the staff. -/
def serving : List Student := q.staff.filterMap fun t => t.hold.served

def holdOf (i : Nat) : Hold := (q.staff[i]?.map Ta.hold).getD .idle

def setHold (i : Nat) (hold : Hold) : Lists :=
  { q with staff := q.staff.modify i fun t => { t with hold := hold } }

def setCourse (c : Nat) (f : Course → Course) : Lists :=
  { q with courses := q.courses.modify c f }

/-- Every recorded event goes with one reading of the clock. -/
def note (e : Event) : Lists := { q with ticks := q.ticks + 1, log := q.log ++ [e] }

def findCourse (code : CString) : Option Nat := q.courses.findIdx? fun c => c.code == code

def findTa (name : CString) : Option Nat := q.staff.findIdx? fun t => t.name == name

def findStudent (name : CString) : Option Student := q.queue.find? fun s => s.name == name

end Lists

section Moves

variable (clock : Nat → Int) (q : Lists)

/-- A student whose name is already waiting: the node is made and lost. -/
def turnAway : Lists := { q with made := q.made + 1, ticks := q.ticks + 1 }

def enqueue (name : CString) (c : Nat) : Lists :=
  let s : Student := ⟨q.made, name, clock q.ticks, c⟩
  { q with queue := q.queue ++ [s], made := q.made + 1 }.note (.added q.made c (clock q.ticks))

def bail (s : Student) : Lists :=
  (q.setCourse s.course fun c =>
    { c with
      waitTime := c.waitTime + (clock q.ticks - s.arrivalTime)
      bailed := c.bailed + 1 }).note (.gaveUp s.id (clock q.ticks))

def hire (name : CString) : Lists :=
  { q with staff := ⟨q.hired, name, .idle⟩ :: q.staff, hired := q.hired + 1 }

def release (i : Nat) (s : Student) : Lists :=
  ((q.setCourse s.course fun c =>
    { c with
      helpTime := c.helpTime + (clock q.ticks - s.arrivalTime)
      helped := c.helped + 1 }).setHold i (.released s.id)).note (.ended s.id (clock q.ticks))

def letGo (i : Nat) : Lists := q.setHold i .idle

def serve (i : Nat) (s : Student) (queue : List Student) : Lists :=
  (({ q with queue := queue }.setCourse s.course fun c =>
    { c with waitTime := c.waitTime + (clock q.ticks - s.arrivalTime) }).setHold i
    (.serving { s with arrivalTime := clock q.ticks })).note (.taken s.id (clock q.ticks))

def fire (i : Nat) : Lists := { q with staff := q.staff.eraseIdx i }

end Moves

section Calls

variable (clock : Nat → Int)

def addStudent (name code : CString) (q : Lists) : Nat × Lists :=
  match q.findCourse code with
  | none => (2, q)
  | some c =>
    match q.findStudent name with
    | some _ => (1, turnAway q)
    | none => (0, enqueue clock q name c)

def giveUpWaiting (name : CString) (q : Lists) : Nat × Lists :=
  match q.findStudent name with
  | none => (1, q)
  | some s => (0, bail clock q s)

/-- Releasing a second time reads the freed node. -/
def releaseCurrentStudent (i : Nat) (q : Lists) : Except Fault Lists :=
  match q.holdOf i with
  | .idle => .ok q
  | .serving s => .ok (release clock q i s)
  | .released _ => .error .deadPointer

def removeTa (name : CString) (q : Lists) : Except Fault (Nat × Lists) := do
  match q.findTa name with
  | none => .ok (1, q)
  | some i => do
    let q ← releaseCurrentStudent clock i q
    .ok (0, fire q i)

def takeNextOverall (taName : CString) (q : Lists) : Except Fault (Nat × Lists) := do
  match q.findTa taName with
  | none => .ok (1, q)
  | some i => do
    let q ← releaseCurrentStudent clock i q
    match q.queue with
    | [] => .ok (0, letGo q i)
    | s :: rest => .ok (0, serve clock q i s rest)

/-- On a course without waiting students the TA keeps the pointer to the released student. -/
def takeNextCourse (taName code : CString) (q : Lists) : Except Fault (Nat × Lists) := do
  match q.findTa taName with
  | none => .ok (1, q)
  | some i => do
    let q ← releaseCurrentStudent clock i q
    match q.findCourse code with
    | none => .ok (2, letGo q i)
    | some c =>
      match q.queue.find? fun s => s.course == c with
      | none => .ok (0, q)
      | some s => .ok (0, serve clock q i s (q.queue.eraseP fun s => s.course == c))

def call (q : Lists) : Call → Except Fault (Nat × Lists)
  | .addStudent name code => .ok (addStudent clock name code q)
  | .giveUpWaiting name => .ok (giveUpWaiting clock name q)
  | .addTa name => .ok (0, hire q name)
  | .removeTa name => removeTa clock name q
  | .takeNextOverall taName => takeNextOverall clock taName q
  | .takeNextCourse taName code => takeNextCourse clock taName code q

end Calls

variable {clock : Nat → Int} {q q' : Lists} {i c : Nat} {s : Student}

section Moves

@[simp] theorem note_queue (e : Event) : (q.note e).queue = q.queue := rfl
@[simp] theorem note_staff (e : Event) : (q.note e).staff = q.staff := rfl
@[simp] theorem note_courses (e : Event) : (q.note e).courses = q.courses := rfl
@[simp] theorem note_log (e : Event) : (q.note e).log = q.log ++ [e] := rfl

@[simp] theorem setHold_queue (hold : Hold) : (q.setHold i hold).queue = q.queue := rfl
@[simp] theorem setHold_courses (hold : Hold) : (q.setHold i hold).courses = q.courses := rfl
@[simp] theorem setHold_log (hold : Hold) : (q.setHold i hold).log = q.log := rfl

@[simp] theorem setCourse_queue (f : Course → Course) : (q.setCourse c f).queue = q.queue := rfl
@[simp] theorem setCourse_staff (f : Course → Course) : (q.setCourse c f).staff = q.staff := rfl
@[simp] theorem setCourse_log (f : Course → Course) : (q.setCourse c f).log = q.log := rfl

@[simp] theorem release_queue : (release clock q i s).queue = q.queue := rfl
@[simp] theorem letGo_queue : (letGo q i).queue = q.queue := rfl
@[simp] theorem serve_queue (rest : List Student) : (serve clock q i s rest).queue = rest := rfl

end Moves

section Entries

variable {α β : Type} {k : α → β} {f : α → α} {l : List α}

/-- Changing one entry, seen through a key. -/
theorem map_modify {g : β → β} (same : ∀ x, k (f x) = g (k x)) :
    (l.modify i f).map k = (l.map k).modify i g := by
  apply List.ext_getElem?
  intro j
  simp only [List.getElem?_map, List.getElem?_modify]
  cases l[j]? with
  | none => rfl
  | some x => by_cases hj : i = j <;> simp [hj, same]

theorem map_modify_same (same : ∀ x, k (f x) = k x) : (l.modify i f).map k = l.map k := by
  rw [map_modify (g := id) same, List.modify_id]

/-- A search by a key that the change leaves alone ends at the same entry. -/
theorem findIdx?_modify (p : β → Bool) (same : ∀ x, k (f x) = k x) :
    (l.modify i f).findIdx? (p ∘ k) = l.findIdx? (p ∘ k) := by
  rw [← List.findIdx?_map, ← List.findIdx?_map, map_modify_same same]

end Entries

section Staff

variable {t : Ta} {hold : Hold}

theorem holdOf_eq (hi : q.staff[i]? = some t) : q.holdOf i = t.hold := by
  simp [Lists.holdOf, hi]

theorem serving_setHold (hi : q.staff[i]? = some t) :
    ∃ before after, q.serving = before ++ ((q.holdOf i).served.toList ++ after) ∧
      ∀ hold, (q.setHold i hold).serving = before ++ (hold.served.toList ++ after) := by
  obtain ⟨lt, ht⟩ := List.getElem?_eq_some_iff.mp hi
  have split : q.staff = q.staff.take i ++ t :: q.staff.drop (i + 1) := by
    rw [← ht, List.getElem_cons_drop, List.take_append_drop]
  refine ⟨(q.staff.take i).filterMap fun t => t.hold.served,
    (q.staff.drop (i + 1)).filterMap fun t => t.hold.served, ?_, ?_⟩
  · rw [Lists.serving, holdOf_eq hi]
    conv_lhs => rw [split]
    cases hold : t.hold.served <;> simp [hold]
  · intro hold
    simp only [Lists.serving, Lists.setHold, List.modify_eq_take_cons_drop lt]
    cases hserved : hold.served <;> simp [hserved]

/-- A TA without a current student serves nobody, before and after letting go. -/
theorem serving_letGo (hi : q.staff[i]? = some t) {hold : Hold}
    (before : (q.holdOf i).served = none) (after : hold.served = none) :
    (q.setHold i hold).serving = q.serving := by
  obtain ⟨b, a, hq, hset⟩ := serving_setHold hi
  rw [hset, hq, before, after]

theorem serving_fire (hi : q.staff[i]? = some t) (unserved : (q.holdOf i).served = none) :
    (fire q i).serving = q.serving := by
  obtain ⟨lt, ht⟩ := List.getElem?_eq_some_iff.mp hi
  have split : q.staff = q.staff.take i ++ t :: q.staff.drop (i + 1) := by
    rw [← ht, List.getElem_cons_drop, List.take_append_drop]
  rw [holdOf_eq hi] at unserved
  simp only [Lists.serving, fire, List.eraseIdx_eq_take_drop_succ]
  conv_rhs => rw [split]
  simp [unserved]

theorem setHold_ids : (q.setHold i hold).staff.map Ta.id = q.staff.map Ta.id :=
  map_modify_same fun _ => rfl

theorem setHold_get (hi : q.staff[i]? = some t) :
    (q.setHold i hold).staff[i]? = some { t with hold := hold } := by
  simp [Lists.setHold, hi]

theorem mem_setHold (hi : q.staff[i]? = some t) {u : Ta}
    (hu : u ∈ (q.setHold i hold).staff) :
    u = { t with hold := hold } ∨ ∃ j, j ≠ i ∧ q.staff[j]? = some u := by
  obtain ⟨j, hj⟩ := List.getElem?_of_mem hu
  by_cases same : j = i
  · subst same
    rw [setHold_get hi] at hj
    exact .inl (Option.some.inj hj).symm
  · have other : (q.setHold i hold).staff[j]? = q.staff[j]? := by
      simp [Lists.setHold, Ne.symm same]
    exact .inr ⟨j, same, other ▸ hj⟩

end Staff

theorem lt_of_findTa {name : CString} (h : q.findTa name = some i) : i < q.staff.length :=
  (List.findIdx?_eq_some_iff_getElem.mp h).1

theorem holdOf_setHold (hi : i < q.staff.length) (hold : Hold) :
    (q.setHold i hold).holdOf i = hold := by
  simp [Lists.holdOf, Lists.setHold, hi]

theorem holdOf_release (hi : i < q.staff.length) :
    (release clock q i s).holdOf i = .released s.id := by
  rw [release]
  exact holdOf_setHold hi _

/-- What releasing the current student can do; afterwards the TA serves nobody. -/
theorem releaseCurrentStudent_cases (hi : i < q.staff.length)
    (h : releaseCurrentStudent clock i q = .ok q') :
    (q.holdOf i = .idle ∧ q' = q ∨ ∃ s, q.holdOf i = .serving s ∧ q' = release clock q i s) ∧
      (q'.holdOf i).served = none ∧ i < q'.staff.length := by
  rw [releaseCurrentStudent] at h
  cases hold : q.holdOf i with
  | idle =>
    obtain rfl : q = q' := by simpa [hold] using h
    exact ⟨.inl ⟨rfl, rfl⟩, by simp [hold, Hold.served], hi⟩
  | serving s =>
    obtain rfl : release clock q i s = q' := by simpa [hold] using h
    exact ⟨.inr ⟨s, rfl, rfl⟩, by simp [holdOf_release hi, Hold.served],
      by simpa [release, Lists.setHold] using hi⟩
  | released a => simp [hold] at h

/-- The first student of a course splits the queue. -/
theorem split_of_find (h : (q.queue.find? fun s => s.course == c) = some s) :
    ∃ l r, q.queue = l ++ s :: r ∧ s.course = c ∧ (∀ t ∈ l, t.course ≠ c) ∧
      (q.queue.eraseP fun s => s.course == c) = l ++ r := by
  obtain ⟨hs, l, r, hq, hl⟩ := List.find?_eq_some_iff_append.mp h
  have others : ∀ t ∈ l, t.course ≠ c := by simpa using hl
  have this_one : s.course = c := by simpa using hs
  refine ⟨l, r, hq, this_one, others, ?_⟩
  rw [hq, List.eraseP_append_right _ (by simpa using others)]
  simp [this_one]

/-- The ways in which a call returns, with its code and the lists afterwards; `m` are the lists
once the TA has released its current student. -/
inductive Outcome (clock : Nat → Int) (q : Lists) : Call → Nat → Lists → Prop where
  | unknownCourse (name code : CString) : q.findCourse code = none →
      Outcome clock q (.addStudent name code) 2 q
  | alreadyWaiting (name code : CString) (c : Nat) (s : Student) : q.findCourse code = some c →
      q.findStudent name = some s → Outcome clock q (.addStudent name code) 1 (turnAway q)
  | added (name code : CString) (c : Nat) : q.findCourse code = some c → q.findStudent name = none →
      Outcome clock q (.addStudent name code) 0 (enqueue clock q name c)
  | notWaiting (name : CString) :
      q.findStudent name = none → Outcome clock q (.giveUpWaiting name) 1 q
  | gaveUp (name : CString) (s : Student) : q.findStudent name = some s →
      Outcome clock q (.giveUpWaiting name) 0 (bail clock q s)
  | hired (name : CString) : Outcome clock q (.addTa name) 0 (hire q name)
  | unknownTa (a : Call) (name : CString) : taOf a = some name → q.findTa name = none →
      Outcome clock q a 1 q
  | fired (name : CString) (i : Nat) (m : Lists) : q.findTa name = some i →
      releaseCurrentStudent clock i q = .ok m → Outcome clock q (.removeTa name) 0 (fire m i)
  | emptyQueue (taName : CString) (i : Nat) (m : Lists) : q.findTa taName = some i →
      releaseCurrentStudent clock i q = .ok m → m.queue = [] →
      Outcome clock q (.takeNextOverall taName) 0 (letGo m i)
  | tookOverall (taName : CString) (i : Nat) (m : Lists) (s : Student) (rest : List Student) :
      q.findTa taName = some i → releaseCurrentStudent clock i q = .ok m → m.queue = s :: rest →
      Outcome clock q (.takeNextOverall taName) 0 (serve clock m i s rest)
  | invalidCourse (taName code : CString) (i : Nat) (m : Lists) : q.findTa taName = some i →
      releaseCurrentStudent clock i q = .ok m → m.findCourse code = none →
      Outcome clock q (.takeNextCourse taName code) 2 (letGo m i)
  | emptyCourse (taName code : CString) (i : Nat) (m : Lists) (c : Nat) : q.findTa taName = some i →
      releaseCurrentStudent clock i q = .ok m → m.findCourse code = some c →
      (∀ s ∈ m.queue, s.course ≠ c) → Outcome clock q (.takeNextCourse taName code) 0 m
  | tookCourse (taName code : CString) (i : Nat) (m : Lists) (l r : List Student) (s : Student) :
      q.findTa taName = some i → releaseCurrentStudent clock i q = .ok m →
      m.findCourse code = some s.course → m.queue = l ++ s :: r → (∀ t ∈ l, t.course ≠ s.course) →
      Outcome clock q (.takeNextCourse taName code) 0 (serve clock m i s (l ++ r))

theorem call_cases {n : Nat} {a : Call} (h : call clock q a = .ok (n, q')) :
    Outcome clock q a n q' := by
  cases a with
  | addStudent name code =>
    simp only [DeskLists.call, addStudent] at h
    cases hc : q.findCourse code with
    | none =>
      obtain ⟨rfl, rfl⟩ : 2 = n ∧ q = q' := by simpa [hc] using h
      exact .unknownCourse name code hc
    | some c =>
      cases hs : q.findStudent name with
      | some s =>
        obtain ⟨rfl, rfl⟩ : 1 = n ∧ _ = q' := by simpa [hc, hs] using h
        exact .alreadyWaiting name code c s hc hs
      | none =>
        obtain ⟨rfl, rfl⟩ : 0 = n ∧ _ = q' := by simpa [hc, hs] using h
        exact .added name code c hc hs
  | giveUpWaiting name =>
    simp only [DeskLists.call, giveUpWaiting] at h
    cases hs : q.findStudent name with
    | none =>
      obtain ⟨rfl, rfl⟩ : 1 = n ∧ q = q' := by simpa [hs] using h
      exact .notWaiting name hs
    | some s =>
      obtain ⟨rfl, rfl⟩ : 0 = n ∧ _ = q' := by simpa [hs] using h
      exact .gaveUp name s hs
  | addTa name =>
    obtain ⟨rfl, rfl⟩ : 0 = n ∧ _ = q' := by simpa [DeskLists.call] using h
    exact .hired name
  | removeTa name =>
    simp only [DeskLists.call, removeTa] at h
    cases hi : q.findTa name with
    | none =>
      obtain ⟨rfl, rfl⟩ : 1 = n ∧ q = q' := by simpa [hi] using h
      exact .unknownTa _ name rfl hi
    | some i =>
      simp only [hi] at h
      obtain ⟨m, hm, h⟩ := HaltingRuns.bind_ok_iff.mp h
      obtain ⟨rfl, rfl⟩ : 0 = n ∧ _ = q' := by simpa using h
      exact .fired name i m hi hm
  | takeNextOverall taName =>
    simp only [DeskLists.call, takeNextOverall] at h
    cases hi : q.findTa taName with
    | none =>
      obtain ⟨rfl, rfl⟩ : 1 = n ∧ q = q' := by simpa [hi] using h
      exact .unknownTa _ taName rfl hi
    | some i =>
      simp only [hi] at h
      obtain ⟨m, hm, h⟩ := HaltingRuns.bind_ok_iff.mp h
      cases hqueue : m.queue with
      | nil =>
        obtain ⟨rfl, rfl⟩ : 0 = n ∧ _ = q' := by simpa [hqueue] using h
        exact .emptyQueue taName i m hi hm hqueue
      | cons s rest =>
        obtain ⟨rfl, rfl⟩ : 0 = n ∧ _ = q' := by simpa [hqueue] using h
        exact .tookOverall taName i m s rest hi hm hqueue
  | takeNextCourse taName code =>
    simp only [DeskLists.call, takeNextCourse] at h
    cases hi : q.findTa taName with
    | none =>
      obtain ⟨rfl, rfl⟩ : 1 = n ∧ q = q' := by simpa [hi] using h
      exact .unknownTa _ taName rfl hi
    | some i =>
      simp only [hi] at h
      obtain ⟨m, hm, h⟩ := HaltingRuns.bind_ok_iff.mp h
      cases hc : m.findCourse code with
      | none =>
        obtain ⟨rfl, rfl⟩ : 2 = n ∧ _ = q' := by simpa [hc] using h
        exact .invalidCourse taName code i m hi hm hc
      | some c =>
        cases hs : m.queue.find? fun s => s.course == c with
        | none =>
          obtain ⟨rfl, rfl⟩ : 0 = n ∧ m = q' := by simpa [hc, hs] using h
          exact .emptyCourse taName code i m c hi hm hc (by simpa using hs)
        | some s =>
          obtain ⟨l, r, hqueue, rfl, others, hrest⟩ := split_of_find hs
          obtain ⟨rfl, rfl⟩ : 0 = n ∧ _ = q' := by simpa [hc, hs] using h
          rw [hrest]
          exact .tookCourse taName code i m l r s hi hm hc hqueue others

/-- A property that every move keeps where the calls make it. -/
structure KeptBy (clock : Nat → Int) (I : Lists → Prop) : Prop where
  turnAway : ∀ q, I q → I (turnAway q)
  enqueue : ∀ q name code c, q.findCourse code = some c → I q → I (enqueue clock q name c)
  bail : ∀ q s, s ∈ q.queue → I q → I (bail clock q s)
  hire : ∀ q name, I q → I (hire q name)
  release : ∀ q i s, i < q.staff.length → q.holdOf i = .serving s → I q → I (release clock q i s)
  letGo : ∀ q i, i < q.staff.length → (q.holdOf i).served = none → I q → I (letGo q i)
  serve : ∀ q i s l r, i < q.staff.length → (q.holdOf i).served = none → q.queue = l ++ s :: r →
    (∀ t ∈ l, t.course ≠ s.course) → I q → I (serve clock q i s (l ++ r))
  fire : ∀ q i, i < q.staff.length → (q.holdOf i).served = none → I q → I (fire q i)

/-- A property kept by the moves is kept by releasing a current student. -/
theorem KeptBy.releaseCurrentStudent {I : Lists → Prop} (keeps : KeptBy clock I)
    (hi : i < q.staff.length) (hq : I q) (h : releaseCurrentStudent clock i q = .ok q') : I q' := by
  obtain ⟨_, rfl⟩ | ⟨s, hs, rfl⟩ := (releaseCurrentStudent_cases hi h).1
  · exact hq
  · exact keeps.release q i s hi hs hq

theorem KeptBy.call {I : Lists → Prop} (keeps : KeptBy clock I) {n : Nat} {a : Call} (hq : I q)
    (h : call clock q a = .ok (n, q')) : I q' := by
  -- once the TA has released its student, one move is left
  have after : ∀ {name i m}, q.findTa name = some i →
      DeskLists.releaseCurrentStudent clock i q = .ok m →
      I m ∧ (m.holdOf i).served = none ∧ i < m.staff.length := fun hi hm =>
    ⟨keeps.releaseCurrentStudent (lt_of_findTa hi) hq hm,
      (releaseCurrentStudent_cases (lt_of_findTa hi) hm).2⟩
  cases call_cases h with
  | unknownCourse | notWaiting | unknownTa => exact hq
  | alreadyWaiting => exact keeps.turnAway q hq
  | added name code c hc => exact keeps.enqueue q name code c hc hq
  | gaveUp name s hs => exact keeps.bail q s (List.mem_of_find?_eq_some hs) hq
  | hired name => exact keeps.hire q name hq
  | fired name i m hi hm =>
    obtain ⟨kept, unserved, lt⟩ := after hi hm
    exact keeps.fire m i lt unserved kept
  | emptyQueue taName i m hi hm | invalidCourse taName code i m hi hm =>
    obtain ⟨kept, unserved, lt⟩ := after hi hm
    exact keeps.letGo m i lt unserved kept
  | tookOverall taName i m s rest hi hm hqueue =>
    obtain ⟨kept, unserved, lt⟩ := after hi hm
    exact keeps.serve m i s [] rest lt unserved hqueue (by simp) kept
  | emptyCourse taName code i m c hi hm => exact (after hi hm).1
  | tookCourse taName code i m l r s hi hm hc hqueue others =>
    obtain ⟨kept, unserved, lt⟩ := after hi hm
    exact keeps.serve m i s l r lt unserved hqueue others kept

end DeskLists
