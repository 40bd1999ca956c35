import CSC209.A2.DeskReading
import Mathlib.Data.List.Perm.Basic
import Mathlib.Algebra.BigOperators.Group.List.Basic
import Mathlib.Algebra.Order.Ring.Int

/-!
# What the log of a help desk says

The log names each student by the node that its successful `add_student` made.
`Roll` relates the log to the queue and to the staff, `Sums` to the statistics
of the courses. Both hold of every state that the calls produce, whatever the
order of the calls; neither says that a student leaves only once.
-/

namespace DeskHistory

open NodeMemory HelpDesk DeskReading
open DeskLists
  (Lists Hold holdOf_eq serving_setHold serving_letGo setHold_ids setHold_get mem_setHold)

section Log

def addition : Event → Option (Addr × Nat × Int)
  | .added s c time => some (s, c, time)
  | _ => none

def giveUp : Event → Option (Addr × Int)
  | .gaveUp s time => some (s, time)
  | _ => none

def taking : Event → Option (Addr × Int)
  | .taken s time => some (s, time)
  | _ => none

/-- A student leaves the queue by being taken or by giving up. -/
def departure : Event → Option (Addr × Int)
  | .gaveUp s time => some (s, time)
  | .taken s time => some (s, time)
  | _ => none

def helpEnd : Event → Option (Addr × Int)
  | .ended s time => some (s, time)
  | _ => none

def additions (log : List Event) : List (Addr × Nat × Int) := log.filterMap addition
def giveUps (log : List Event) : List (Addr × Int) := log.filterMap giveUp
def takings (log : List Event) : List (Addr × Int) := log.filterMap taking
def departures (log : List Event) : List (Addr × Int) := log.filterMap departure
def helpEnds (log : List Event) : List (Addr × Int) := log.filterMap helpEnd

def addedIds (log : List Event) : List Addr := (additions log).map Prod.fst
def takenIds (log : List Event) : List Addr := (takings log).map Prod.fst
def endedIds (log : List Event) : List Addr := (helpEnds log).map Prod.fst
def bailedIds (log : List Event) : List Addr := (giveUps log).map Prod.fst

def courseOf (log : List Event) (s : Addr) : Option Nat := ((additions log).lookup s).map Prod.fst
def addTime (log : List Event) (s : Addr) : Int := (((additions log).lookup s).map Prod.snd).getD 0
def takenTime (log : List Event) (s : Addr) : Int := ((takings log).lookup s).getD 0

/-- The students of one course among some. -/
def ofCourse (log : List Event) (c : Nat) (students : List Addr) : List Addr :=
  students.filter fun s => courseOf log s = some c

/-- The time from the addition to the departure, over all departures of a course. -/
def waitSum (log : List Event) (c : Nat) : Int :=
  ((departures log).map fun e => if courseOf log e.1 = some c then e.2 - addTime log e.1 else 0).sum

/-- The time from being taken to the end of the help, over all ends of a course. -/
def helpSum (log : List Event) (c : Nat) : Int :=
  ((helpEnds log).map fun e => if courseOf log e.1 = some c then e.2 - takenTime log e.1 else 0).sum

variable {log : List Event} {e : Event} {s a : Addr} {c : Nat} {time : Int}

theorem additions_snoc : additions (log ++ [e]) = additions log ++ (addition e).toList := by
  cases h : addition e <;> simp [additions, h]

theorem giveUps_snoc : giveUps (log ++ [e]) = giveUps log ++ (giveUp e).toList := by
  cases h : giveUp e <;> simp [giveUps, h]

theorem takings_snoc : takings (log ++ [e]) = takings log ++ (taking e).toList := by
  cases h : taking e <;> simp [takings, h]

theorem departures_snoc : departures (log ++ [e]) = departures log ++ (departure e).toList := by
  cases h : departure e <;> simp [departures, h]

theorem helpEnds_snoc : helpEnds (log ++ [e]) = helpEnds log ++ (helpEnd e).toList := by
  cases h : helpEnd e <;> simp [helpEnds, h]

theorem addedIds_snoc :
    addedIds (log ++ [e]) = addedIds log ++ ((addition e).map Prod.fst).toList := by
  simp [addedIds, additions_snoc, Option.toList_map]

theorem takenIds_snoc :
    takenIds (log ++ [e]) = takenIds log ++ ((taking e).map Prod.fst).toList := by
  simp [takenIds, takings_snoc, Option.toList_map]

theorem endedIds_snoc :
    endedIds (log ++ [e]) = endedIds log ++ ((helpEnd e).map Prod.fst).toList := by
  simp [endedIds, helpEnds_snoc, Option.toList_map]

theorem bailedIds_snoc :
    bailedIds (log ++ [e]) = bailedIds log ++ ((giveUp e).map Prod.fst).toList := by
  simp [bailedIds, giveUps_snoc, Option.toList_map]

/-- A pair of a list with distinct keys is what looking up its key finds. -/
theorem lookup_of_mem {β : Type} {l : List (Addr × β)} {k : Addr} {b : β}
    (nodup : (l.map Prod.fst).Nodup) (h : (k, b) ∈ l) : l.lookup k = some b := by
  obtain ⟨before, after, rfl⟩ := List.append_of_mem h
  refine List.lookup_eq_some_iff.mpr ⟨before, after, rfl, ?_⟩
  intro p hp
  rw [List.map_append, List.map_cons] at nodup
  have differ := (List.nodup_append.mp nodup).2.2 p.1 (List.mem_map_of_mem hp) k List.mem_cons_self
  simpa using Ne.symm differ

theorem exists_lookup {β : Type} {l : List (Addr × β)} {k : Addr} (h : k ∈ l.map Prod.fst) :
    ∃ b, l.lookup k = some b := by
  obtain ⟨p, hp, rfl⟩ := List.mem_map.mp h
  exact Option.isSome_iff_exists.mp (List.lookup_isSome_iff.mpr ⟨p, hp, beq_self_eq_true _⟩)

/-- Later events do not change what the log says about a student that was added. -/
theorem lookup_snoc (known : s ∈ addedIds log) :
    (additions (log ++ [e])).lookup s = (additions log).lookup s := by
  obtain ⟨b, hb⟩ := exists_lookup known
  rw [additions_snoc, List.lookup_append, hb]
  rfl

theorem courseOf_snoc (known : s ∈ addedIds log) : courseOf (log ++ [e]) s = courseOf log s := by
  simp only [courseOf, lookup_snoc known]

theorem addTime_snoc (known : s ∈ addedIds log) : addTime (log ++ [e]) s = addTime log s := by
  simp only [addTime, lookup_snoc known]

theorem takenTime_snoc (known : s ∈ takenIds log) : takenTime (log ++ [e]) s = takenTime log s := by
  obtain ⟨b, hb⟩ := exists_lookup known
  simp only [takenTime, takings_snoc, List.lookup_append, hb]
  rfl

theorem ofCourse_snoc {l : List Addr} (known : ∀ s ∈ l, s ∈ addedIds log) :
    ofCourse (log ++ [e]) c l = ofCourse log c l := by
  refine List.filter_congr fun s hs => ?_
  rw [courseOf_snoc (known s hs)]

theorem ofCourse_append (l r : List Addr) :
    ofCourse log c (l ++ r) = ofCourse log c l ++ ofCourse log c r :=
  List.filter_append ..

end Log

/-- The queue, the staff and the log agree on who came, who was taken and who was helped. -/
structure Roll (q : Lists) : Prop where
  bound : ∀ s ∈ addedIds q.log, s < q.made
  addedOnce : (addedIds q.log).Nodup
  waiting : q.queue.map (fun s => (s.id, s.course, s.arrivalTime)) =
    (additions q.log).filter fun x => x.1 ∉ takenIds q.log
  takenOnce : (takenIds q.log).Nodup
  taken : ∀ s ∈ takenIds q.log, s ∈ addedIds q.log
  bailed : ∀ s ∈ bailedIds q.log, s ∈ addedIds q.log
  serving : ∀ s ∈ q.serving, (s.id, s.arrivalTime) ∈ takings q.log ∧
    courseOf q.log s.id = some s.course
  endings : (takenIds q.log).Perm (ids q.serving ++ endedIds q.log)
  released : ∀ t ∈ q.staff, ∀ a, t.hold = .released a → a ∈ endedIds q.log
  order : ∀ c, ofCourse q.log c (takenIds q.log) ++ ids (inCourse q.queue c) =
    ofCourse q.log c (addedIds q.log)

/-- The statistics of every course are counts and sums over the log. -/
def Sums (q : Lists) : Prop :=
  ∀ c x, q.courses[c]? = some x →
    x.helped = ((ofCourse q.log c (endedIds q.log)).length : Int) ∧
    x.bailed = ((ofCourse q.log c (bailedIds q.log)).length : Int) ∧
    x.waitTime = waitSum q.log c ∧ x.helpTime = helpSum q.log c

variable {clock : Nat → Int} {q : Lists} {s : DeskLists.Student} {t : DeskLists.Ta} {i c : Nat}

section Roll

/-- What the log says about a waiting student. -/
theorem Roll.of_waiting (roll : Roll q) (hs : s ∈ q.queue) :
    s.id ∈ addedIds q.log ∧ s.id ∉ takenIds q.log ∧ courseOf q.log s.id = some s.course ∧
      addTime q.log s.id = s.arrivalTime := by
  have mem :=
    List.mem_map_of_mem (f := fun s : DeskLists.Student => (s.id, s.course, s.arrivalTime)) hs
  rw [roll.waiting] at mem
  obtain ⟨mem, absent⟩ := List.mem_filter.mp mem
  have found := lookup_of_mem roll.addedOnce mem
  refine ⟨List.mem_map_of_mem (f := Prod.fst) mem, by simpa using absent, ?_, ?_⟩
  · simp [courseOf, found]
  · simp [addTime, found]

theorem Roll.queue_ids (roll : Roll q) :
    ids q.queue = (addedIds q.log).filter fun s => s ∉ takenIds q.log := by
  have := congrArg (List.map Prod.fst) roll.waiting
  rw [List.map_map] at this
  refine Eq.trans ?_ (this.trans ?_)
  · rfl
  · rw [addedIds, List.filter_map]
    rfl

theorem Roll.queue_nodup (roll : Roll q) : (ids q.queue).Nodup := by
  rw [roll.queue_ids]
  exact roll.addedOnce.filter _

theorem Roll.known_ended (roll : Roll q) {a : Addr} (h : a ∈ endedIds q.log) : a ∈ takenIds q.log :=
  roll.endings.mem_iff.mpr (List.mem_append_right _ h)

theorem Roll.of_served (roll : Roll q) (hs : s ∈ q.serving) :
    s.id ∈ takenIds q.log ∧ takenTime q.log s.id = s.arrivalTime := by
  have mem := (roll.serving s hs).1
  refine ⟨List.mem_map_of_mem (f := Prod.fst) mem, ?_⟩
  simp [takenTime, lookup_of_mem roll.takenOnce mem]

/-- A student whose help has ended is not being served any more, and it ended once. -/
theorem Roll.ended_nodup (roll : Roll q) : (ids q.serving ++ endedIds q.log).Nodup :=
  roll.endings.nodup_iff.mp roll.takenOnce

theorem Roll.congr {q' : Lists} (roll : Roll q) (log : q'.log = q.log) (queue : q'.queue = q.queue)
    (serving : q'.serving = q.serving) (made : q.made ≤ q'.made)
    (released : ∀ t ∈ q'.staff, ∀ a, t.hold = .released a → a ∈ endedIds q.log) : Roll q' := by
  obtain ⟨h1, h2, h3, h4, h5, h6, h7, h8, _, h10⟩ := roll
  constructor
  all_goals rw [log]
  · exact fun s hs => Nat.lt_of_lt_of_le (h1 s hs) made
  · exact h2
  · rw [queue]; exact h3
  · exact h4
  · exact h5
  · exact h6
  · rw [serving]; exact h7
  · rw [serving]; exact h8
  · exact released
  · rw [queue]; exact h10

theorem Roll.enqueue (roll : Roll q) (clock : Nat → Int) (name : CStrings.CString) (c : Nat) :
    Roll (DeskLists.enqueue clock q name c) := by
  let e : Event := .added q.made c (clock q.ticks)
  have fresh : q.made ∉ addedIds q.log := fun h => absurd (roll.bound q.made h) (Nat.lt_irrefl _)
  have log : (DeskLists.enqueue clock q name c).log = q.log ++ [e] := rfl
  have added : addedIds (q.log ++ [e]) = addedIds q.log ++ [q.made] := addedIds_snoc
  have taken : takenIds (q.log ++ [e]) = takenIds q.log := takenIds_snoc.trans (List.append_nil _)
  have ended : endedIds (q.log ++ [e]) = endedIds q.log := endedIds_snoc.trans (List.append_nil _)
  have bailed : bailedIds (q.log ++ [e]) = bailedIds q.log :=
    bailedIds_snoc.trans (List.append_nil _)
  have once : (addedIds (q.log ++ [e])).Nodup := by
    rw [added]
    exact List.nodup_append.mpr ⟨roll.addedOnce, List.nodup_singleton _, by
      rintro a ha b hb rfl
      exact fresh (List.mem_singleton.mp hb ▸ ha)⟩
  have here : courseOf (q.log ++ [e]) q.made = some c := by
    have mem : (q.made, c, clock q.ticks) ∈ additions (q.log ++ [e]) := by
      simp [additions_snoc, e, addition]
    rw [courseOf, lookup_of_mem once mem]
    rfl
  constructor
  all_goals rw [log]
  · intro s hs
    rcases List.mem_append.mp (added ▸ hs) with hs | hs
    · exact Nat.lt_succ_of_lt (roll.bound s hs)
    · rw [List.mem_singleton.mp hs]
      exact Nat.lt_succ_self _
  · exact once
  · have untaken : q.made ∉ takenIds q.log := fun h => fresh (roll.taken _ h)
    rw [additions_snoc, taken, List.filter_append, ← roll.waiting]
    simp [DeskLists.enqueue, addition, e, untaken]
  · rw [taken]; exact roll.takenOnce
  · rw [taken, added]
    exact fun s hs => List.mem_append_left _ (roll.taken s hs)
  · rw [bailed, added]
    exact fun s hs => List.mem_append_left _ (roll.bailed s hs)
  · intro s hs
    rw [takings_snoc, courseOf_snoc (roll.taken _ (roll.of_served hs).1)]
    exact ⟨List.mem_append_left _ (roll.serving s hs).1, (roll.serving s hs).2⟩
  · rw [taken, ended]; exact roll.endings
  · rw [ended]; exact roll.released
  · intro k
    rw [taken, added, ofCourse_snoc roll.taken, ofCourse_append, ofCourse_snoc fun s hs => hs,
      ← roll.order k, List.append_assoc]
    refine congrArg _ ?_
    by_cases hk : c = k
    · subst hk
      simp [DeskLists.enqueue, inCourse, ids, ofCourse, here]
    · simp [DeskLists.enqueue, inCourse, ids, ofCourse, here, hk]

theorem Roll.bail (roll : Roll q) (clock : Nat → Int) (hs : s ∈ q.queue) :
    Roll (DeskLists.bail clock q s) := by
  let e : Event := .gaveUp s.id (clock q.ticks)
  have log : (DeskLists.bail clock q s).log = q.log ++ [e] := rfl
  have added : additions (q.log ++ [e]) = additions q.log :=
    additions_snoc.trans (List.append_nil _)
  have addedI : addedIds (q.log ++ [e]) = addedIds q.log := addedIds_snoc.trans (List.append_nil _)
  have taken : takenIds (q.log ++ [e]) = takenIds q.log := takenIds_snoc.trans (List.append_nil _)
  have ended : endedIds (q.log ++ [e]) = endedIds q.log := endedIds_snoc.trans (List.append_nil _)
  constructor
  all_goals rw [log]
  · rw [addedI]; exact roll.bound
  · rw [addedI]; exact roll.addedOnce
  · rw [added, taken]; exact roll.waiting
  · rw [taken]; exact roll.takenOnce
  · rw [taken, addedI]; exact roll.taken
  · intro a ha
    rw [addedI]
    rcases List.mem_append.mp (bailedIds_snoc ▸ ha) with ha | ha
    · exact roll.bailed a ha
    · rw [show a = s.id by simpa [e, giveUp] using ha]
      exact (roll.of_waiting hs).1
  · intro u hu
    rw [takings_snoc, courseOf_snoc (roll.taken _ (roll.of_served hu).1)]
    exact ⟨List.mem_append_left _ (roll.serving u hu).1, (roll.serving u hu).2⟩
  · rw [taken, ended]; exact roll.endings
  · rw [ended]; exact roll.released
  · intro k
    rw [taken, addedI, ofCourse_snoc roll.taken, ofCourse_snoc fun s hs => hs]
    exact roll.order k

theorem Roll.release (roll : Roll q) (clock : Nat → Int) (hi : q.staff[i]? = some t)
    (hs : q.holdOf i = .serving s) : Roll (DeskLists.release clock q i s) := by
  let e : Event := .ended s.id (clock q.ticks)
  have log : (DeskLists.release clock q i s).log = q.log ++ [e] := rfl
  have added : additions (q.log ++ [e]) = additions q.log :=
    additions_snoc.trans (List.append_nil _)
  have addedI : addedIds (q.log ++ [e]) = addedIds q.log := addedIds_snoc.trans (List.append_nil _)
  have taken : takenIds (q.log ++ [e]) = takenIds q.log := takenIds_snoc.trans (List.append_nil _)
  have ended : endedIds (q.log ++ [e]) = endedIds q.log ++ [s.id] := endedIds_snoc
  have bailed : bailedIds (q.log ++ [e]) = bailedIds q.log :=
    bailedIds_snoc.trans (List.append_nil _)
  obtain ⟨before, after, hserving, hset⟩ := serving_setHold hi
  rw [hs] at hserving
  have serving : (DeskLists.release clock q i s).serving = before ++ after := hset (.released s.id)
  constructor
  all_goals rw [log]
  · rw [addedI]; exact roll.bound
  · rw [addedI]; exact roll.addedOnce
  · rw [added, taken]; exact roll.waiting
  · rw [taken]; exact roll.takenOnce
  · rw [taken, addedI]; exact roll.taken
  · rw [bailed, addedI]; exact roll.bailed
  · rw [serving]
    intro u hu
    have mem : u ∈ q.serving := by
      rw [hserving]
      simp only [List.mem_append] at hu ⊢
      tauto
    rw [takings_snoc, courseOf_snoc (roll.taken _ (roll.of_served mem).1)]
    exact ⟨List.mem_append_left _ (roll.serving u mem).1, (roll.serving u mem).2⟩
  · rw [taken, ended, serving]
    refine roll.endings.trans ?_
    rw [hserving]
    simp only [Hold.served, Option.toList_some, ids_append, ids_cons, List.nil_append,
      List.append_assoc, List.cons_append]
    refine List.perm_middle.trans ?_
    simp only [← List.append_assoc]
    exact (List.perm_append_singleton s.id _).symm
  · rw [ended]
    intro u hu a ha
    rcases mem_setHold hi hu with rfl | ⟨j, _, hj⟩
    · cases ha
      simp
    · exact List.mem_append_left _ (roll.released u (List.mem_of_getElem? hj) a ha)
  · intro k
    rw [taken, addedI, ofCourse_snoc roll.taken, ofCourse_snoc fun s hs => hs]
    exact roll.order k

theorem Roll.serve {l r : List DeskLists.Student} (roll : Roll q) (clock : Nat → Int)
    (hi : q.staff[i]? = some t) (unserved : (q.holdOf i).served = none)
    (hq : q.queue = l ++ s :: r) (first : ∀ u ∈ l, u.course ≠ s.course) :
    Roll (DeskLists.serve clock q i s (l ++ r)) := by
  let e : Event := .taken s.id (clock q.ticks)
  have mem : s ∈ q.queue := by simp [hq]
  obtain ⟨known, untaken, course, _⟩ := roll.of_waiting mem
  have log : (DeskLists.serve clock q i s (l ++ r)).log = q.log ++ [e] := rfl
  have added : additions (q.log ++ [e]) = additions q.log :=
    additions_snoc.trans (List.append_nil _)
  have addedI : addedIds (q.log ++ [e]) = addedIds q.log := addedIds_snoc.trans (List.append_nil _)
  have taken : takenIds (q.log ++ [e]) = takenIds q.log ++ [s.id] := takenIds_snoc
  have ended : endedIds (q.log ++ [e]) = endedIds q.log := endedIds_snoc.trans (List.append_nil _)
  have bailed : bailedIds (q.log ++ [e]) = bailedIds q.log :=
    bailedIds_snoc.trans (List.append_nil _)
  obtain ⟨before, after, hserving, hset⟩ := serving_setHold hi
  rw [unserved] at hserving
  have serving : (DeskLists.serve clock q i s (l ++ r)).serving =
      before ++ ({ s with arrivalTime := clock q.ticks } :: after) := hset (.serving _)
  have stays : ∀ u ∈ takenIds q.log ++ [s.id], u ∈ addedIds q.log := by
    intro u hu
    rcases List.mem_append.mp hu with hu | hu
    · exact roll.taken u hu
    · exact List.mem_singleton.mp hu ▸ known
  have apart : ∀ u ∈ l ++ r, u.id ≠ s.id := by
    have nodup := roll.queue_nodup
    rw [hq, ids_append, ids_cons] at nodup
    have := (List.nodup_cons.mp (List.perm_middle.nodup_iff.mp nodup)).1
    intro u hu same
    exact this (ids_append (r := r) ▸ mem_ids.mpr ⟨u, hu, same⟩)
  constructor
  all_goals rw [log]
  · rw [addedI]; exact roll.bound
  · rw [addedI]; exact roll.addedOnce
  · rw [added, taken]
    have filters : (additions q.log).filter (fun x => x.1 ∉ takenIds q.log ++ [s.id]) =
        ((additions q.log).filter fun x => x.1 ∉ takenIds q.log).filter fun x => x.1 ≠ s.id := by
      rw [List.filter_filter]
      refine List.filter_congr fun x _ => ?_
      simp [not_or, and_comm]
    have rest : (l ++ s :: r).filter (fun u => u.id ≠ s.id) = l ++ r := by
      rw [List.filter_append, List.filter_cons_of_neg (by simp), ← List.filter_append]
      exact List.filter_eq_self.mpr fun u hu => by simpa using apart u hu
    rw [filters, ← roll.waiting, hq, List.filter_map, ← rest]
    rfl
  · rw [taken]
    exact List.nodup_append.mpr ⟨roll.takenOnce, List.nodup_singleton _, by
      rintro a ha b hb rfl
      exact untaken (List.mem_singleton.mp hb ▸ ha)⟩
  · rw [taken, addedI]; exact stays
  · rw [bailed, addedI]; exact roll.bailed
  · rw [serving]
    intro u hu
    rw [takings_snoc]
    have cases_u : u = { s with arrivalTime := clock q.ticks } ∨ u ∈ q.serving := by
      rw [hserving]
      simp only [List.mem_append, List.mem_cons, Option.toList_none, List.nil_append] at hu ⊢
      tauto
    rcases cases_u with rfl | hu
    · rw [courseOf_snoc known]
      exact ⟨by simp [e, taking], course⟩
    · rw [courseOf_snoc (roll.taken _ (roll.of_served hu).1)]
      exact ⟨List.mem_append_left _ (roll.serving u hu).1, (roll.serving u hu).2⟩
  · rw [taken, ended, serving]
    refine (roll.endings.append_right [s.id]).trans ?_
    rw [hserving]
    simp only [ids_append, ids_cons, Option.toList_none, List.nil_append, List.append_assoc,
      List.cons_append]
    refine List.Perm.trans ?_ List.perm_middle.symm
    simp only [← List.append_assoc]
    exact List.perm_append_singleton s.id _
  · rw [ended]
    intro u hu a ha
    rcases mem_setHold hi hu with rfl | ⟨j, _, hj⟩
    · cases ha
    · exact roll.released u (List.mem_of_getElem? hj) a ha
  · intro k
    rw [taken, addedI, ofCourse_snoc stays, ofCourse_snoc fun s hs => hs, ← roll.order k, hq,
      ofCourse_append, List.append_assoc]
    refine congrArg _ ?_
    by_cases hk : s.course = k
    · subst hk
      rw [DeskLists.serve_queue, inCourse_append, inCourse_append, inCourse_eq_nil first,
        inCourse_cons_same rfl]
      simp [ofCourse, course]
    · rw [DeskLists.serve_queue, inCourse_append, inCourse_append, inCourse_cons_other hk]
      simp [ofCourse, course, hk]

end Roll

section Sums

theorem waitSum_snoc {log : List Event} {e : Event}
    (known : ∀ x ∈ departures log, x.1 ∈ addedIds log) :
    waitSum (log ++ [e]) c = waitSum log c + ((departure e).map fun x =>
      if courseOf (log ++ [e]) x.1 = some c then x.2 - addTime (log ++ [e]) x.1 else 0).getD 0 := by
  have old : ((departures log).map fun x =>
      if courseOf (log ++ [e]) x.1 = some c then x.2 - addTime (log ++ [e]) x.1 else 0).sum =
      waitSum log c := by
    rw [waitSum]
    congr 1
    refine List.map_congr_left fun x hx => ?_
    rw [courseOf_snoc (known x hx), addTime_snoc (known x hx)]
  rw [waitSum, departures_snoc, List.map_append, List.sum_append, old]
  cases departure e <;> simp

theorem helpSum_snoc {log : List Event} {e : Event}
    (known : ∀ x ∈ helpEnds log, x.1 ∈ addedIds log ∧ x.1 ∈ takenIds log) :
    helpSum (log ++ [e]) c = helpSum log c + ((helpEnd e).map fun x =>
      if courseOf (log ++ [e]) x.1 = some c then x.2 - takenTime (log ++ [e]) x.1 else
        0).getD 0 := by
  have old : ((helpEnds log).map fun x =>
      if courseOf (log ++ [e]) x.1 = some c then x.2 - takenTime (log ++ [e]) x.1 else 0).sum =
      helpSum log c := by
    rw [helpSum]
    congr 1
    refine List.map_congr_left fun x hx => ?_
    rw [courseOf_snoc (known x hx).1, takenTime_snoc (known x hx).2]
  rw [helpSum, helpEnds_snoc, List.map_append, List.sum_append, old]
  cases helpEnd e <;> simp

theorem mem_departures {log : List Event} {x : Addr × Int} (hx : x ∈ departures log) :
    x.1 ∈ takenIds log ∨ x.1 ∈ bailedIds log := by
  obtain ⟨e, he, hd⟩ := List.mem_filterMap.mp hx
  cases e with
  | gaveUp s time =>
    obtain rfl := Option.some.inj hd
    exact .inr (List.mem_map.mpr ⟨(s, time), List.mem_filterMap.mpr ⟨_, he, rfl⟩, rfl⟩)
  | taken s time =>
    obtain rfl := Option.some.inj hd
    exact .inl (List.mem_map.mpr ⟨(s, time), List.mem_filterMap.mpr ⟨_, he, rfl⟩, rfl⟩)
  | added s c time => cases hd
  | ended s time => cases hd

theorem Roll.departed (roll : Roll q) : ∀ x ∈ departures q.log, x.1 ∈ addedIds q.log := by
  intro x hx
  rcases mem_departures hx with h | h
  · exact roll.taken _ h
  · exact roll.bailed _ h

theorem Roll.helped (roll : Roll q) :
    ∀ x ∈ helpEnds q.log, x.1 ∈ addedIds q.log ∧ x.1 ∈ takenIds q.log := by
  intro x hx
  have taken := roll.known_ended (List.mem_map_of_mem (f := Prod.fst) hx)
  exact ⟨roll.taken _ taken, taken⟩

/-- One event changes the four numbers of each course by its own share. -/
theorem Sums.note {q' : Lists} {e : Event} (sums : Sums q) (roll : Roll q)
    (log : q'.log = q.log ++ [e]) {f : Nat → DeskLists.Course → DeskLists.Course}
    (courses : ∀ c, q'.courses[c]? = (q.courses[c]?).map (f c))
    (helped : ∀ c x, (f c x).helped = x.helped +
      (ofCourse q'.log c ((helpEnd e).map Prod.fst).toList).length)
    (bailed : ∀ c x, (f c x).bailed = x.bailed +
      (ofCourse q'.log c ((giveUp e).map Prod.fst).toList).length)
    (wait : ∀ c x, (f c x).waitTime = x.waitTime + ((departure e).map fun x =>
      if courseOf q'.log x.1 = some c then x.2 - addTime q'.log x.1 else 0).getD 0)
    (help : ∀ c x, (f c x).helpTime = x.helpTime + ((helpEnd e).map fun x =>
      if courseOf q'.log x.1 = some c then x.2 - takenTime q'.log x.1 else
        0).getD 0) : Sums q' := by
  intro c y hy
  rw [courses c] at hy
  obtain ⟨x, hx, rfl⟩ := Option.map_eq_some_iff.mp hy
  obtain ⟨h1, h2, h3, h4⟩ := sums c x hx
  have known : ∀ a ∈ endedIds q.log, a ∈ addedIds q.log :=
    fun a ha => roll.taken a (roll.known_ended ha)
  refine ⟨?_, ?_, ?_, ?_⟩
  · rw [helped c x, h1, log, endedIds_snoc, ofCourse_append, ofCourse_snoc known,
      List.length_append]
    push_cast
    rfl
  · rw [bailed c x, h2, log, bailedIds_snoc, ofCourse_append, ofCourse_snoc roll.bailed,
      List.length_append]
    push_cast
    rfl
  · rw [wait c x, h3, log, waitSum_snoc roll.departed]
  · rw [help c x, h4, log, helpSum_snoc roll.helped]

theorem modify_course {courses : List DeskLists.Course}
    {f : DeskLists.Course → DeskLists.Course} (k : Nat) :
    (courses.modify k f)[c]? = (courses[c]?).map fun x => if k = c then f x else x := by
  rw [List.getElem?_modify]
  rfl

theorem Sums.enqueue (sums : Sums q) (roll : Roll q) (clock : Nat → Int) (name : CStrings.CString)
    (c : Nat) : Sums (DeskLists.enqueue clock q name c) :=
  sums.note roll rfl (f := fun _ x => x) (fun _ => by simp [DeskLists.enqueue])
    (by simp [helpEnd, ofCourse]) (by simp [giveUp, ofCourse]) (by simp [departure])
      (by simp [helpEnd])

theorem Sums.bail (sums : Sums q) (roll : Roll q) (clock : Nat → Int) (hs : s ∈ q.queue) :
    Sums (DeskLists.bail clock q s) := by
  obtain ⟨known, _, course, time⟩ := roll.of_waiting hs
  have here : courseOf (DeskLists.bail clock q s).log s.id = some s.course :=
    (courseOf_snoc known).trans course
  have since : addTime (DeskLists.bail clock q s).log s.id = s.arrivalTime :=
    (addTime_snoc known).trans time
  refine sums.note roll rfl (fun _ => modify_course s.course) ?_ ?_ ?_ ?_
  all_goals
    intro c x
    by_cases hk : s.course = c <;> simp [helpEnd, giveUp, departure, ofCourse, here, since, hk]

theorem Sums.release (sums : Sums q) (roll : Roll q) (clock : Nat → Int) (hs : s ∈ q.serving) :
    Sums (DeskLists.release clock q i s) := by
  obtain ⟨taken, time⟩ := roll.of_served hs
  have here : courseOf (DeskLists.release clock q i s).log s.id = some s.course :=
    (courseOf_snoc (roll.taken _ taken)).trans (roll.serving s hs).2
  have since : takenTime (DeskLists.release clock q i s).log s.id = s.arrivalTime :=
    (takenTime_snoc taken).trans time
  refine sums.note roll rfl (fun _ => modify_course s.course) ?_ ?_ ?_ ?_
  all_goals
    intro c x
    by_cases hk : s.course = c <;> simp [helpEnd, giveUp, departure, ofCourse, here, since, hk]

theorem Sums.serve {rest : List DeskLists.Student} (sums : Sums q) (roll : Roll q)
    (clock : Nat → Int) (hs : s ∈ q.queue) : Sums (DeskLists.serve clock q i s rest) := by
  obtain ⟨known, _, course, time⟩ := roll.of_waiting hs
  have here : courseOf (DeskLists.serve clock q i s rest).log s.id = some s.course :=
    (courseOf_snoc known).trans course
  have since : addTime (DeskLists.serve clock q i s rest).log s.id = s.arrivalTime :=
    (addTime_snoc known).trans time
  refine sums.note roll rfl (fun _ => modify_course s.course) ?_ ?_ ?_ ?_
  all_goals
    intro c x
    by_cases hk : s.course = c <;> simp [helpEnd, giveUp, departure, ofCourse, here, since, hk]

end Sums

/-- The log accounts for the state. -/
structure History (q : Lists) : Prop where
  roll : Roll q
  sums : Sums q

theorem history_kept (clock : Nat → Int) : DeskLists.KeptBy clock History where
  turnAway q h :=
    ⟨h.roll.congr rfl rfl rfl (Nat.le_succ _) h.roll.released, h.sums⟩
  enqueue q name code c _ h :=
    ⟨h.roll.enqueue clock name c, h.sums.enqueue h.roll clock name c⟩
  bail q s hs h := ⟨h.roll.bail clock hs, h.sums.bail h.roll clock hs⟩
  hire q name h := by
    refine ⟨h.roll.congr rfl rfl ?_ (Nat.le_refl _) ?_, h.sums⟩
    · simp [DeskLists.hire, Lists.serving, Hold.served]
    · intro t ht a ha
      rcases List.mem_cons.mp ht with rfl | ht
      · cases ha
      · exact h.roll.released t ht a ha
  release q i s hi hs h := by
    have ht := List.getElem?_eq_getElem hi
    have mem : s ∈ q.serving := by
      obtain ⟨before, after, hserving, _⟩ := serving_setHold ht
      rw [hserving, hs]
      simp [Hold.served]
    exact ⟨h.roll.release clock ht hs, h.sums.release h.roll clock mem⟩
  letGo q i hi unserved h := by
    have ht := List.getElem?_eq_getElem hi
    refine ⟨h.roll.congr rfl rfl (serving_letGo ht unserved rfl) (Nat.le_refl _) ?_, h.sums⟩
    intro u hu a ha
    rcases mem_setHold ht hu with rfl | ⟨j, _, hj⟩
    · cases ha
    · exact h.roll.released u (List.mem_of_getElem? hj) a ha
  serve q i s l r hi unserved hq first h :=
    ⟨h.roll.serve clock (List.getElem?_eq_getElem hi) unserved hq first,
      h.sums.serve h.roll clock (by simp [hq])⟩
  fire q i hi unserved h := by
    refine ⟨h.roll.congr rfl rfl ?_ (Nat.le_refl _) ?_, h.sums⟩
    · exact DeskLists.serving_fire (List.getElem?_eq_getElem hi) unserved
    · exact fun u hu => h.roll.released u (List.mem_of_mem_eraseIdx hu)

end DeskHistory
