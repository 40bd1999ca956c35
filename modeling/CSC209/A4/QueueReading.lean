import CSC209.A4.QueueHeap
import CSC209.LinkedChain

/-!
# Reading the queue off a heap

`WellFormed h ss ts` says of a heap that `stu_list` and `ta_list` are chains
through the live nodes `ss` and `ts`, that waiting names are distinct, that no
student node is in two places and that every current student is live.
`abstraction` reads the queue off such a heap, node addresses serving as the
identities of the entries. The loops of the pointer operations are followed
along the chains here; fuel beyond the number of nodes suffices for each.
-/

namespace QueueReading

open CStrings HelpQueue QueueHeap LinkedChain

section Reading

variable (h : Heap)

def stuLink (a : Addr) : Option (Option Addr) :=
  match h.students a with
  | .live n => some n.nextOverall
  | _ => none

def taLink (a : Addr) : Option (Option Addr) :=
  match h.tas a with
  | .live n => some n.next
  | _ => none

def studentName (a : Addr) : Option CString :=
  match h.students a with
  | .live n => some n.name
  | _ => none

def currentOf (a : Addr) : Option Addr :=
  match h.tas a with
  | .live n => n.currentStudent
  | _ => none

def StudentLive (a : Addr) : Prop := ∃ n, h.students a = .live n

def TaLive (a : Addr) : Prop := ∃ n, h.tas a = .live n

instance (h : Heap) (a : Addr) : Decidable (StudentLive h a) :=
  match live : h.students a with
  | .live n => isTrue ⟨n, live⟩
  | .unused => isFalse (by simp [StudentLive, live])
  | .freed => isFalse (by simp [StudentLive, live])

instance (h : Heap) (a : Addr) : Decidable (TaLive h a) :=
  match live : h.tas a with
  | .live n => isTrue ⟨n, live⟩
  | .unused => isFalse (by simp [TaLive, live])
  | .freed => isFalse (by simp [TaLive, live])

/-- A node's entry. No operation follows the course pointer: NULL reads as a course
without a code. -/
def entry (a : Addr) (n : StudentNode) : Student := ⟨a, n.name, n.course.getD ⟨[]⟩⟩

def absStudent (a : Addr) : Option Student :=
  match h.students a with
  | .live n => some (entry a n)
  | _ => none

def absTa (a : Addr) : Option Ta :=
  match h.tas a with
  | .live n => some ⟨a, n.name, n.currentStudent.bind (absStudent h)⟩
  | _ => none

/-- The queue that a heap holds on the chains `ss` and `ts`. -/
def abstraction (ss ts : List Addr) : Lists :=
  ⟨ss.filterMap (absStudent h), ts.filterMap (absTa h)⟩

/-- The conditions on the two lists: chains of live nodes, distinct waiting names, and
no student node shared between the queue and the TAs or between two TAs. -/
structure Separated (ss ts : List Addr) : Prop where
  stuChain : Chain (stuLink h) h.stuList ss
  taChain : Chain (taLink h) h.taList ts
  names : (ss.map (studentName h)).Nodup
  apart : ∀ t ∈ ts, ∀ s ∈ ss, currentOf h t ≠ some s
  unshared : ∀ t ∈ ts, ∀ u ∈ ts, ∀ s, currentOf h t = some s → currentOf h u = some s → t = u

/-- Separated lists in which every current student is a live node. -/
structure WellFormed (ss ts : List Addr) : Prop extends Separated h ss ts where
  held : ∀ t ∈ ts, ∀ s, currentOf h t = some s → StudentLive h s

/-- The heap holds the entries of `q`, at the addresses that identify them. -/
structure Represents (q : Lists) : Prop where
  stuChain : Chain (stuLink h) h.stuList (q.stuList.map Student.id)
  taChain : Chain (taLink h) h.taList (q.taList.map Ta.id)
  students : ∀ s ∈ q.stuList ++ serving q.taList, absStudent h s.id = some s
  tas : ∀ t ∈ q.taList, ∃ next, h.tas t.id = .live ⟨t.name, t.currentStudent.map Student.id, next⟩
  valid : q.Valid

/-- Exactly the nodes that leave the lists are freed: a node of the old lists is live
afterwards iff it is in the new ones, and no other node changes between live and not. -/
def FreesExactly (h h' : Heap) (q q' : Lists) : Prop :=
  (∀ a, StudentLive h' a ↔ a ∈ (q'.stuList ++ serving q'.taList).map Student.id ∨
    (StudentLive h a ∧ a ∉ (q.stuList ++ serving q.taList).map Student.id)) ∧
  ∀ a, TaLive h' a ↔ a ∈ q'.taList.map Ta.id ∨ (TaLive h a ∧ a ∉ q.taList.map Ta.id)

end Reading

section Access

variable {h : Heap} {a b : Addr}

theorem student_live_iff : StudentLive h a ↔ ∃ s, absStudent h a = some s := by
  unfold StudentLive absStudent
  cases h.students a <;> simp

theorem absStudent_some {s : Student} (hs : absStudent h a = some s) :
    ∃ n, h.students a = .live n ∧ entry a n = s := by
  unfold absStudent at hs
  cases hc : h.students a with
  | unused => simp [hc] at hs
  | live n => exact ⟨n, rfl, by simpa [hc] using hs⟩
  | freed => simp [hc] at hs

theorem absStudent_id {s : Student} (hs : absStudent h a = some s) : s.id = a := by
  obtain ⟨n, _, rfl⟩ := absStudent_some hs
  rfl

theorem student_ok {n : StudentNode} (hn : h.students a = .live n) :
    h.student (some a) = .ok n := by
  simp [Heap.student, hn]

theorem ta_ok {n : TaNode} (hn : h.tas a = .live n) : h.ta (some a) = .ok n := by
  simp [Heap.ta, hn]

theorem stuLink_live {n : StudentNode} (hn : h.students a = .live n) :
    stuLink h a = some n.nextOverall := by
  simp [stuLink, hn]

theorem taLink_live {n : TaNode} (hn : h.tas a = .live n) : taLink h a = some n.next := by
  simp [taLink, hn]

/-- An address that can be followed is that of a live node. -/
theorem student_of_link {next : Option Addr} (hlink : stuLink h a = some next) :
    ∃ n, h.students a = .live n ∧ n.nextOverall = next := by
  cases hc : h.students a with
  | live n => exact ⟨n, rfl, Option.some.inj ((stuLink_live hc).symm.trans hlink)⟩
  | unused => simp [stuLink, hc] at hlink
  | freed => simp [stuLink, hc] at hlink

theorem ta_of_link {next : Option Addr} (hlink : taLink h a = some next) :
    ∃ n, h.tas a = .live n ∧ n.next = next := by
  cases hc : h.tas a with
  | live n => exact ⟨n, rfl, Option.some.inj ((taLink_live hc).symm.trans hlink)⟩
  | unused => simp [taLink, hc] at hlink
  | freed => simp [taLink, hc] at hlink

@[simp] theorem setStudent_same (c : Cell StudentNode) : (h.setStudent a c).students a = c := by
  simp [Heap.setStudent]

theorem setStudent_other (c : Cell StudentNode) (hne : b ≠ a) :
    (h.setStudent a c).students b = h.students b := by
  simp [Heap.setStudent, hne]

@[simp] theorem setTa_same (c : Cell TaNode) : (h.setTa a c).tas a = c := by
  simp [Heap.setTa]

theorem setTa_other (c : Cell TaNode) (hne : b ≠ a) : (h.setTa a c).tas b = h.tas b := by
  simp [Heap.setTa, hne]

@[simp] theorem setStudent_tas (c : Cell StudentNode) : (h.setStudent a c).tas = h.tas := rfl
@[simp] theorem setStudent_stuList (c : Cell StudentNode) :
    (h.setStudent a c).stuList = h.stuList := rfl
@[simp] theorem setStudent_taList (c : Cell StudentNode) :
    (h.setStudent a c).taList = h.taList := rfl
@[simp] theorem setTa_students (c : Cell TaNode) : (h.setTa a c).students = h.students := rfl
@[simp] theorem setTa_stuList (c : Cell TaNode) : (h.setTa a c).stuList = h.stuList := rfl
@[simp] theorem setTa_taList (c : Cell TaNode) : (h.setTa a c).taList = h.taList := rfl

theorem stuLink_congr {h h' : Heap} (same : h'.students a = h.students a) :
    stuLink h' a = stuLink h a := by
  simp [stuLink, same]

theorem taLink_congr {h h' : Heap} (same : h'.tas a = h.tas a) : taLink h' a = taLink h a := by
  simp [taLink, same]

theorem absStudent_congr {h h' : Heap} (same : h'.students a = h.students a) :
    absStudent h' a = absStudent h a := by
  simp [absStudent, same]

/-- Changing only the link of a node changes only its link. -/
theorem stuLink_relink {n : StudentNode} (q : Option Addr) :
    stuLink (h.setStudent a (.live { n with nextOverall := q })) =
      Function.update (stuLink h) a (some q) := by
  funext b
  by_cases hb : b = a
  · subst hb; simp [stuLink]
  · simp [stuLink, setStudent_other _ hb, hb]

theorem absStudent_relink {n : StudentNode} (hn : h.students a = .live n) (q : Option Addr) :
    absStudent (h.setStudent a (.live { n with nextOverall := q })) = absStudent h := by
  funext b
  by_cases hb : b = a
  · subst hb; simp [absStudent, hn, entry]
  · exact absStudent_congr (setStudent_other _ hb)

theorem linkStudent_ok {n : StudentNode} (hn : h.students a = .live n) (q : Option Addr) :
    h.linkStudent (some a) q = .ok (h.setStudent a (.live { n with nextOverall := q })) := by
  simp [Heap.linkStudent, student_ok hn, bind, Except.bind]

theorem freeStudent_ok {n : StudentNode} (hn : h.students a = .live n) :
    h.freeStudent (some a) = .ok (h.setStudent a .freed) := by
  simp [Heap.freeStudent, student_ok hn, bind, Except.bind]

theorem freeTa_ok {n : TaNode} (hn : h.tas a = .live n) :
    h.freeTa (some a) = .ok (h.setTa a .freed) := by
  simp [Heap.freeTa, ta_ok hn, bind, Except.bind]

end Access

section Loops

variable {h : Heap}

/-- Scanning a chain whose nodes hold the entries `l` finds the first entry of the name. -/
theorem findStudent_chain (name : CString) {l : List Student} {p : Option Addr} {fuel : Nat}
    (chain : Chain (stuLink h) p (l.map Student.id))
    (nodes : ∀ s ∈ l, absStudent h s.id = some s) (enough : l.length < fuel) :
    QueueHeap.findStudent h name fuel p =
      .ok ((HelpQueue.findStudent l name).map Student.id) := by
  induction l generalizing p fuel with
  | nil =>
    obtain ⟨fuel, rfl⟩ := exists_fuel enough
    obtain rfl : p = none := chain
    rfl
  | cons s rest ih =>
    obtain ⟨fuel, rfl⟩ := exists_fuel enough
    obtain ⟨rfl, next, hlink, hrest⟩ := chain
    obtain ⟨n, hn, hentry⟩ := absStudent_some (nodes s List.mem_cons_self)
    have hname : n.name = s.name := congrArg Student.name hentry
    have hnext : n.nextOverall = next := Option.some.inj ((stuLink_live hn).symm.trans hlink)
    simp only [QueueHeap.findStudent, student_ok hn, bind, Except.bind, hname, hnext]
    by_cases hit : s.name = name
    · simp [HelpQueue.findStudent, hit]
    · rw [if_neg hit, ih hrest (fun u hu => nodes u (List.mem_cons_of_mem s hu))
        (by simp at enough; omega)]
      simp [HelpQueue.findStudent, hit]

theorem findTa_chain (name : CString) {l : List Ta} {p : Option Addr} {fuel : Nat}
    (chain : Chain (taLink h) p (l.map Ta.id))
    (nodes : ∀ t ∈ l, ∃ next, h.tas t.id = .live ⟨t.name, t.currentStudent.map Student.id, next⟩)
    (enough : l.length < fuel) :
    QueueHeap.findTa h name fuel p = .ok ((HelpQueue.findTa l name).map Ta.id) := by
  induction l generalizing p fuel with
  | nil =>
    obtain ⟨fuel, rfl⟩ := exists_fuel enough
    obtain rfl : p = none := chain
    rfl
  | cons t rest ih =>
    obtain ⟨fuel, rfl⟩ := exists_fuel enough
    obtain ⟨rfl, next, hlink, hrest⟩ := chain
    obtain ⟨nx, hn⟩ := nodes t List.mem_cons_self
    have hnext : nx = next := Option.some.inj ((taLink_live hn).symm.trans hlink)
    simp only [QueueHeap.findTa, ta_ok hn, bind, Except.bind, hnext]
    by_cases hit : t.name = name
    · simp [HelpQueue.findTa, hit]
    · rw [if_neg hit, ih hrest (fun u hu => nodes u (List.mem_cons_of_mem t hu))
        (by simp at enough; omega)]
      simp [HelpQueue.findTa, hit]

theorem lastStudent_chain (fuel : Nat) {l : List Addr} {a : Addr} {p : Option Addr}
    (chain : Chain (stuLink h) p (l ++ [a])) (enough : l.length < fuel) :
    lastStudent h fuel p = .ok (some a) := by
  induction l generalizing p fuel with
  | nil =>
    obtain ⟨fuel, rfl⟩ := exists_fuel enough
    obtain ⟨rfl, next, hlink, hend⟩ := chain
    obtain rfl : next = none := hend
    obtain ⟨n, hn, hnext⟩ := student_of_link hlink
    simp [lastStudent, student_ok hn, bind, Except.bind, hnext]
  | cons b rest ih =>
    obtain ⟨fuel, rfl⟩ := exists_fuel enough
    obtain ⟨rfl, next, hlink, hrest⟩ := chain
    obtain ⟨n, hn, hnext⟩ := student_of_link hlink
    have some_next : ∃ c, next = some c := by
      cases rest with
      | nil => exact ⟨a, hrest.1⟩
      | cons c _ => exact ⟨c, hrest.1⟩
    obtain ⟨c, rfl⟩ := some_next
    simp only [lastStudent, student_ok hn, bind, Except.bind, hnext]
    exact ih fuel hrest (by simp at enough; omega)

theorem previousStudent_chain (fuel : Nat) {l r : List Addr} {a b : Addr} {p : Option Addr}
    (chain : Chain (stuLink h) p (l ++ a :: b :: r)) (enough : l.length < fuel) :
    previousStudent h b fuel p = .ok (some a) := by
  induction l generalizing p fuel with
  | nil =>
    obtain ⟨fuel, rfl⟩ := exists_fuel enough
    obtain ⟨rfl, next, hlink, hrest⟩ := chain
    obtain rfl : next = some b := hrest.1
    obtain ⟨n, hn, hnext⟩ := student_of_link hlink
    simp [previousStudent, student_ok hn, bind, Except.bind, hnext]
  | cons c rest ih =>
    obtain ⟨fuel, rfl⟩ := exists_fuel enough
    have nodup := chain.nodup
    obtain ⟨rfl, next, hlink, hrest⟩ := chain
    obtain ⟨n, hn, hnext⟩ := student_of_link hlink
    -- the node after `c` is not `b`: `b` comes after `a`, which is still ahead
    have ahead : next ≠ some b := by
      have later := (List.nodup_cons.mp nodup).2
      cases rest with
      | nil =>
        rw [hrest.1]
        intro hab
        obtain rfl := Option.some.inj hab
        simp at later
      | cons d rest' =>
        rw [hrest.1]
        intro hdb
        obtain rfl := Option.some.inj hdb
        simp at later
    simp only [previousStudent, student_ok hn, bind, Except.bind, hnext, if_neg ahead]
    exact ih fuel hrest (by simp at enough; omega)

/-- `route_around_overall` unlinks its node and alters nothing but links. -/
theorem routeAround_chain (fuel : Nat) {l r : List Addr} {a : Addr}
    (chain : Chain (stuLink h) h.stuList (l ++ a :: r)) (enough : l.length < fuel) :
    ∃ h', routeAroundOverall a fuel h = .ok h' ∧ Chain (stuLink h') h'.stuList (l ++ r) ∧
      absStudent h' = absStudent h ∧ h'.tas = h.tas ∧ h'.taList = h.taList := by
  have nodup := chain.nodup
  obtain ⟨past, hpast⟩ := chain.readable (List.mem_append_right l List.mem_cons_self)
  obtain ⟨n, hc, _⟩ := student_of_link hpast
  rcases List.eq_nil_or_concat' l with rfl | ⟨l', b, rfl⟩
  · obtain ⟨hp, next, hlink, hrest⟩ := chain
    have hnext : n.nextOverall = next := Option.some.inj ((stuLink_live hc).symm.trans hlink)
    refine ⟨{ h with stuList := next }, ?_, hrest, rfl, rfl, rfl⟩
    simp [routeAroundOverall, hp, student_ok hc, bind, Except.bind, hnext]
  · rw [List.append_assoc, List.singleton_append] at chain
    have notFirst : h.stuList ≠ some a := by
      intro hfirst
      cases l' with
      | nil =>
        have := chain.1.symm.trans hfirst
        obtain rfl := Option.some.inj this
        simp at nodup
      | cons c rest =>
        have := chain.1.symm.trans hfirst
        obtain rfl := Option.some.inj this
        simp at nodup
    have hprev := previousStudent_chain fuel chain (by simp at enough; omega)
    obtain ⟨m, hm, _⟩ := student_of_link chain.link_of_split
    refine ⟨h.setStudent b (.live { m with nextOverall := n.nextOverall }), ?_, ?_,
      absStudent_relink hm _, rfl, rfl⟩
    · simp [routeAroundOverall, notFirst, hprev, student_ok hc, linkStudent_ok hm, bind,
        Except.bind]
    · rw [stuLink_relink, List.append_assoc, List.singleton_append]
      exact chain.unlink (stuLink_live hc)

end Loops

section Frames

variable {h h' : Heap} {q : Lists}

/-- Liveness after freeing the nodes `gone`, read against the old and the new lists. -/
theorem frees_gone {live live' : Addr → Prop} {old new : List Addr} (gone : List Addr)
    (nodup : old.Nodup) (perm : old.Perm (gone ++ new)) (held : ∀ a ∈ old, live a)
    (after : ∀ a, live' a ↔ live a ∧ a ∉ gone) (a : Addr) :
    live' a ↔ a ∈ new ∨ (live a ∧ a ∉ old) := by
  have split := List.nodup_append.mp (perm.nodup_iff.mp nodup)
  have mem : a ∈ old ↔ a ∈ gone ∨ a ∈ new := by rw [perm.mem_iff, List.mem_append]
  rw [after]
  constructor
  · rintro ⟨hl, hg⟩
    by_cases hold : a ∈ old
    · exact Or.inl ((mem.mp hold).resolve_left hg)
    · exact Or.inr ⟨hl, hold⟩
  · rintro (hn | ⟨hl, hold⟩)
    · exact ⟨held a (mem.mpr (Or.inr hn)), fun hg => split.2.2 a hg a hn rfl⟩
    · exact ⟨hl, fun hg => hold (mem.mpr (Or.inl hg))⟩

/-- Liveness after allocating the node `x`. -/
theorem frees_fresh {live live' : Addr → Prop} {old new : List Addr} {x : Addr}
    (perm : new.Perm (x :: old)) (held : ∀ a ∈ old, live a)
    (after : ∀ a, live' a ↔ live a ∨ a = x) (fresh : ¬ live x) (a : Addr) :
    live' a ↔ a ∈ new ∨ (live a ∧ a ∉ old) := by
  have mem : a ∈ new ↔ a = x ∨ a ∈ old := by rw [perm.mem_iff, List.mem_cons]
  rw [after, mem]
  by_cases hx : a = x
  · subst hx; simp
  · by_cases hold : a ∈ old
    · simp [hx, hold, held a hold]
    · simp [hx, hold]

theorem Represents.student_live (rep : Represents h q) :
    ∀ a ∈ (q.stuList ++ serving q.taList).map Student.id, StudentLive h a := by
  intro a ha
  obtain ⟨s, hs, rfl⟩ := List.mem_map.mp ha
  exact student_live_iff.mpr ⟨s, rep.students s hs⟩

theorem Represents.ta_live (rep : Represents h q) : ∀ a ∈ q.taList.map Ta.id, TaLive h a := by
  intro a ha
  obtain ⟨t, ht, rfl⟩ := List.mem_map.mp ha
  obtain ⟨next, hn⟩ := rep.tas t ht
  exact ⟨_, hn⟩

theorem Represents.freesNothing (rep : Represents h q) : FreesExactly h h q q :=
  ⟨frees_gone [] rep.valid.students (List.Perm.refl _) rep.student_live (by simp),
    frees_gone [] rep.valid.tas (List.Perm.refl _) rep.ta_live (by simp)⟩

theorem studentLive_of_abs (same : absStudent h' = absStudent h) (a : Addr) :
    StudentLive h' a ↔ StudentLive h a := by
  rw [student_live_iff, student_live_iff, same]

theorem studentLive_freed (a b : Addr) :
    StudentLive (h.setStudent a .freed) b ↔ StudentLive h b ∧ b ∉ [a] := by
  by_cases hb : b = a
  · subst hb; simp [StudentLive]
  · simp [StudentLive, setStudent_other _ hb, hb]

theorem taLive_freed (a b : Addr) :
    TaLive (h.setTa a .freed) b ↔ TaLive h b ∧ b ∉ [a] := by
  by_cases hb : b = a
  · subst hb; simp [TaLive]
  · simp [TaLive, setTa_other _ hb, hb]

/-- Rewriting a live node leaves liveness as it was. -/
theorem taLive_set {a : Addr} (n : TaNode) (live : TaLive h a) (b : Addr) :
    TaLive (h.setTa a (.live n)) b ↔ TaLive h b := by
  by_cases hb : b = a
  · subst hb; simpa [TaLive] using live
  · simp [TaLive, setTa_other _ hb]

end Frames

end QueueReading
