import CSC209.A4.QueueReading
import CSC209.HaltingRuns

/-!
# Every student node of A4 has its course

`add_student` looks for the course before it links the node and frees the node
without one; no other function stores to `course`.
-/

namespace Enrolment

open CStrings HelpQueue QueueHeap QueueReading HaltingRuns

variable {h h' : Heap} {a b : Addr} {p q : Option Addr} {name code : CString} {fuel n : Nat}

def Enrolled (h : Heap) : Prop := ∀ a s, h.students a = .live s → s.course ≠ none

theorem heap_of_ok {m : Nat}
    (done : (Except.ok (m, h) : Except Fault (Nat × Heap)) = .ok (n, h')) : h = h' :=
  congrArg Prod.snd (Except.ok.inj done)

theorem Enrolled.of_students (enrolled : Enrolled h) (same : h'.students = h.students) :
    Enrolled h' := by
  intro a s hs
  exact enrolled a s (same ▸ hs)

theorem Enrolled.setStudent (enrolled : Enrolled h) {c : Cell StudentNode}
    (has : ∀ s, c = .live s → s.course ≠ none) : Enrolled (h.setStudent a c) := by
  intro b s hs
  by_cases same : b = a
  · subst same
    exact has s (by simpa using hs)
  · exact enrolled b s (by rwa [setStudent_other _ same] at hs)

theorem Enrolled.setTa (enrolled : Enrolled h) {c : Cell TaNode} : Enrolled (h.setTa a c) :=
  enrolled.of_students rfl

theorem Enrolled.freeStudent (enrolled : Enrolled h) (freed : h.freeStudent p = .ok h') :
    Enrolled h' := by
  obtain ⟨s, _, freed⟩ := bind_ok_iff.mp freed
  cases p with
  | none => cases freed
  | some a =>
    obtain rfl := Except.ok.inj freed
    exact enrolled.setStudent (by simp)

theorem student_live {s : StudentNode} (read : h.student (some a) = .ok s) :
    h.students a = .live s := by
  rw [Heap.student] at read
  split at read
  · rename_i live
    rw [live, Except.ok.inj read]
  · cases read

theorem Enrolled.linkStudent (enrolled : Enrolled h) (linked : h.linkStudent p q = .ok h') :
    Enrolled h' := by
  obtain ⟨s, read, linked⟩ := bind_ok_iff.mp linked
  cases p with
  | none => cases linked
  | some a =>
    obtain rfl := Except.ok.inj linked
    refine enrolled.setStudent fun t ht => ?_
    obtain rfl := Cell.live.inj ht
    exact enrolled a s (student_live read)

theorem Enrolled.routeAround (enrolled : Enrolled h)
    (routed : routeAroundOverall a fuel h = .ok h') :
    Enrolled h' := by
  rw [routeAroundOverall] at routed
  split at routed
  · obtain ⟨s, _, routed⟩ := bind_ok_iff.mp routed
    obtain rfl := Except.ok.inj routed
    exact enrolled.of_students rfl
  · obtain ⟨current, _, routed⟩ := bind_ok_iff.mp routed
    obtain ⟨s, _, routed⟩ := bind_ok_iff.mp routed
    exact enrolled.linkStudent routed

theorem Enrolled.takeStudent (enrolled : Enrolled h) (taken : takeStudent a p fuel h = .ok h') :
    Enrolled h' := by
  obtain ⟨t, _, taken⟩ := bind_ok_iff.mp taken
  cases current : t.currentStudent with
  | none =>
    simp only [current] at taken
    cases p with
    | none =>
      obtain rfl := Except.ok.inj taken
      exact enrolled.setTa
    | some s => exact enrolled.setTa.routeAround taken
  | some servee =>
    simp only [current] at taken
    obtain ⟨h1, freed, taken⟩ := bind_ok_iff.mp taken
    have enrolled1 := enrolled.freeStudent freed
    cases p with
    | none =>
      obtain rfl := Except.ok.inj taken
      exact enrolled1.setTa
    | some s => exact enrolled1.setTa.routeAround taken

theorem Enrolled.freeTa (enrolled : Enrolled h) (freed : h.freeTa p = .ok h') : Enrolled h' := by
  obtain ⟨t, _, freed⟩ := bind_ok_iff.mp freed
  cases p with
  | none => cases freed
  | some a =>
    obtain rfl := Except.ok.inj freed
    exact enrolled.setTa

theorem Enrolled.removeTaAfter (enrolled : Enrolled h)
    (removed : removeTaAfter name h fuel a = .ok (n, h')) :
    Enrolled h' := by
  induction fuel generalizing a with
  | zero => cases removed
  | succ fuel ih =>
    obtain ⟨node, _, removed⟩ := bind_ok_iff.mp removed
    cases next : node.next with
    | none =>
      simp only [next] at removed
      obtain rfl := heap_of_ok removed
      exact enrolled
    | some b =>
      simp only [next] at removed
      obtain ⟨t, _, removed⟩ := bind_ok_iff.mp removed
      split at removed
      · obtain ⟨h1, taken, removed⟩ := bind_ok_iff.mp removed
        obtain ⟨_, _, removed⟩ := bind_ok_iff.mp removed
        obtain ⟨_, _, removed⟩ := bind_ok_iff.mp removed
        obtain ⟨h2, freed, removed⟩ := bind_ok_iff.mp removed
        obtain rfl := heap_of_ok removed
        have taken1 := enrolled.takeStudent taken
        exact taken1.setTa.freeTa freed
      · exact ih removed

theorem Enrolled.removeTa (enrolled : Enrolled h) (removed : removeTa name fuel h = .ok (n, h')) :
    Enrolled h' := by
  rw [QueueHeap.removeTa] at removed
  cases head : h.taList with
  | none =>
    simp only [head] at removed
    obtain rfl := heap_of_ok removed
    exact enrolled
  | some a =>
    simp only [head] at removed
    obtain ⟨node, _, removed⟩ := bind_ok_iff.mp removed
    split at removed
    · obtain ⟨h1, taken, removed⟩ := bind_ok_iff.mp removed
      obtain ⟨h2, freed, removed⟩ := bind_ok_iff.mp removed
      obtain rfl := heap_of_ok removed
      have taken1 :=
        Enrolled.takeStudent (h := { h with taList := node.next }) (enrolled.of_students rfl) taken
      exact taken1.freeTa freed
    · exact enrolled.removeTaAfter removed

theorem Enrolled.nextOverall (enrolled : Enrolled h)
    (taken : nextOverall name fuel h = .ok (n, h')) :
    Enrolled h' := by
  obtain ⟨found, _, taken⟩ := bind_ok_iff.mp taken
  cases found with
  | none =>
    obtain rfl := heap_of_ok taken
    exact enrolled
  | some ta =>
    obtain ⟨h1, served, done⟩ := bind_ok_iff.mp taken
    obtain rfl := heap_of_ok done
    exact enrolled.takeStudent served

theorem Enrolled.giveUpWaiting (enrolled : Enrolled h)
    (gone : giveUpWaiting name fuel h = .ok (n, h')) :
    Enrolled h' := by
  obtain ⟨found, _, gone⟩ := bind_ok_iff.mp gone
  cases found with
  | none =>
    obtain rfl := heap_of_ok gone
    exact enrolled
  | some a =>
    obtain ⟨h1, routed, gone⟩ := bind_ok_iff.mp gone
    obtain ⟨h2, freed, gone⟩ := bind_ok_iff.mp gone
    obtain rfl := heap_of_ok gone
    exact (enrolled.routeAround routed).freeStudent freed

/-- The node is linked only if its course was found. -/
theorem Enrolled.addStudent {courses : List Course} (enrolled : Enrolled h)
    (added : addStudent courses a name code fuel h = .ok (n, h')) : Enrolled h' := by
  obtain ⟨found, _, added⟩ := bind_ok_iff.mp added
  cases found with
  | some b =>
    obtain rfl := heap_of_ok added
    exact enrolled
  | none =>
    cases known : findCourse courses code with
    | none =>
      simp only [known] at added
      obtain ⟨h1, freed, done⟩ := bind_ok_iff.mp added
      obtain rfl := heap_of_ok done
      obtain ⟨s, _, freed⟩ := bind_ok_iff.mp freed
      obtain rfl := Except.ok.inj freed
      intro b s hs
      by_cases same : b = a
      · subst same
        simp at hs
      · rw [setStudent_other _ same, setStudent_other _ same] at hs
        exact enrolled b s hs
    | some course =>
      have linkable : Enrolled (h.setStudent a (.live ⟨name, some course, none⟩)) :=
        enrolled.setStudent fun s hs => by
          obtain rfl := Cell.live.inj hs
          simp
      cases first : h.stuList with
      | none =>
        simp only [known, setStudent_stuList, first] at added
        obtain rfl := heap_of_ok added
        exact linkable.of_students rfl
      | some b =>
        simp only [known, setStudent_stuList, first] at added
        obtain ⟨last, _, added⟩ := bind_ok_iff.mp added
        obtain ⟨h1, linked, done⟩ := bind_ok_iff.mp added
        obtain rfl := heap_of_ok done
        exact linkable.linkStudent linked

theorem Enrolled.call {courses : List Course} {call : Call} (enrolled : Enrolled h)
    (done : call.onHeap courses a fuel h = .ok (n, h')) : Enrolled h' := by
  cases call with
  | addStudent name code => exact enrolled.addStudent done
  | giveUpWaiting name => exact enrolled.giveUpWaiting done
  | addTa name =>
    obtain rfl := heap_of_ok done
    exact enrolled.of_students rfl
  | removeTa name => exact enrolled.removeTa done
  | nextOverall name => exact enrolled.nextOverall done

end Enrolment
