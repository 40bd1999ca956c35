import CSC209.A4.HelpQueue
import Mathlib.Data.List.Range
import Mathlib.Data.List.Sort

/-!
# The command interpreter of the A4 help centre, over whole histories

`processArgs` is `process_args` of `A4/helpcentre.c`: it selects an operation
by the first word and the number of words and reports the result codes on
stderr. A `History` runs it on command after command and keeps, besides the
queue, what an observer sees happen: which `add_student` calls succeeded, who
left the queue by `give_up`, who left it by `next`, and who stopped being
served. A student is the number of the successful call that added them.

The two print commands build a string and drop it; they are modelled as
leaving the lists alone, and their buffers are not part of this module.
-/

namespace HelpCentre

open CStrings HelpQueue

def courses : List Course :=
  [⟨text "CSC108"⟩, ⟨text "CSC148"⟩, ⟨text "CSC209"⟩]

/-- One command line, already cut into words. The second component is what `error`
prints, if anything; the C function returns 0 in every case. -/
def processArgs (q : Queue) (argv : List CString) : Queue × Option CString :=
  match argv with
  | [] => (q, none)
  | [cmd, name, code] =>
    if cmd = text "add_student" then
      let r := q.addStudent courses name code
      (r.2, if r.1 = 1 then some (text "This student is already in the queue.")
        else if r.1 = 2 then some (text "Invalid Course -- student not added.") else none)
    else (q, some (text "Incorrect syntax."))
  | [cmd] =>
    if cmd = text "print_full_queue" then (q, none)
    else if cmd = text "print_currently_serving" then (q, none)
    else (q, some (text "Incorrect syntax."))
  | [cmd, name] =>
    if cmd = text "give_up" then
      let r := q.giveUpWaiting name
      (r.2, if r.1 = 1 then
        some (text "There was no student by that name waiting in the queue.") else none)
    else if cmd = text "add_ta" then (q.addTa name, none)
    else if cmd = text "remove_ta" then
      let r := q.removeTa name
      (r.2, if r.1 = 1 then some (text "Invalid TA name.") else none)
    else if cmd = text "next" then
      let r := q.nextOverall name
      (r.2, if r.1 = 1 then some (text "Invalid TA name.") else none)
    else (q, some (text "Incorrect syntax."))
  | _ => (q, some (text "Incorrect syntax."))

/-- The numbers of the students in one list and not in the other, in order. -/
def left (before after : List Student) : List Nat :=
  (before.filter fun s => s ∉ after).map Student.id

structure History where
  queue : Queue
  /-- Name and course of each successful `add_student` call, oldest first. -/
  calls : List (CString × CString)
  gaveUp : List Nat
  taken : List Nat
  finished : List Nat

def History.start : History := ⟨Queue.empty, [], [], [], []⟩

/-- What an observer adds to the record when a command line leaves the queue `q`. -/
def History.observe (h : History) (argv : List CString) (q : Queue) : History where
  queue := q
  calls := h.calls ++ match argv with
    | [_, name, code] => if q.nextStudent = h.queue.nextStudent then [] else [(name, code)]
    | _ => []
  gaveUp := h.gaveUp ++
    if argv.head? = some (text "give_up") then left h.queue.stuList q.stuList else []
  taken := h.taken ++
    if argv.head? = some (text "next") then left h.queue.stuList q.stuList else []
  finished := h.finished ++
    if argv.head? = some (text "next") ∨ argv.head? = some (text "remove_ta") then
      left (serving h.queue.taList) (serving q.taList) else []

def History.command (h : History) (argv : List CString) : History :=
  h.observe argv (processArgs h.queue argv).1

/-- The history after a sequence of command lines. -/
def History.after (commands : List (List CString)) : History :=
  commands.foldl History.command History.start

/-- Where a student can be. -/
inductive Place where
  | waiting
  | served (ta : Nat)
  | gaveUp
  | finished
  deriving DecidableEq

def History.At (h : History) (i : Nat) : Place → Prop
  | .waiting => ∃ s ∈ h.queue.stuList, s.id = i
  | .served k => ∃ t ∈ h.queue.taList, t.id = k ∧ ∃ s, t.currentStudent = some s ∧ s.id = i
  | .gaveUp => i ∈ h.gaveUp
  | .finished => i ∈ h.finished

/-- The balance of a history: every added student is accounted for exactly once, those
taken are the served and the finished ones, and nobody waiting was added before anybody taken. -/
structure Ledger (h : History) : Prop where
  accounts : ((h.queue.stuList ++ serving h.queue.taList).map Student.id ++
    (h.gaveUp ++ h.finished)).Perm (List.range h.queue.nextStudent)
  takenOnes : h.taken.Perm ((serving h.queue.taList).map Student.id ++ h.finished)
  order : (h.taken ++ h.queue.stuList.map Student.id).Pairwise (· < ·)
  recorded : h.calls.length = h.queue.nextStudent
  identity : ∀ s ∈ h.queue.stuList ++ serving h.queue.taList,
    h.calls[s.id]? = some (s.name, s.course.code)

section Departures

theorem left_replace (b old new a : List Student)
    (apart : ∀ s ∈ old, s ∉ b ++ (new ++ a)) :
    left (b ++ (old ++ a)) (b ++ (new ++ a)) = old.map Student.id := by
  have hb : b.filter (fun s => s ∉ b ++ (new ++ a)) = [] := by
    simp only [List.filter_eq_nil_iff, decide_eq_true_eq, not_not]
    exact fun s hs => List.mem_append_left _ hs
  have ha : a.filter (fun s => s ∉ b ++ (new ++ a)) = [] := by
    simp only [List.filter_eq_nil_iff, decide_eq_true_eq, not_not]
    exact fun s hs => List.mem_append_right _ (List.mem_append_right _ hs)
  have hold : old.filter (fun s => s ∉ b ++ (new ++ a)) = old :=
    List.filter_eq_self.mpr fun s hs => by simpa using apart s hs
  rw [left, List.filter_append, List.filter_append, hb, ha, hold, List.nil_append, List.append_nil]

theorem left_grow (b new : List Student) : left b (b ++ new) = [] := by
  have h := left_replace b [] new [] (by simp)
  simpa only [List.append_nil, List.nil_append, List.map_nil] using h

theorem left_self (b : List Student) : left b b = [] := by
  simpa using left_grow b []

/-- Removing one entry of a duplicate-free list is seen as exactly that departure. -/
theorem left_middle (b : List Student) (s : Student) (a : List Student)
    (nodup : ((b ++ s :: a).map Student.id).Nodup) : left (b ++ s :: a) (b ++ a) = [s.id] := by
  have h := left_replace b [s] [] a ?_
  · simpa using h
  · intro u hu
    obtain rfl := List.mem_singleton.mp hu
    have hn := (List.nodup_middle.mp nodup.of_map)
    simpa using (List.nodup_cons.mp hn).1

/-- The released student's number moves from its TA's place to the end of the finished ones. -/
theorem last_to_front (rest gave done old : List Nat) :
    (rest ++ (gave ++ (done ++ old))).Perm (old ++ (rest ++ (gave ++ done))) := by
  have regroup : rest ++ (gave ++ (done ++ old)) = rest ++ (gave ++ done) ++ old := by
    simp only [List.append_assoc]
  rw [regroup]
  exact List.perm_append_comm

end Departures

section Steps

variable {h : History}

/-- A command that changes neither the lists nor the count of students keeps the balance. -/
theorem Ledger.idle (l : Ledger h) (argv : List CString) {q : Queue}
    (stu : q.stuList = h.queue.stuList) (served : serving q.taList = serving h.queue.taList)
    (count : q.nextStudent = h.queue.nextStudent) : Ledger (h.observe argv q) := by
  have calls : (h.observe argv q).calls = h.calls := by
    simp only [History.observe]
    split <;> simp [count]
  refine ⟨?_, ?_, ?_, ?_, ?_⟩
  · simpa [History.observe, stu, served, count, left_self] using l.accounts
  · simpa [History.observe, stu, served, left_self] using l.takenOnes
  · simpa [History.observe, stu, served, left_self] using l.order
  · rw [calls]; exact l.recorded.trans count.symm
  · rw [calls]
    simpa only [History.observe, stu, served] using l.identity

/-- Every number taken or waiting has been given out. -/
theorem Ledger.number_lt (l : Ledger h) {i : Nat}
    (hi : i ∈ h.taken ++ h.queue.stuList.map Student.id) : i < h.queue.nextStudent := by
  have hr : i ∈ List.range h.queue.nextStudent := by
    apply l.accounts.subset
    rw [List.map_append, List.append_assoc]
    rcases List.mem_append.mp hi with taken | waiting
    · rcases List.mem_append.mp (l.takenOnes.subset taken) with served | done
      · exact List.mem_append_right _ (List.mem_append_left _ served)
      · exact List.mem_append_right _ (List.mem_append_right _ (List.mem_append_right _ done))
    · exact List.mem_append_left _ waiting
  exact List.mem_range.mp hr

theorem Ledger.addStudent (l : Ledger h) (name code : CString) :
    Ledger (h.observe [text "add_student", name, code]
      (h.queue.addStudent courses name code).2) := by
  rcases addStudent_cases courses h.queue.nextStudent name code h.queue.toLists with
    ⟨_, heq⟩ | ⟨_, _, heq⟩ | ⟨c, _, hc, heq⟩
  · refine l.idle _ ?_ ?_ ?_ <;> simp [Queue.addStudent, heq]
  · refine l.idle _ ?_ ?_ ?_ <;> simp [Queue.addStudent, heq]
  have stu : (h.queue.addStudent courses name code).2.stuList =
      h.queue.stuList ++ [⟨h.queue.nextStudent, name, c⟩] := by simp [Queue.addStudent, heq]
  have served : (h.queue.addStudent courses name code).2.taList = h.queue.taList := by
    simp [Queue.addStudent, heq]
  have count : (h.queue.addStudent courses name code).2.nextStudent = h.queue.nextStudent + 1 := by
    simp [Queue.addStudent, heq]
  have words : text "add_student" ≠ text "give_up" ∧ text "add_student" ≠ text "next" ∧
      text "add_student" ≠ text "remove_ta" := by decide
  refine ⟨?_, ?_, ?_, ?_, ?_⟩
  · simp only [History.observe, List.head?_cons, Option.some.injEq, words, if_false, or_self,
      List.append_nil, stu, served, count, List.range_succ]
    have moved : ((h.queue.stuList ++ [(⟨h.queue.nextStudent, name, c⟩ : Student)] ++
        serving h.queue.taList).map Student.id ++ (h.gaveUp ++ h.finished)).Perm
        (h.queue.nextStudent :: ((h.queue.stuList ++ serving h.queue.taList).map Student.id ++
          (h.gaveUp ++ h.finished))) := by
      simp only [List.map_append, List.map_cons, List.append_assoc, List.cons_append,
        List.nil_append]
      exact List.perm_middle
    exact moved.trans ((l.accounts.cons _).trans (List.perm_append_singleton _ _).symm)
  · simpa [History.observe, served, words] using l.takenOnes
  · have longer := List.pairwise_append.mpr ⟨l.order, List.pairwise_singleton _ h.queue.nextStudent,
      fun i hi j hj => List.mem_singleton.mp hj ▸ l.number_lt hi⟩
    simpa [History.observe, stu, words] using longer
  · simp [History.observe, count, l.recorded]
  · have calls : (h.observe [text "add_student", name, code]
        (h.queue.addStudent courses name code).2).calls = h.calls ++ [(name, code)] := by
      simp [History.observe, count]
    intro s hs
    rw [calls]
    have hs' : s ∈ h.queue.stuList ++ serving h.queue.taList ∨
        s = ⟨h.queue.nextStudent, name, c⟩ := by
      simp only [History.observe, stu, served, List.mem_append, List.mem_singleton] at hs ⊢
      exact or_right_comm.mp hs
    rcases hs' with hs' | rfl
    · have hlt : s.id < h.calls.length := l.recorded ▸ h.queue.students_old s hs'
      rw [List.getElem?_append_left hlt]
      exact l.identity s hs'
    · have hcode := (findCourse_code hc).2
      rw [← l.recorded]
      simp [hcode]

/-- A waiting student gives up: one departure, nothing else moves. -/
theorem Ledger.giveUp (l : Ledger h) (name : CString) :
    Ledger (h.observe [text "give_up", name] (h.queue.giveUpWaiting name).2) := by
  rcases giveUpWaiting_cases name h.queue.toLists with ⟨_, heq⟩ | ⟨b, s, a, hq, _, _, heq⟩
  · refine l.idle _ ?_ ?_ ?_ <;> simp [Queue.giveUpWaiting, heq]
  have stu : (h.queue.giveUpWaiting name).2.stuList = b ++ a := by
    simp [Queue.giveUpWaiting, heq]
  have served : (h.queue.giveUpWaiting name).2.taList = h.queue.taList := by
    simp [Queue.giveUpWaiting, heq]
  have count : (h.queue.giveUpWaiting name).2.nextStudent = h.queue.nextStudent := rfl
  have words : text "give_up" ≠ text "next" ∧ text "give_up" ≠ text "remove_ta" := by decide
  have gone : left h.queue.stuList (b ++ a) = [s.id] := by
    have hn := h.queue.valid.students
    rw [List.map_append] at hn
    have := hn.of_append_left
    rw [hq] at this ⊢
    exact left_middle b s a this
  refine ⟨?_, ?_, ?_, ?_, ?_⟩
  · simp only [History.observe, List.head?_cons, Option.some.injEq, words, if_true, if_false,
      or_self, List.append_nil, stu, served, count, gone]
    have hacc := l.accounts
    rw [hq] at hacc
    refine List.Perm.trans ?_ hacc
    simp only [List.map_append, List.map_cons, List.append_assoc, List.cons_append,
      List.nil_append]
    apply List.Perm.append_left _
    have step : ∀ x y z w : List Nat, (x ++ (y ++ (z ++ s.id :: w))).Perm
        (s.id :: (x ++ (y ++ (z ++ w)))) := by
      intro x y z w
      simpa only [List.append_assoc] using @List.perm_middle _ s.id (x ++ (y ++ z)) w
    exact step _ _ _ _
  · simpa [History.observe, served, words] using l.takenOnes
  · have sub : (h.taken ++ (b ++ a).map Student.id).Sublist
        (h.taken ++ h.queue.stuList.map Student.id) := by
      rw [hq]
      refine List.Sublist.append_left (List.Sublist.map _ ?_) _
      exact List.Sublist.append_left (List.sublist_cons_self s a) b
    simpa [History.observe, stu, words] using l.order.sublist sub
  · simpa [History.observe, Queue.giveUpWaiting] using l.recorded
  · intro u hu
    have hu' : u ∈ h.queue.stuList ++ serving h.queue.taList := by
      simp only [History.observe, stu, served, hq, List.mem_append, List.mem_cons] at hu ⊢
      exact hu.imp_left (Or.imp_right Or.inr)
    simpa [History.observe] using l.identity u hu'

/-- Releasing the student that one TA serves, when nobody else moves. -/
theorem Ledger.removeTa (l : Ledger h) (name : CString) :
    Ledger (h.observe [text "remove_ta", name] (h.queue.removeTa name).2) := by
  rcases removeTa_cases name h.queue.toLists with ⟨_, heq⟩ | ⟨b, t, a, hq, _, _, heq⟩
  · refine l.idle _ ?_ ?_ ?_ <;> simp [Queue.removeTa, heq]
  have stu : (h.queue.removeTa name).2.stuList = h.queue.stuList := by
    simp [Queue.removeTa, heq]
  have served : (h.queue.removeTa name).2.taList = b ++ a := by
    simp [Queue.removeTa, heq]
  have words : text "remove_ta" ≠ text "next" ∧ text "remove_ta" ≠ text "give_up" := by decide
  have before : serving h.queue.taList =
      serving b ++ (t.currentStudent.toList ++ serving a) := by simp [hq]
  have gone : left (serving h.queue.taList) (serving (b ++ a)) =
      t.currentStudent.toList.map Student.id := by
    rw [before, serving_append]
    have hn := h.queue.valid.students
    rw [List.map_append] at hn
    have hn := hn.of_append_right.of_map
    rw [before] at hn
    apply left_replace (serving b) t.currentStudent.toList [] (serving a)
    intro u hu
    have hsplit := List.nodup_append.mp hn
    have hright := List.nodup_append.mp hsplit.2.1
    simp only [List.nil_append, List.mem_append, not_or]
    exact ⟨fun hb => hsplit.2.2 u hb u (List.mem_append_left _ hu) rfl,
      fun ha => hright.2.2 u hu u ha rfl⟩
  refine ⟨?_, ?_, ?_, ?_, ?_⟩
  · simp only [History.observe, List.head?_cons, Option.some.injEq, words, if_true, if_false,
      or_true, List.append_nil, stu, served, gone]
    have hacc := l.accounts
    rw [before] at hacc
    refine List.Perm.trans ?_ hacc
    simp only [List.map_append, serving_append, List.append_assoc]
    refine List.Perm.append_left _ (List.Perm.append_left _ ?_)
    exact last_to_front _ _ _ _
  · have htake := l.takenOnes
    rw [before] at htake
    simp only [History.observe, List.head?_cons, Option.some.injEq, words, if_true, if_false,
      or_true, List.append_nil, served, gone]
    apply htake.trans
    simp only [List.map_append, serving_append, List.append_assoc]
    apply List.Perm.append_left _
    have h1 := @List.perm_append_comm _ (t.currentStudent.toList.map Student.id)
      ((serving a).map Student.id ++ h.finished)
    simpa only [List.append_assoc] using h1
  · simpa [History.observe, stu, words] using l.order
  · simpa [History.observe, Queue.removeTa] using l.recorded
  · intro u hu
    have hu' : u ∈ h.queue.stuList ++ serving h.queue.taList := by
      simp only [History.observe, stu, served, before, serving_append, List.mem_append] at hu ⊢
      exact hu.imp_right (Or.imp_right Or.inr)
    simpa [History.observe] using l.identity u hu'

/-- The head of the queue, if any, takes the place of the student that this TA served. -/
theorem Ledger.next (l : Ledger h) (name : CString) :
    Ledger (h.observe [text "next", name] (h.queue.nextOverall name).2) := by
  rcases nextOverall_cases name h.queue.toLists with ⟨_, heq⟩ | ⟨b, t, a, hq, _, _, heq⟩
  · refine l.idle _ ?_ ?_ ?_ <;> simp [Queue.nextOverall, heq]
  have stu : (h.queue.nextOverall name).2.stuList = h.queue.stuList.tail := by
    simp [Queue.nextOverall, heq]
  have served : serving (h.queue.nextOverall name).2.taList =
      serving b ++ (h.queue.stuList.head?.toList ++ serving a) := by
    simp [Queue.nextOverall, heq]
  have words : text "next" ≠ text "give_up" := by decide
  have before : serving h.queue.taList =
      serving b ++ (t.currentStudent.toList ++ serving a) := by simp [hq]
  have front : h.queue.stuList = h.queue.stuList.head?.toList ++ h.queue.stuList.tail := by
    cases h.queue.stuList <;> rfl
  have hn := h.queue.valid.students.of_map
  rw [before] at hn
  have hsplit := List.nodup_append.mp hn
  have called : left h.queue.stuList h.queue.stuList.tail =
      h.queue.stuList.head?.toList.map Student.id := by
    have hstu := hsplit.1
    rw [front] at hstu
    have apart := (List.nodup_append.mp hstu).2.2
    have first := left_replace [] h.queue.stuList.head?.toList [] h.queue.stuList.tail
      fun u hu => by simpa using fun hm => apart u hu u hm rfl
    rwa [List.nil_append, List.nil_append, List.nil_append, ← front] at first
  have gone : left (serving h.queue.taList)
      (serving b ++ (h.queue.stuList.head?.toList ++ serving a)) =
      t.currentStudent.toList.map Student.id := by
    rw [before]
    apply left_replace (serving b) t.currentStudent.toList _ (serving a)
    intro u hu
    have hserve := List.nodup_append.mp hsplit.2.1
    have hright := List.nodup_append.mp hserve.2.1
    simp only [List.mem_append, not_or]
    refine ⟨fun hb => hserve.2.2 u hb u (List.mem_append_left _ hu) rfl, ?_,
      fun ha => hright.2.2 u hu u ha rfl⟩
    intro hw
    have hwait : u ∈ h.queue.stuList := by
      rw [front]; exact List.mem_append_left _ hw
    exact hsplit.2.2 u hwait u (List.mem_append_right _ (List.mem_append_left _ hu)) rfl
  refine ⟨?_, ?_, ?_, ?_, ?_⟩
  · have moved := (nextOverall_students hq).map Student.id
    simp only [serving_append, serving_cons] at moved
    simp only [History.observe, List.head?_cons, Option.some.injEq, words, if_true, if_false,
      true_or, List.append_nil, stu, served, gone]
    refine List.Perm.trans ?_ l.accounts
    refine List.Perm.trans ?_ (moved.append_right (h.gaveUp ++ h.finished))
    simp only [List.map_append, List.append_assoc]
    simpa only [List.append_assoc] using last_to_front
      (h.queue.stuList.tail.map Student.id ++ ((serving b).map Student.id ++
        (h.queue.stuList.head?.toList.map Student.id ++ (serving a).map Student.id)))
      h.gaveUp h.finished (t.currentStudent.toList.map Student.id)
  · have htake := l.takenOnes
    rw [before] at htake
    simp only [History.observe, List.head?_cons, Option.some.injEq, if_true, true_or, stu, served,
      called, gone]
    refine (htake.append_right _).trans ?_
    simp only [List.map_append, List.append_assoc]
    apply List.Perm.append_left _
    generalize t.currentStudent.toList.map Student.id = old
    generalize h.queue.stuList.head?.toList.map Student.id = new
    generalize (serving a).map Student.id = right
    have h1 :
        (old ++ (right ++ (h.finished ++ new))).Perm (new ++ (right ++ (h.finished ++ old))) := by
      have swap := @List.perm_append_comm _ (old ++ (right ++ h.finished)) new
      have inner := @List.perm_append_comm _ old (right ++ h.finished)
      simpa only [List.append_assoc] using swap.trans (inner.append_left new)
    exact h1
  · have same := l.order
    rw [front, List.map_append] at same
    simpa [History.observe, stu, called] using same
  · simpa [History.observe, Queue.nextOverall] using l.recorded
  · intro u hu
    have hu' : u ∈ h.queue.stuList ++ serving h.queue.taList := by
      refine (nextOverall_students hq).subset (List.mem_append_right _ ?_)
      simpa [History.observe, stu, served] using hu
    simpa [History.observe] using l.identity u hu'

/-- Every command line keeps the balance, whatever its words. -/
theorem Ledger.command (l : Ledger h) (argv : List CString) : Ledger (h.command argv) := by
  have stay : Ledger (h.observe argv h.queue) := l.idle argv rfl rfl rfl
  unfold History.command
  match argv with
  | [] => exact stay
  | [cmd] =>
    simp only [processArgs]
    split_ifs <;> exact stay
  | [cmd, name] =>
    simp only [processArgs]
    by_cases c1 : cmd = text "give_up"
    · rw [if_pos c1]
      subst c1; exact l.giveUp name
    by_cases c2 : cmd = text "add_ta"
    · rw [if_neg c1, if_pos c2]
      exact l.idle _ rfl (by simp [Queue.addTa, HelpQueue.addTa]) rfl
    by_cases c3 : cmd = text "remove_ta"
    · rw [if_neg c1, if_neg c2, if_pos c3]
      subst c3; exact l.removeTa name
    by_cases c4 : cmd = text "next"
    · rw [if_neg c1, if_neg c2, if_neg c3, if_pos c4]
      subst c4; exact l.next name
    · rw [if_neg c1, if_neg c2, if_neg c3, if_neg c4]
      exact stay
  | [cmd, name, code] =>
    simp only [processArgs]
    by_cases c1 : cmd = text "add_student"
    · rw [if_pos c1]
      subst c1; exact l.addStudent name code
    · rw [if_neg c1]
      exact stay
  | _ :: _ :: _ :: _ :: _ => exact stay

theorem ledger_start : Ledger History.start :=
  ⟨by simp [History.start, Queue.empty, serving], by simp [History.start, Queue.empty, serving],
    by simp [History.start, Queue.empty], rfl, by simp [History.start, Queue.empty, serving]⟩

theorem ledger_after (commands : List (List CString)) : Ledger (History.after commands) := by
  have run : ∀ (h : History), Ledger h → Ledger (commands.foldl History.command h) := by
    induction commands with
    | nil => exact fun h l => l
    | cons argv rest ih => exact fun h l => ih (h.command argv) (l.command argv)
  exact run _ ledger_start

end Steps

section Accounts

variable {h : History}

theorem Ledger.place_exists (l : Ledger h) {i : Nat} (hi : i < h.queue.nextStudent) :
    ∃ p, h.At i p := by
  have hm := l.accounts.symm.subset (List.mem_range.mpr hi)
  rcases List.mem_append.mp hm with hm | hm
  · obtain ⟨s, hs, rfl⟩ := List.mem_map.mp hm
    rcases List.mem_append.mp hs with hs | hs
    · exact ⟨.waiting, s, hs, rfl⟩
    · obtain ⟨t, ht, hcur⟩ := List.mem_filterMap.mp hs
      exact ⟨.served t.id, t, ht, rfl, s, hcur, rfl⟩
  · rcases List.mem_append.mp hm with hm | hm
    · exact ⟨.gaveUp, hm⟩
    · exact ⟨.finished, hm⟩

theorem Ledger.place_unique (l : Ledger h) {i : Nat} {p r : Place} (hp : h.At i p)
    (hr : h.At i r) : p = r := by
  have nodup := l.accounts.nodup_iff.mpr List.nodup_range
  rw [List.map_append, List.append_assoc] at nodup
  obtain ⟨_, hrest, hw⟩ := List.nodup_append.mp nodup
  obtain ⟨hserve, hgone, hs⟩ := List.nodup_append.mp hrest
  have hg := (List.nodup_append.mp hgone).2.2
  -- the list of numbers in which each place puts its students
  have waits : h.At i .waiting → i ∈ h.queue.stuList.map Student.id := by
    rintro ⟨s, hm, rfl⟩; exact List.mem_map_of_mem hm
  have serves : ∀ k, h.At i (.served k) → i ∈ (serving h.queue.taList).map Student.id := by
    rintro k ⟨t, ht, _, s, hcur, rfl⟩
    exact List.mem_map_of_mem (List.mem_filterMap.mpr ⟨t, ht, hcur⟩)
  cases p with
  | waiting =>
    cases r with
    | waiting => rfl
    | served k => exact absurd rfl (hw i (waits hp) i (List.mem_append_left _ (serves k hr)))
    | gaveUp => exact absurd rfl (hw i (waits hp) i (by
        exact List.mem_append_right _ (List.mem_append_left _ hr)))
    | finished => exact absurd rfl (hw i (waits hp) i (by
        exact List.mem_append_right _ (List.mem_append_right _ hr)))
  | served k =>
    cases r with
    | waiting => exact absurd rfl (hw i (waits hr) i (List.mem_append_left _ (serves k hp)))
    | served m =>
      obtain ⟨t, ht, rfl, s, hcur, hid⟩ := hp
      obtain ⟨u, hu, rfl, v, hcur', hid'⟩ := hr
      rw [server_unique hserve ht hu hcur hcur' (hid.trans hid'.symm)]
    | gaveUp => exact absurd rfl (hs i (serves k hp) i (List.mem_append_left _ hr))
    | finished => exact absurd rfl (hs i (serves k hp) i (List.mem_append_right _ hr))
  | gaveUp =>
    cases r with
    | waiting => exact absurd rfl (hw i (waits hr) i (by
        exact List.mem_append_right _ (List.mem_append_left _ hp)))
    | served k => exact absurd rfl (hs i (serves k hr) i (List.mem_append_left _ hp))
    | gaveUp => rfl
    | finished => exact absurd rfl (hg i hp i hr)
  | finished =>
    cases r with
    | waiting => exact absurd rfl (hw i (waits hr) i (by
        exact List.mem_append_right _ (List.mem_append_right _ hp)))
    | served k => exact absurd rfl (hs i (serves k hr) i (List.mem_append_right _ hp))
    | gaveUp => exact absurd rfl (hg i hr i hp)
    | finished => rfl

/-- The queue is what remains of the arrivals, in their order. -/
theorem Ledger.queue_eq (l : Ledger h) : h.queue.stuList.map Student.id =
    (List.range h.queue.nextStudent).filter fun i => i ∉ h.taken ∧ i ∉ h.gaveUp := by
  have waitingSorted := (List.pairwise_append.mp l.order).2.1
  have nodup := l.accounts.nodup_iff.mpr List.nodup_range
  rw [List.map_append, List.append_assoc] at nodup
  obtain ⟨_, _, hw⟩ := List.nodup_append.mp nodup
  refine @List.Perm.eq_of_pairwise _ (fun a b : Nat => a < b) _ _
    (fun a b _ _ hab hba => absurd hab (Nat.lt_asymm hba)) waitingSorted
    (List.Pairwise.filter _ List.pairwise_lt_range) ?_
  refine (List.perm_ext_iff_of_nodup (waitingSorted.imp Nat.ne_of_lt)
    (List.nodup_range.filter _)).mpr fun i => ?_
  simp only [List.mem_filter, List.mem_range, decide_eq_true_eq]
  constructor
  · intro hi
    refine ⟨List.mem_range.mp (l.accounts.subset ?_), ?_, ?_⟩
    · exact List.mem_append_left _ (by simp [hi])
    · intro htaken
      exact absurd ((List.pairwise_append.mp l.order).2.2 i htaken i hi) (Nat.lt_irrefl i)
    · exact fun hgave => absurd rfl (hw i hi i
        (List.mem_append_right _ (List.mem_append_left _ hgave)))
  · rintro ⟨hlt, htaken, hgave⟩
    have hm := l.accounts.symm.subset (List.mem_range.mpr hlt)
    have htake : i ∉ (serving h.queue.taList).map Student.id ++ h.finished :=
      fun hin => htaken (l.takenOnes.symm.subset hin)
    simp only [List.map_append, List.mem_append, not_or] at hm htake
    tauto

end Accounts

/-- First come, first served, with nobody lost: after any sequence of command lines each
added student is in exactly one place, waiting names are distinct, the queue is what is
left of the arrivals in their order, and the students taken were taken in that order. -/
theorem firstComeFirstServed (commands : List (List CString)) :
    let h := History.after commands
    (∀ i, i < h.calls.length → ∃! p, h.At i p) ∧
    (∀ s ∈ h.queue.stuList ++ serving h.queue.taList,
      h.calls[s.id]? = some (s.name, s.course.code)) ∧
    (h.queue.stuList.map Student.name).Nodup ∧
    h.queue.stuList.map Student.id =
      (List.range h.calls.length).filter (fun i => i ∉ h.taken ∧ i ∉ h.gaveUp) ∧
    h.taken.Pairwise (· < ·) ∧
    ∀ i ∈ h.taken, ∀ s ∈ h.queue.stuList, i < s.id := by
  intro h
  have l : Ledger h := ledger_after commands
  refine ⟨?_, l.identity, h.queue.valid.names, l.recorded ▸ l.queue_eq,
    (List.pairwise_append.mp l.order).1, ?_⟩
  · intro i hi
    obtain ⟨p, hp⟩ := l.place_exists (l.recorded ▸ hi)
    exact ⟨p, hp, fun r hr => l.place_unique hr hp⟩
  · exact fun i hi s hs =>
      (List.pairwise_append.mp l.order).2.2 i hi s.id (List.mem_map_of_mem hs)

end HelpCentre
