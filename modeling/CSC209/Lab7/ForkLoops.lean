import CSC209.ProcessTrees

/-!
# Loops that fork

Each program runs a loop for the number of iterations on its command line. In
`forkloop` a process and its child both go on with the loop, in
`parentcreates` only the parent does and in `childcreates` only the child. A
line is the iteration in which it is printed, with the process that prints it
and its parent. Standard output is a terminal, where a line is written when it
is complete: no buffer holds lines that a fork could copy. A fork succeeds.
-/

namespace ForkLoops

open ProcessTrees HaltingRuns

/-- No descriptor is closed here. -/
abbrev Code := Program Empty Nat

/-- What is left of the loop from `i` on, with so many iterations to go. -/
def forkloop : Nat → Nat → Code
  | 0, _ => .exit
  | k + 1, i => .fork (.print i (forkloop k (i + 1))) (.print i (forkloop k (i + 1)))

def parentcreates : Nat → Nat → Code
  | 0, _ => .exit
  | k + 1, i => .fork (.print i .exit) (.print i (.wait (parentcreates k (i + 1))))

def childcreates : Nat → Nat → Code
  | 0, _ => .exit
  | k + 1, i => .fork (.print i (childcreates k (i + 1))) (.print i (.wait .exit))

section Loops

theorem forkloop_orderly (k i : Nat) (past : Finset Empty) :
    Everywhere (Orderly ∅) ∅ past (forkloop k i) := by
  induction k generalizing i with
  | zero => trivial
  | succ k ih => exact ⟨trivial, ⟨trivial, ih (i + 1)⟩, trivial, ih (i + 1)⟩

theorem forkloop_size (k i : Nat) : (forkloop k i).weigh (fun _ => 1) + 3 = 3 * 2 ^ k := by
  induction k generalizing i with
  | zero => rfl
  | succ k ih =>
    have half := ih (i + 1)
    rw [forkloop]
    simp only [Program.weigh]
    omega

theorem forkloop_forks (k i : Nat) : (forkloop k i).weigh Program.isFork + 1 = 2 ^ k := by
  induction k generalizing i with
  | zero => rfl
  | succ k ih =>
    have half := ih (i + 1)
    rw [forkloop]
    simp only [Program.weigh, Program.isFork]
    omega

theorem forkloop_printed (k i j : Nat) :
    ((forkloop k i).weigh Program.printed).count j =
      if i ≤ j ∧ j < i + k then 2 ^ (j - i + 1) else 0 := by
  induction k generalizing i with
  | zero => rw [if_neg (by omega)]; rfl
  | succ k ih =>
    rw [forkloop]
    simp only [Program.weigh, Program.printed, zero_add, Multiset.count_add,
      Multiset.count_singleton, ih (i + 1)]
    by_cases same : j = i
    · subst same
      rw [if_pos rfl, if_neg (by omega), if_pos (by omega), Nat.sub_self]
      rfl
    · rw [if_neg same]
      by_cases later : i + 1 ≤ j ∧ j < i + 1 + k
      · rw [if_pos later, if_pos (by omega), show j - i + 1 = j - (i + 1) + 1 + 1 by omega,
          Nat.pow_succ 2 (j - (i + 1) + 1)]
        omega
      · rw [if_neg later, if_neg (by omega)]

/-- Whatever the order in which the processes take their steps, there are 2 ^ n of them in the
end, and iteration `i` has printed 2 ^ (i + 1) lines. -/
theorem forkloop_doubles (n : Nat) (schedule : List Nat) (s : System Empty Nat)
    (ran : run step (start ∅ (forkloop n 0)) schedule = .ok s) :
    schedule.length ≤ 3 * 2 ^ n - 3 ∧
    (Stuck s → s.processes.length = 2 ^ n ∧ (∀ q ∈ s.processes, q.ended = true) ∧
      ∀ i, (s.terminal.map Line.text).count i = if i < n then 2 ^ (i + 1) else 0) := by
  have size := forkloop_size n 0
  refine ⟨?_, fun stuck => ?_⟩
  · have length := pending_run ran
    rw [pending_start] at length
    omega
  · obtain ⟨ended, _, count, texts⟩ := complete_run (forkloop_orderly n 0 ∅) ran stuck
    refine ⟨by have := forkloop_forks n 0; omega, ended, fun i => ?_⟩
    have printed := forkloop_printed n 0 i
    rw [← texts, Multiset.coe_count] at printed
    simpa using printed

theorem forkloop_doubles_two :
    ∃ s, run step (start ∅ (forkloop 2 0)) [0, 1, 1, 0, 2, 1, 0, 0, 3] = .ok s ∧
    s.processes.length = 4 ∧ (s.terminal.map Line.text).count 1 = 4 := by
  obtain ⟨s, ran, ended⟩ :
      ∃ s, run step (start ∅ (forkloop 2 0)) [0, 1, 1, 0, 2, 1, 0, 0, 3] = .ok s ∧
      ∀ q ∈ s.processes, q.ended = true := exists_of_run (by decide +kernel)
  obtain ⟨_, complete⟩ := forkloop_doubles 2 _ s ran
  obtain ⟨processes, _, counts⟩ := complete (stuck_of_ended ended)
  exact ⟨s, ran, processes, counts 1⟩

end Loops

section Chain

/-- The iterations in which process `p` prints: the one that has made it and its own. -/
def chainLines (n p : Nat) : List Nat :=
  (if 0 < p then [p - 1] else []) ++ if p < n then [p] else []

/-- Process `p` of the chain, which has gone on to the next one or is the last. -/
structure Link (n : Nat) (s : System Empty Nat) (p : Nat) (q : Process Empty Nat) : Prop where
  low : p ≤ n
  parent : q.parent = if 0 < p then some (p - 1) else none
  lines : record p s ++ q.program.own = chainLines n p
  turned : p + 1 < s.processes.length → q.program = .print p (.wait .exit) ∨
  q.program = .wait .exit ∨ q.program = .exit
  last : p + 1 = s.processes.length →
    q.program = childcreates (n - p) p ∨ 0 < p ∧ q.program = .print (p - 1) (childcreates (n - p) p)

def Chain (n : Nat) (s : System Empty Nat) : Prop :=
  ∀ p q, s.processes[p]? = some q → Link n s p q

variable {n p : Nat} {s t : System Empty Nat}

theorem childcreates_own (k i : Nat) : (childcreates k i).own = if 0 < k then [i] else [] := by
  cases k <;> rfl

theorem chain_start (n : Nat) : Chain n (start ∅ (childcreates n 0)) := by
  intro p q there
  obtain rfl := List.mem_singleton.mp (List.mem_of_getElem? there)
  have first : p < 1 := (List.getElem?_eq_some_iff.mp there).1
  obtain rfl : p = 0 := by omega
  refine ⟨Nat.zero_le n, rfl, ?_, fun more => ?_, fun _ => .inl rfl⟩
  · simp [record, start, childcreates_own, chainLines]
  · simp [start] at more

/-- What a process of the chain that can move does. -/
theorem Link.doing {q : Process Empty Nat} (link : Link n s p q) (few : p < s.processes.length)
    (live : q.ended = false) :
    (p + 1 < s.processes.length ∧ q.program.isFork = 0 ∧
      (q.program.next = .wait .exit ∨ q.program.next = .exit)) ∨
      (p + 1 = s.processes.length ∧ q.program.isFork = 0 ∧
        q.program.next = childcreates (n - p) p) ∨
      (p + 1 = s.processes.length ∧ p < n ∧
        q.program =
          .fork (.print p (childcreates (n - (p + 1)) (p + 1))) (.print p (.wait .exit))) := by
  have going : q.program ≠ .exit := fun exits => by simp [Process.ended_iff.mpr exits] at live
  by_cases more : p + 1 < s.processes.length
  · rcases link.turned more with doing | doing | exits
    · exact .inl ⟨more, by rw [doing]; rfl, .inl (by rw [doing]; rfl)⟩
    · exact .inl ⟨more, by rw [doing]; rfl, .inr (by rw [doing]; rfl)⟩
    · exact absurd exits going
  · have isLast : p + 1 = s.processes.length := by omega
    rcases link.last isLast with doing | ⟨_, doing⟩
    · cases left : n - p with
      | zero =>
        rw [left, childcreates] at doing
        exact absurd doing going
      | succ k =>
        rw [left, childcreates] at doing
        obtain rfl : k = n - (p + 1) := by omega
        exact .inr (.inr ⟨isLast, by omega, doing⟩)
    · exact .inr (.inl ⟨isLast, by rw [doing]; rfl, by rw [doing]; rfl⟩)

theorem Chain.step (h : Chain n s) (known : Known s) (hs : step s p = .ok t) : Chain n t := by
  obtain ⟨q, here, moves⟩ := moves_of_step hs
  have link := h p q here
  have few : p < s.processes.length := (List.getElem?_eq_some_iff.mp here).1
  have length := moves.length
  have doing := link.doing few moves.live
  intro i x there
  rcases moves.lookup there with ⟨rfl, parent, program⟩ | ⟨ne, old⟩ | ⟨rfl, parent, rest, forks⟩
  · refine ⟨link.low, parent.trans link.parent, ?_, fun more => ?_, fun last => ?_⟩
    · rw [program, record_own moves, link.lines]
    · rw [program]
      rcases doing with ⟨_, _, next⟩ | ⟨last, none, _⟩ | ⟨_, _, doing⟩
      · exact .inr next
      · omega
      · exact .inl (by rw [doing]; rfl)
    · rw [program]
      rcases doing with ⟨more, none, _⟩ | ⟨_, _, next⟩ | ⟨_, _, doing⟩
      · omega
      · exact .inl next
      · rw [doing, Program.isFork] at length
        omega
  · have few' : i < s.processes.length := (List.getElem?_eq_some_iff.mp old).1
    have other := h i x old
    refine ⟨other.low, other.parent, ?_, fun more => ?_, fun last => other.last (by omega)⟩
    · rw [record_other moves ne, other.lines]
    · refine other.turned ?_
      rcases doing with ⟨_, none, _⟩ | ⟨_, none, _⟩ | ⟨_, _, _⟩ <;> omega
  · rcases doing with ⟨_, none, _⟩ | ⟨_, none, _⟩ | ⟨last, low, doing⟩
    · rw [forks, Program.isFork] at none
      cases none
    · rw [forks, Program.isFork] at none
      cases none
    · rw [doing, Program.isFork] at length
      obtain ⟨same, _⟩ := Program.fork.inj (forks.symm.trans doing)
      rw [← last]
      refine ⟨low, by rw [parent, if_pos (Nat.succ_pos p), Nat.add_sub_cancel], ?_,
        fun more => by omega, fun _ => .inr ⟨Nat.succ_pos p, ?_⟩⟩
      · have fresh := known.record
        rw [← last] at fresh
        rw [record_other moves (by omega), fresh, same, List.nil_append, Program.own,
          childcreates_own, chainLines, if_pos (Nat.succ_pos p), Nat.add_sub_cancel]
        simp only [List.singleton_append, Nat.sub_pos_iff_lt]
      · rw [same, Nat.add_sub_cancel]

theorem chain_reachable (reached : Leads (start ∅ (childcreates n 0)) s) : Chain n s := by
  induction reached with
  | start => exact chain_start n
  | next p before _ hs ih => exact ih.step (known_reachable before) hs

theorem childcreates_orderly (k i : Nat) (past : Finset Empty) :
    Everywhere (Orderly ∅) ∅ past (childcreates k i) := by
  induction k generalizing i with
  | zero => trivial
  | succ k ih =>
      exact ⟨trivial, ⟨trivial, ih (i + 1)⟩, trivial, Finset.disjoint_empty_left _, trivial⟩

theorem childcreates_attends (k i : Nat) : Attends 0 (childcreates k i) := by
  induction k generalizing i with
  | zero => rfl
  | succ k ih => exact ⟨ih (i + 1), rfl⟩

theorem childcreates_forks (k i : Nat) : (childcreates k i).weigh Program.isFork = k := by
  induction k generalizing i with
  | zero => rfl
  | succ k ih =>
    have rest := ih (i + 1)
    rw [childcreates]
    simp only [Program.weigh, Program.isFork]
    omega

theorem childcreates_size (k i : Nat) : (childcreates k i).weigh (fun _ => 1) = 4 * k := by
  induction k generalizing i with
  | zero => rfl
  | succ k ih =>
    have rest := ih (i + 1)
    rw [childcreates]
    simp only [Program.weigh]
    omega

/-- A process of the chain has exited only after all that come after it. -/
theorem chain_exits (chain : Chain n s) (attended : Attended s) {q r : Process Empty Nat} {d : Nat}
    (here : s.processes[p]? = some q) (exits : q.ended = true)
    (there : s.processes[p + d]? = some r) : r.ended = true := by
  induction d generalizing r with
  | zero =>
    obtain rfl : q = r := Option.some.inj (here.symm.trans there)
    exact exits
  | succ d ih =>
    have low : p + d < s.processes.length := by
      have := (List.getElem?_eq_some_iff.mp there).1
      omega
    have before := ih (List.getElem?_eq_getElem low)
    have parent := (chain (p + (d + 1)) r there).parent
    rw [if_pos (by omega), show p + (d + 1) - 1 = p + d by omega] at parent
    by_contra live
    rw [attended.live_parent (List.getElem?_eq_getElem low) (List.mem_of_getElem? there) parent
        (Bool.eq_false_iff.mpr live)] at before
    cases before

/-- The processes of `childcreates` are a chain: each has made the next one, prints in the iteration
that has made it and then in its own, under its own parent, and exits after the next one. -/
theorem childcreates_chain (n : Nat) (schedule : List Nat) (s : System Empty Nat)
    (ran : run step (start ∅ (childcreates n 0)) schedule = .ok s) :
    schedule.length ≤ 4 * n ∧
      (∀ p q, s.processes[p]? = some q → q.parent = (if 0 < p then some (p - 1) else none) ∧
        record p s <+: chainLines n p ∧ ∀ d r, s.processes[p + d]? = some r → q.ended = true →
        r.ended = true) ∧
      (∀ l ∈ s.terminal, l.ppid = if 0 < l.pid then some (l.pid - 1) else none) ∧
      (Stuck s → s.processes.length = n + 1 ∧ ∀ p ≤ n, record p s = chainLines n p) := by
  have reached : Leads (start ∅ (childcreates n 0)) s :=
    reachable_of_run (along_of_forall fun _ _ => trivial) ran
  have chain := chain_reachable reached
  have attended := attended_reachable (childcreates_attends n 0) reached
  refine ⟨?_, fun p q here => ⟨(chain p q here).parent, ⟨_, (chain p q here).lines⟩,
      fun d r there exits => ?_⟩, fun l mem => ?_, fun stuck => ?_⟩
  · have length := pending_run ran
    rw [pending_start, childcreates_size] at length
    omega
  · exact chain_exits chain attended here exits there
  · obtain ⟨q, here, parent⟩ := truthful_reachable (childcreates_attends n 0) reached l mem
    rw [← parent, (chain _ q here).parent]
  · obtain ⟨ended, _, count, _⟩ := complete_run (childcreates_orderly n 0 ∅) ran stuck
    rw [childcreates_forks] at count
    refine ⟨by omega, fun p low => ?_⟩
    have here : s.processes[p]? = some s.processes[p] := List.getElem?_eq_getElem (by omega)
    have lines := (chain p _ here).lines
    rw [Process.ended_iff.mp (ended _ (List.mem_of_getElem? here))] at lines
    simpa [Program.own] using lines

theorem childcreates_chain_two :
    ∃ s, run step (start ∅ (childcreates 2 0)) [0, 1, 1, 2, 1, 1, 0, 0] = .ok s ∧
    s.processes.length = 3 ∧ record 1 s = [0, 1] := by
  obtain ⟨s, ran, ended⟩ :
      ∃ s, run step (start ∅ (childcreates 2 0)) [0, 1, 1, 2, 1, 1, 0, 0] = .ok s ∧
      ∀ q ∈ s.processes, q.ended = true := exists_of_run (by decide +kernel)
  obtain ⟨_, _, _, complete⟩ := childcreates_chain 2 _ s ran
  obtain ⟨processes, records⟩ := complete (stuck_of_ended ended)
  exact ⟨s, ran, processes, records 1 (by omega)⟩

end Chain

section Star

/-- The first process is at the head of iteration `i`, with all its children gone, or in it, with
the last one on its way. -/
inductive Stage (n : Nat) (s : System Empty Nat) (i : Nat) (program : Code) : Prop where
  | head (low : i ≤ n) (doing : program = parentcreates (n - i) i)
      (length : s.processes.length = i + 1)
      (gone : ∀ p q, 0 < p → s.processes[p]? = some q → q.program = .exit)
  | inside (low : i < n)
      (doing : program = .print i (.wait (parentcreates (n - (i + 1)) (i + 1))) ∨
        program = .wait (parentcreates (n - (i + 1)) (i + 1)))
      (length : s.processes.length = i + 2)
      (gone : ∀ p q, 0 < p → p ≤ i → s.processes[p]? = some q → q.program = .exit)
      (last : ∀ q, s.processes[i + 1]? = some q → q.program = .print i .exit ∨ q.program = .exit)

/-- What process `p` prints: all the iterations, or the one that has made it. -/
def starLines (n p : Nat) : List Nat :=
  if p = 0 then List.range n else [p - 1]

/-- The lines come in the order of the iterations, up to the one that the first process is in. -/
structure Star (n : Nat) (s : System Empty Nat) (i : Nat) : Prop where
  parents : ∀ p q, s.processes[p]? = some q → q.parent = if 0 < p then some 0 else none
  lines : ∀ p q, s.processes[p]? = some q → record p s ++ q.program.own = starLines n p
  stage : ∀ q, s.processes[0]? = some q → q.reaped = i ∧ Stage n s i q.program
  sorted : (s.terminal.map Line.text).Pairwise (· ≤ ·)
  within : ∀ l ∈ s.terminal, l.text ≤ i

variable {n p i : Nat} {s t : System Empty Nat}

theorem parentcreates_own (k i : Nat) : (parentcreates k i).own = List.range' i k := by
  induction k generalizing i with
  | zero => rfl
  | succ k ih => rw [parentcreates, Program.own, Program.own, Program.own, ih, List.range'_succ]

theorem star_start (n : Nat) : Star n (start ∅ (parentcreates n 0)) 0 := by
  have only : ∀ p q, (start ∅ (parentcreates n 0)).processes[p]? = some q → p = 0 ∧
    q = ⟨none, parentcreates n 0, ∅, 0⟩ := by
    intro p q there
    have first : p < 1 := (List.getElem?_eq_some_iff.mp there).1
    exact ⟨by omega, List.mem_singleton.mp (List.mem_of_getElem? there)⟩
  refine ⟨fun p q there => ?_, fun p q there => ?_, fun q there => ?_, List.Pairwise.nil,
    fun _ mem => nomatch mem⟩
  · obtain ⟨rfl, rfl⟩ := only p q there
    rfl
  · obtain ⟨rfl, rfl⟩ := only p q there
    simp [record, start, parentcreates_own, starLines, List.range_eq_range']
  · obtain ⟨_, rfl⟩ := only 0 q there
    refine ⟨rfl, .head (Nat.zero_le n) rfl rfl fun p q pos there => ?_⟩
    have := (only p q there).1
    omega

/-- A step keeps the parents, and what each process prints where a new one prints as it should. -/
theorem Star.lines_step {q : Process Empty Nat} (h : Star n s i) (known : Known s)
    (here : s.processes[p]? = some q) (moves : Moves s p q t)
    (made : ∀ child parent, q.program = .fork child parent → p = 0 ∧
      child.own = starLines n s.processes.length) :
    (∀ p q, t.processes[p]? = some q → q.parent = if 0 < p then some 0 else none) ∧
      ∀ p q, t.processes[p]? = some q → record p t ++ q.program.own = starLines n p := by
  have few : p < s.processes.length := (List.getElem?_eq_some_iff.mp here).1
  refine ⟨fun j x there => ?_, fun j x there => ?_⟩
  all_goals rcases moves.lookup there with
      ⟨rfl, parent, program⟩ | ⟨ne, old⟩ | ⟨rfl, parent, rest, forks⟩
  · exact parent.trans (h.parents _ q here)
  · exact h.parents j x old
  · rw [parent, if_pos (by omega), (made _ _ forks).1]
  · rw [program, record_own moves]
    exact h.lines _ q here
  · rw [record_other moves ne]
    exact h.lines j x old
  · rw [record_other moves (by omega), known.record, List.nil_append]
    exact (made _ _ forks).2

/-- All the processes but the first are its children. -/
theorem Star.children (h : Star n s i) (nonempty : 0 < s.processes.length) :
    s.children 0 + 1 = s.processes.length := by
  have parents := h.parents
  rw [System.children]
  cases all : s.processes with
  | nil => rw [all] at nonempty; cases nonempty
  | cons m rest =>
    rw [all] at parents
    have first := parents 0 m rfl
    have others : rest.countP (fun q => q.parent = some 0) = rest.length := by
      apply List.countP_eq_length.mpr
      intro q mem
      obtain ⟨j, there⟩ := List.mem_iff_getElem?.mp mem
      have parent := parents (j + 1) q there
      rw [if_pos (Nat.succ_pos j)] at parent
      exact decide_eq_true parent
    rw [List.countP_cons, others, if_neg (by simp [first])]
    rfl

theorem sorted_snoc {lines : List (Line Nat)} {l : Line Nat}
    (sorted : (lines.map Line.text).Pairwise (· ≤ ·)) (within : ∀ m ∈ lines, m.text ≤ l.text) :
    ((lines ++ [l]).map Line.text).Pairwise (· ≤ ·) ∧ ∀ m ∈ lines ++ [l], m.text ≤ l.text := by
  refine ⟨?_, fun m mem => ?_⟩
  · rw [List.map_append, List.pairwise_append]
    refine ⟨sorted, List.pairwise_singleton _ _, fun a before b last => ?_⟩
    obtain ⟨m, mem, rfl⟩ := List.mem_map.mp before
    obtain rfl : b = l.text := by simpa using last
    exact within m mem
  · rcases List.mem_append.mp mem with before | last
    · exact within m before
    · rw [List.mem_singleton.mp last]

theorem first_of_set {l : List (Process Empty Nat)} (born : List (Process Empty Nat))
    {r x : Process Empty Nat} (nonempty : 0 < l.length)
    (there : (l.set 0 r ++ born)[0]? = some x) : x = r := by
  rw [List.getElem?_append_left (by rwa [List.length_set]), List.getElem?_set_self nonempty]
    at there
  exact (Option.some.inj there).symm

/-- A step of the first process. -/
theorem Star.step_first {q : Process Empty Nat} (h : Star n s i) (known : Known s)
    (here : s.processes[0]? = some q) (moves : Moves s 0 q t) : ∃ j, Star n t j := by
  have few : 0 < s.processes.length := (List.getElem?_eq_some_iff.mp here).1
  have going : q.program ≠ .exit :=
    fun exits => by simpa [Process.ended_iff.mpr exits] using moves.live
  have kept := h.lines_step known here moves
  obtain ⟨reaped, stage⟩ := h.stage q here
  cases stage with
  | head low doing size gone =>
    cases left : n - i with
    | zero => rw [left] at doing; exact absurd doing going
    | succ k =>
      obtain rfl : k = n - (i + 1) := by omega
      rw [left, parentcreates] at doing
      obtain ⟨parents, lines⟩ := kept fun child parent forks => by
        obtain ⟨rfl, _⟩ := Program.fork.inj (forks.symm.trans doing)
        exact ⟨rfl, by simp [Program.own, starLines, size]⟩
      obtain rfl := moves.of_fork doing
      refine ⟨i, parents, lines, fun x found => ?_, h.sorted, h.within⟩
      obtain rfl := first_of_set _ few found
      refine ⟨reaped, .inside (by omega) (.inl rfl) (by simp [size]) (fun p y pos le found => ?_)
          fun y found => ?_⟩
      · rcases lookup_cases found with ⟨zero, _⟩ | ⟨_, old⟩ | ⟨high, _⟩
        · omega
        · exact gone p y pos old
        · omega
      · rcases lookup_cases found with ⟨zero, _⟩ | ⟨_, old⟩ | ⟨_, new⟩
        · cases zero
        · have := (List.getElem?_eq_some_iff.mp old).1
          omega
        · rw [List.mem_singleton.mp (List.mem_of_getElem? new)]
          exact .inl rfl
  | inside low doing size gone last =>
    obtain ⟨parents, lines⟩ := kept fun child parent forks => by
      rcases doing with doing | doing <;> rw [doing] at forks <;> cases forks
    rcases doing with doing | doing
    · obtain rfl := moves.of_print doing
      obtain ⟨sorted, within⟩ := sorted_snoc (l := ⟨s.ppid q, 0, i⟩) h.sorted h.within
      refine ⟨i, parents, lines, fun x found => ?_, sorted, within⟩
      obtain rfl := first_of_set [] few (by simpa using found)
      refine ⟨reaped,
        .inside low (.inr rfl) (by simp [size]) (fun p y pos le found => ?_) fun y found => ?_⟩
      · rw [List.getElem?_set_ne (by omega)] at found
        exact gone p y pos le found
      · rw [List.getElem?_set_ne (by omega)] at found
        exact last y found
    · have children := h.children few
      have attending := endedChildren_le s 0
      rcases moves.of_wait doing with ⟨more, rfl⟩ | ⟨none, all, _⟩
      · have exits := endedChildren_all.mp (show s.endedChildren 0 = s.children 0 by omega)
        refine ⟨i + 1, parents, lines, fun x found => ?_, h.sorted,
          fun l mem => Nat.le_succ_of_le (h.within l mem)⟩
        obtain rfl := first_of_set [] few (by simpa using found)
        refine ⟨by rw [← reaped], .head (by omega) rfl (by simp [size]) fun p y pos found => ?_⟩
        have old : s.processes[p]? = some y := by
          rwa [System.put_processes, List.getElem?_set_ne (by omega)] at found
        have parent := h.parents p y old
        rw [if_pos pos] at parent
        exact Process.ended_iff.mp (exits y (List.mem_of_getElem? old) parent)
      · omega

/-- A step of one of the others, which is the last one. -/
theorem Star.step_other {q : Process Empty Nat} (h : Star n s i) (known : Known s)
    (here : s.processes[p]? = some q) (pos : 0 < p) (moves : Moves s p q t) : Star n t i := by
  have few : p < s.processes.length := (List.getElem?_eq_some_iff.mp here).1
  have going : q.program ≠ .exit :=
    fun exits => by simpa [Process.ended_iff.mpr exits] using moves.live
  have kept := h.lines_step known here moves
  have there : s.processes[0]? = some s.processes[0] := List.getElem?_eq_getElem (by omega)
  obtain ⟨reaped, stage⟩ := h.stage _ there
  cases stage with
  | head low doing size gone => exact absurd (gone p q pos here) going
  | inside low doing size gone last =>
    obtain rfl : p = i + 1 := by
      by_contra ne
      exact going (gone p q pos (by omega) here)
    rcases last q here with prints | exits
    · obtain ⟨parents, lines⟩ := kept fun child parent forks => by
        rw [prints] at forks
        cases forks
      obtain rfl := moves.of_print prints
      obtain ⟨sorted, within⟩ := sorted_snoc (l := ⟨s.ppid q, i + 1, i⟩) h.sorted h.within
      refine ⟨parents, lines, fun x found => ?_, sorted, within⟩
      rw [List.getElem?_set_ne (by omega)] at found
      obtain rfl : s.processes[0] = x := Option.some.inj (there.symm.trans found)
      refine ⟨reaped,
        .inside low doing (by simp [size]) (fun p y pos le found => ?_) fun y found => ?_⟩
      · rw [List.getElem?_set_ne (by omega)] at found
        exact gone p y pos le found
      · rw [List.getElem?_set_self few] at found
        obtain rfl := Option.some.inj found
        exact .inr rfl
    · exact absurd exits going

theorem Star.step (h : Star n s i) (known : Known s) (hs : step s p = .ok t) : ∃ j, Star n t j := by
  obtain ⟨q, here, moves⟩ := moves_of_step hs
  cases p with
  | zero => exact h.step_first known here moves
  | succ p => exact ⟨i, h.step_other known here (Nat.succ_pos p) moves⟩

theorem star_reachable (reached : Leads (start ∅ (parentcreates n 0)) s) : ∃ i, Star n s i := by
  induction reached with
  | start => exact ⟨0, star_start n⟩
  | next p before _ hs ih =>
    obtain ⟨i, star⟩ := ih
    exact star.step (known_reachable before) hs

theorem parentcreates_orderly (k i : Nat) (past : Finset Empty) :
    Everywhere (Orderly ∅) ∅ past (parentcreates k i) := by
  induction k generalizing i with
  | zero => trivial
  | succ k ih =>
      exact ⟨trivial, ⟨trivial, trivial⟩, trivial, Finset.disjoint_empty_left _, ih (i + 1)⟩

theorem parentcreates_attends (k i : Nat) : Attends 0 (parentcreates k i) := by
  induction k generalizing i with
  | zero => rfl
  | succ k ih => exact ⟨rfl, ih (i + 1)⟩

theorem parentcreates_weigh (k i : Nat) :
    (parentcreates k i).weigh Program.isFork = k ∧ (parentcreates k i).weigh
    (fun _ => 1) = 4 * k := by
  induction k generalizing i with
  | zero => exact ⟨rfl, rfl⟩
  | succ k ih =>
    obtain ⟨forks, size⟩ := ih (i + 1)
    rw [parentcreates]
    simp only [Program.weigh, Program.isFork]
    omega

/-- The processes of `parentcreates` all come from the first one: the lines come in the order of the
iterations, the first process prints in all of them and process `i + 1` in iteration `i`, under the
first one. -/
theorem parentcreates_star (n : Nat) (schedule : List Nat) (s : System Empty Nat)
    (ran : run step (start ∅ (parentcreates n 0)) schedule = .ok s) :
    schedule.length ≤ 4 * n ∧ (s.terminal.map Line.text).Pairwise (· ≤ ·) ∧
      (∀ p q, s.processes[p]? = some q → record p s <+: starLines n p) ∧
      (∀ l ∈ s.terminal, l.ppid = if 0 < l.pid then some 0 else none) ∧
      (Stuck s → s.processes.length = n + 1 ∧ ∀ p ≤ n, record p s = starLines n p) := by
  have reached : Leads (start ∅ (parentcreates n 0)) s :=
    reachable_of_run (along_of_forall fun _ _ => trivial) ran
  obtain ⟨i, star⟩ := star_reachable reached
  obtain ⟨forks, size⟩ := parentcreates_weigh n 0
  refine ⟨?_, star.sorted, fun p q here => ⟨_, star.lines p q here⟩, fun l mem => ?_,
    fun stuck => ?_⟩
  · have length := pending_run ran
    rw [pending_start, size] at length
    omega
  · obtain ⟨q, here, parent⟩ := truthful_reachable (parentcreates_attends n 0) reached l mem
    rw [← parent, star.parents _ q here]
  · obtain ⟨ended, _, count, _⟩ := complete_run (parentcreates_orderly n 0 ∅) ran stuck
    rw [forks] at count
    refine ⟨by omega, fun p low => ?_⟩
    have here : s.processes[p]? = some s.processes[p] := List.getElem?_eq_getElem (by omega)
    have lines := star.lines p _ here
    rw [Process.ended_iff.mp (ended _ (List.mem_of_getElem? here))] at lines
    simpa [Program.own] using lines

theorem parentcreates_star_two :
    ∃ s, run step (start ∅ (parentcreates 2 0)) [0, 1, 0, 0, 0, 0, 2, 0] = .ok s ∧
    s.processes.length = 3 ∧ record 0 s = [0, 1] := by
  obtain ⟨s, ran, ended⟩ :
      ∃ s, run step (start ∅ (parentcreates 2 0)) [0, 1, 0, 0, 0, 0, 2, 0] = .ok s ∧
      ∀ q ∈ s.processes, q.ended = true := exists_of_run (by decide +kernel)
  obtain ⟨_, _, _, _, complete⟩ := parentcreates_star 2 _ s ran
  obtain ⟨processes, records⟩ := complete (stuck_of_ended ended)
  exact ⟨s, ran, processes, records 0 (by omega)⟩

end Star

end ForkLoops
