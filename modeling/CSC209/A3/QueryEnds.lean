import CSC209.ProcessTrees

/-!
# The pipe ends of the query engine

`main` forks a child for each path after all the pipes have been made, so that
every child starts with every end. Each of them closes what it does not use,
and so does the master. A worker reads its words up to the end of the pipe,
which is where the last write end of it is closed; one whose files cannot be
opened or loaded has exited before. The loop in which the master writes the
words is between its two series of closes, and a word for a worker that has
exited kills it there. An end is the entry of `words_fd` or `freqs_fd` that has
its descriptor.
-/

namespace QueryEnds

open ProcessTrees HaltingRuns

inductive PipeEnd where
  | words (k : Nat)
  | freqs (k : Nat)
  deriving DecidableEq, Repr

/-- Nothing is printed here. -/
abbrev Code := Program PipeEnd Empty

def childCloses (numChildren i : Nat) : List PipeEnd :=
  (List.range numChildren).flatMap fun j =>
    [.words (2 * j + 1), .freqs (2 * j)] ++
      if j ≠ i then [.words (2 * j), .freqs (2 * j + 1)] else []

/-- The workers that get to their first `Read`, and whether the master gets through its lines. -/
structure Course where
  loads : Nat → Bool
  serves : Bool

variable (c : Course)

/-- The loop over `Read` and what follows it, unless the worker exits in front of it. -/
def runWorker (i : Nat) : Code :=
  if c.loads i then .awaitEnd (.words (2 * i + 1)) (.close (.freqs (2 * i + 1)) .exit) else .exit

def child (numChildren i : Nat) : Code :=
  .closeAll (childCloses numChildren i) (runWorker c i)

def parentCloses (numChildren : Nat) : List PipeEnd :=
  (List.range numChildren).flatMap fun i => [.words (2 * i), .freqs (2 * i + 1)]

def wordWrites (numChildren : Nat) : List PipeEnd :=
  (List.range numChildren).map fun i => .words (2 * i + 1)

/-- What the parent does after it has forked its children. -/
def parent (numChildren : Nat) : Code :=
  .closeAll (parentCloses numChildren)
    (if c.serves then .closeAll (wordWrites numChildren) (.waitAll .exit) else .exit)

def forks (numChildren : Nat) (paths : List Nat) : Code :=
  paths.foldr (fun i rest => .fork (child c numChildren i) rest) (parent c numChildren)

def main (numChildren : Nat) : Code := forks c numChildren (List.range numChildren)

/-- The ends of the pipes. -/
def pipes (numChildren : Nat) : Finset PipeEnd :=
  ((List.range numChildren).flatMap fun i =>
    [.words (2 * i), .words (2 * i + 1), .freqs (2 * i), .freqs (2 * i + 1)]).toFinset

/-- The ends that a process holds where it reads or waits, and where it has exited. -/
def HoldsOwn (numChildren : Nat) (held past : Finset PipeEnd) : Code → Prop
  | .awaitEnd d _ =>
      ∃ i < numChildren, d = .words (2 * i + 1) ∧ held = {.words (2 * i), .freqs (2 * i + 1)}
  | .waitAll _ => ∀ d ∈ held, ∃ i < numChildren, d = .freqs (2 * i)
  | .exit => ∀ i, c.loads i = true → .words (2 * i) ∈ held → .words (2 * i + 1) ∈ past
  | _ => True

/-- A worker that reads holds the read end of its words and the write end of its records and nothing
else, the master that waits holds no write end, and a worker that has loaded its files has exited
only where the write end of its words is closed in every process. -/
structure OwnEnds (numChildren : Nat) (s : System PipeEnd Empty)
  (q : Process PipeEnd Empty) : Prop where
  reading : ∀ d next, q.program = .awaitEnd d next →
    ∃ i < numChildren, d = .words (2 * i + 1) ∧ q.held = {.words (2 * i), .freqs (2 * i + 1)}
  waiting : ∀ next, q.program = .waitAll next → ∀ d ∈ q.held, ∃ i < numChildren, d = .freqs (2 * i)
  exited : q.program = .exit → ∀ i, c.loads i = true → .words (2 * i) ∈ q.held →
    ¬ s.Open (.words (2 * i + 1))

section Ends

variable {n i k : Nat}

theorem words_mem_pipes : PipeEnd.words k ∈ pipes n ↔ k < 2 * n := by
  simp only [pipes, List.mem_toFinset, List.mem_flatMap, List.mem_range, List.mem_cons,
    List.not_mem_nil, or_false, PipeEnd.words.injEq, reduceCtorEq]
  constructor
  · rintro ⟨j, low, rfl | rfl⟩ <;> omega
  · intro low
    exact ⟨k / 2, by omega, by omega⟩

theorem freqs_mem_pipes : PipeEnd.freqs k ∈ pipes n ↔ k < 2 * n := by
  simp only [pipes, List.mem_toFinset, List.mem_flatMap, List.mem_range, List.mem_cons,
    List.not_mem_nil, or_false, PipeEnd.freqs.injEq, reduceCtorEq, false_or]
  constructor
  · rintro ⟨j, low, rfl | rfl⟩ <;> omega
  · intro low
    exact ⟨k / 2, by omega, by omega⟩

theorem words_mem_childCloses : PipeEnd.words k ∈ childCloses n i ↔ k < 2 * n ∧ k ≠ 2 * i := by
  simp only [childCloses, List.mem_flatMap, List.mem_range, List.mem_append, List.mem_cons,
    List.not_mem_nil, or_false, PipeEnd.words.injEq, reduceCtorEq]
  constructor
  · rintro ⟨j, low, rfl | mem⟩
    · omega
    · split at mem
      · simp at mem; omega
      · cases mem
  · rintro ⟨low, ne⟩
    refine ⟨k / 2, by omega, ?_⟩
    by_cases even : k = 2 * (k / 2)
    · refine .inr ?_
      rw [if_pos (by omega)]
      simp [← even]
    · exact .inl (by omega)

theorem freqs_mem_childCloses : PipeEnd.freqs k ∈ childCloses n i ↔ k < 2 * n ∧ k ≠ 2 * i + 1 := by
  simp only [childCloses, List.mem_flatMap, List.mem_range, List.mem_append, List.mem_cons,
    List.not_mem_nil, or_false, PipeEnd.freqs.injEq, reduceCtorEq, false_or]
  constructor
  · rintro ⟨j, low, rfl | mem⟩
    · omega
    · split at mem
      · simp at mem; omega
      · cases mem
  · rintro ⟨low, ne⟩
    refine ⟨k / 2, by omega, ?_⟩
    by_cases even : k = 2 * (k / 2)
    · exact .inl even
    · refine .inr ?_
      rw [if_pos (by omega)]
      simp
      omega

/-- The number of the child whose pipe it is. -/
def PipeEnd.pipeOf : PipeEnd → Nat
  | .words k => k / 2
  | .freqs k => k / 2

theorem nodup_pipes {f : Nat → List PipeEnd} (each : ∀ j, (f j).Nodup)
    (own : ∀ j, ∀ e ∈ f j, e.pipeOf = j) (n : Nat) :
    ((List.range n).flatMap f).Nodup := by
  apply List.nodup_flatMap.mpr
  refine ⟨fun j _ => each j, List.pairwise_lt_range.imp fun {a b} lt e first second => ?_⟩
  have one := own a e first
  have other := own b e second
  omega

theorem nodup_childCloses (n i : Nat) : (childCloses n i).Nodup := by
  apply nodup_pipes
  · intro j
    split <;> simp
  · intro j e mem
    rcases List.mem_append.mp mem with mem | mem
    · simp only [List.mem_cons, List.not_mem_nil, or_false] at mem
      rcases mem with rfl | rfl <;> simp only [PipeEnd.pipeOf] <;> omega
    · split at mem
      · simp only [List.mem_cons, List.not_mem_nil, or_false] at mem
        rcases mem with rfl | rfl <;> simp only [PipeEnd.pipeOf] <;> omega
      · cases mem

theorem nodup_parentCloses (n : Nat) : (parentCloses n).Nodup := by
  apply nodup_pipes
  · simp
  · intro j e mem
    simp only [List.mem_cons, List.not_mem_nil, or_false] at mem
    rcases mem with rfl | rfl <;> simp only [PipeEnd.pipeOf] <;> omega

theorem nodup_wordWrites (n : Nat) : (wordWrites n).Nodup := by
  refine List.nodup_range.map fun a b eq => ?_
  have same : 2 * a + 1 = 2 * b + 1 := PipeEnd.words.inj eq
  omega

/-- What is left to a child that has closed what it does not use. -/
theorem child_holds (low : i < n) :
    pipes n \ (childCloses n i).toFinset = {.words (2 * i), .freqs (2 * i + 1)} := by
  ext e
  cases e with
  | words k =>
    simp only [Finset.mem_sdiff, List.mem_toFinset, words_mem_pipes, words_mem_childCloses,
      Finset.mem_insert, Finset.mem_singleton, PipeEnd.words.injEq, reduceCtorEq, or_false]
    omega
  | freqs k =>
    simp only [Finset.mem_sdiff, List.mem_toFinset, freqs_mem_pipes, freqs_mem_childCloses,
      Finset.mem_insert, Finset.mem_singleton, PipeEnd.freqs.injEq, reduceCtorEq, false_or]
    omega

theorem words_mem_parentCloses : PipeEnd.words k ∈ parentCloses n ↔ k < 2 * n ∧ k % 2 = 0 := by
  simp only [parentCloses, List.mem_flatMap, List.mem_range, List.mem_cons,
    List.not_mem_nil, or_false, PipeEnd.words.injEq, reduceCtorEq]
  constructor
  · rintro ⟨j, low, rfl⟩
    omega
  · rintro ⟨low, even⟩
    exact ⟨k / 2, by omega, by omega⟩

theorem freqs_mem_parentCloses : PipeEnd.freqs k ∈ parentCloses n ↔ k < 2 * n ∧ k % 2 = 1 := by
  simp only [parentCloses, List.mem_flatMap, List.mem_range, List.mem_cons,
    List.not_mem_nil, or_false, PipeEnd.freqs.injEq, reduceCtorEq, false_or]
  constructor
  · rintro ⟨j, low, rfl⟩
    omega
  · rintro ⟨low, odd⟩
    exact ⟨k / 2, by omega, by omega⟩

theorem words_mem_wordWrites : PipeEnd.words k ∈ wordWrites n ↔ k < 2 * n ∧ k % 2 = 1 := by
  simp only [wordWrites, List.mem_map, List.mem_range, PipeEnd.words.injEq]
  constructor
  · rintro ⟨j, low, rfl⟩
    omega
  · rintro ⟨low, odd⟩
    exact ⟨k / 2, by omega, by omega⟩

theorem freqs_not_mem_wordWrites : PipeEnd.freqs k ∉ wordWrites n := by
  simp [wordWrites]

/-- What is left to the master in the end. -/
theorem parent_holds : (pipes n \ (parentCloses n).toFinset) \ (wordWrites n).toFinset =
    ((List.range n).map fun i => PipeEnd.freqs (2 * i)).toFinset := by
  ext e
  cases e with
  | words k =>
    simp only [Finset.mem_sdiff, List.mem_toFinset, words_mem_pipes, words_mem_parentCloses,
      words_mem_wordWrites, List.mem_map, reduceCtorEq, and_false, exists_false, iff_false]
    omega
  | freqs k =>
    simp only [Finset.mem_sdiff, List.mem_toFinset, freqs_mem_pipes, freqs_mem_parentCloses,
      freqs_not_mem_wordWrites,
      List.mem_map, List.mem_range, PipeEnd.freqs.injEq, not_false_eq_true, and_true]
    constructor
    · rintro ⟨low, even⟩
      exact ⟨k / 2, by omega, by omega⟩
    · rintro ⟨j, low, rfl⟩
      omega

end Ends

section Results

variable {c : Course} {n : Nat}

theorem everywhere_child {Q : Finset PipeEnd → Finset PipeEnd → Code → Prop}
    (each : ∀ held past d next, d ∈ held → Q held past (.close d next))
    {i : Nat} (low : i < n)
    (rest : Everywhere Q {.words (2 * i), .freqs (2 * i + 1)} ∅ (runWorker c i)) :
    Everywhere Q (pipes n) ∅ (child c n i) := by
  apply everywhere_closeAll (nodup_childCloses n i) each
  · intro e mem
    cases e with
    | words k => exact words_mem_pipes.mpr (words_mem_childCloses.mp mem).1
    | freqs k => exact freqs_mem_pipes.mpr (freqs_mem_childCloses.mp mem).1
  · rw [child_holds low]
    exact rest

/-- What holds wherever an end that is held is closed, at a fork, in a worker, in the master that is
killed and in the one that waits, holds everywhere. -/
theorem everywhere_main {Q : Finset PipeEnd → Finset PipeEnd → Code → Prop}
    (each : ∀ held past d next, d ∈ held → Q held past (.close d next))
    (fork : ∀ held past child parent, Q held past (.fork child parent))
    (workers : ∀ i < n, Everywhere Q {.words (2 * i), .freqs (2 * i + 1)} ∅ (runWorker c i))
    (killed : Q (pipes n \ (parentCloses n).toFinset) ∅ .exit)
    (rest : Everywhere Q ((List.range n).map fun i => PipeEnd.freqs (2 * i)).toFinset ∅
      (.waitAll .exit)) :
    Everywhere Q (pipes n) ∅ (main c n) := by
  have last : Everywhere Q (pipes n) ∅ (parent c n) := by
    apply everywhere_closeAll (nodup_parentCloses n) each
    · intro e mem
      cases e with
      | words k => exact words_mem_pipes.mpr (words_mem_parentCloses.mp mem).1
      | freqs k => exact freqs_mem_pipes.mpr (freqs_mem_parentCloses.mp mem).1
    · by_cases serves : c.serves = true
      · rw [if_pos serves]
        apply everywhere_closeAll (nodup_wordWrites n) each
        · intro e mem
          cases e with
          | words k =>
            have odd := words_mem_wordWrites.mp mem
            refine Finset.mem_sdiff.mpr ⟨words_mem_pipes.mpr odd.1, ?_⟩
            rw [List.mem_toFinset, words_mem_parentCloses]
            omega
          | freqs k => exact absurd mem freqs_not_mem_wordWrites
        · rw [parent_holds]
          exact rest
      · rw [if_neg serves]
        exact killed
  have forked : ∀ paths, (∀ i ∈ paths, i < n) → Everywhere Q (pipes n) ∅ (forks c n paths) := by
    intro paths low
    induction paths with
    | nil => exact last
    | cons i paths ih =>
      have here := low i List.mem_cons_self
      exact ⟨fork _ _ _ _, everywhere_child each here (workers i here),
        ih fun j mem => low j (List.mem_cons_of_mem i mem)⟩
  exact forked _ fun i mem => List.mem_range.mp mem

theorem main_orderly (c : Course) (n : Nat) :
    Everywhere (Orderly (wordWrites n).toFinset) (pipes n) ∅ (main c n) := by
  have apart : ∀ held : Finset PipeEnd, (∀ k, .words k ∈ held → k % 2 = 0) →
      Disjoint (wordWrites n).toFinset held := by
    intro held even
    rw [Finset.disjoint_left]
    intro e mem holds
    cases e with
    | words k =>
      have odd := (words_mem_wordWrites.mp (List.mem_toFinset.mp mem)).2
      have := even k holds
      omega
    | freqs k => exact freqs_not_mem_wordWrites (List.mem_toFinset.mp mem)
  apply everywhere_main (fun _ _ _ _ mem => mem) fun _ _ _ _ => trivial
  · intro i low
    by_cases loads : c.loads i = true
    · rw [runWorker, if_pos loads]
      refine ⟨⟨?_, apart _ fun k mem => ?_⟩, ?_, trivial⟩
      · rw [List.mem_toFinset, words_mem_wordWrites]
        omega
      · have : k = 2 * i := by simpa using mem
        omega
      · simp [Orderly]
    · rw [runWorker, if_neg loads]
      trivial
  · trivial
  · exact ⟨apart _ fun k mem => by simp at mem, trivial⟩

theorem main_holdsOwn (c : Course) (n : Nat) :
    Everywhere (HoldsOwn c n) (pipes n) ∅ (main c n) := by
  apply everywhere_main (fun _ _ _ _ _ => trivial) fun _ _ _ _ => trivial
  · intro i low
    have own :
        ∀ j, PipeEnd.words (2 * j) ∈ ({.words (2 * i), .freqs (2 * i + 1)} : Finset PipeEnd) →
        j = i := by
      intro j mem
      have same : 2 * j = 2 * i := by simpa using mem
      omega
    by_cases loads : c.loads i = true
    · rw [runWorker, if_pos loads]
      refine ⟨⟨i, low, rfl, rfl⟩, trivial, fun j _ mem => ?_⟩
      obtain rfl := own j (Finset.mem_of_mem_erase mem)
      exact Finset.mem_insert_self _ _
    · rw [runWorker, if_neg loads]
      intro j loaded mem
      obtain rfl := own j mem
      exact absurd loaded loads
  · intro i _ mem
    obtain ⟨inside, outside⟩ := Finset.mem_sdiff.mp mem
    rw [List.mem_toFinset, words_mem_parentCloses] at outside
    have low := words_mem_pipes.mp inside
    omega
  · refine ⟨fun d mem => ?_, fun j _ mem => by simp at mem⟩
    obtain ⟨i, low, same⟩ := List.mem_map.mp (List.mem_toFinset.mp mem)
    exact ⟨i, List.mem_range.mp low, same.symm⟩

theorem forks_main (c : Course) (n : Nat) : (main c n).weigh Program.isFork = n := by
  have none : ∀ (ends : List PipeEnd) (P : Code),
      (Program.closeAll ends P).weigh Program.isFork = P.weigh Program.isFork := by
    intro ends P
    induction ends with
    | nil => rfl
    | cons e ends ih => simp [Program.weigh, Program.isFork, ih]
  have workers : ∀ i, (runWorker c i).weigh Program.isFork = 0 := by
    intro i
    rw [runWorker]
    split <;> rfl
  have last : (parent c n).weigh Program.isFork = 0 := by
    rw [parent, none]
    split
    · rw [none]
      rfl
    · rfl
  have forked : ∀ paths, (forks c n paths).weigh Program.isFork = paths.length := by
    intro paths
    induction paths with
    | nil => exact last
    | cons i paths ih =>
      show (Program.fork (child c n i) (forks c n paths)).weigh Program.isFork = _
      simp [Program.weigh, Program.isFork, child, none, workers, ih]
      omega
  rw [main, forked, List.length_range]

theorem ownEnds_reachable {s : System PipeEnd Empty}
    (reached : Leads (start (pipes n) (main c n)) s) :
    ∀ q ∈ s.processes, OwnEnds c n s q := by
  intro q mem
  obtain ⟨past, obeyed, shut⟩ := obeys_reachable (main_holdsOwn c n) reached q mem
  have point := obeyed.here
  refine ⟨fun d next doing => ?_, fun next doing => ?_, fun doing i loads holds => ?_⟩
  · rw [doing] at point
    exact point
  · rw [doing] at point
    exact point
  · rw [doing] at point
    exact shut _ (point i loads holds)

end Results

end QueryEnds
