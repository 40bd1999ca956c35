import CSC209.A3.ResultList

/-!
# The master's read loop

For one query the master goes through its workers and reads records from the
pipe of each, until the record in its buffer has no positive frequency. The
result of `Read` is not looked at. Here every worker has already written what
it will write, whole records, and closed its pipe: a read at the end of it
returns 0 and leaves the buffer as it is. `inserted` lists the records passed
to `insert` and `received` those that a read has returned. The name of an empty
record is a NUL and whatever lies behind it.
-/

namespace ReadLoop

open CStrings FreqList Worker Selection ResultList

structure Master where
  childFreqr : FreqRecord
  results : Results
  inserted : List FreqRecord
  received : List FreqRecord
  deriving DecidableEq, Repr

abbrev Pipe := List FreqRecord

def Master.receive (m : Master) (r : FreqRecord) : Master :=
  { m with childFreqr := r, received := m.received ++ [r] }

/-- What is left in the pipe is returned with the master. -/
def read (m : Master) : Pipe → Master × Pipe
  | [] => (m, [])
  | r :: rest => (m.receive r, rest)

def insertChild (before : Int) (m : Master) : Master :=
  { m with results := ResultList.insert before m.results m.childFreqr, inserted := m.inserted ++
      [m.childFreqr] }

/-- The `do` loop, for so many turns at most. -/
def readLoop (before : Int) : Nat → Pipe → Master → Option (Master × Pipe)
  | 0, _, _ => none
  | fuel + 1, pipe, m =>
    let (m, pipe) := read m pipe
    if 0 < m.childFreqr.freq then readLoop before fuel pipe (insertChild before m)
      else some (m, pipe)

/-- The loop over the workers. -/
def readAnswers (before : Int) (fuel : Nat) : List Pipe → Master → Option Master
  | [], m => some m
  | pipe :: pipes, m => do
    let (m, _) ← readLoop before fuel pipe m
    readAnswers before fuel pipes m

/-- The master at the start of a query. -/
def startQuery (behind : FreqRecord) : Master := ⟨getEmptyFreqrecord, emptyResults behind, [], []⟩

/-- The fields that `get_empty_freqrecord` sets; the bytes behind the NUL are those of the block. -/
def IsEmpty (r : FreqRecord) : Prop := r.freq = 0 ∧ r.filename[0]? = some NUL

instance (r : FreqRecord) : Decidable (IsEmpty r) := inferInstanceAs (Decidable (_ ∧ _))

/-- The loops end, and every record that was received, save the empty ones that end an answer,
was passed to `insert` once. -/
def InsertsReceived (before : Int) (behind : FreqRecord) (pipes : List Pipe) : Prop :=
  ∃ fuel m, readAnswers before fuel pipes (startQuery behind) = some m ∧
    m.inserted = m.received.filter fun r => ¬ IsEmpty r

/-- A worker that has written anything has ended its answer with an empty record. -/
def WellEnded (pipe : Pipe) : Prop :=
  pipe = [] ∨ ∃ answer stop rest, pipe = answer ++ stop :: rest ∧ IsEmpty stop ∧
    ∀ r ∈ answer, 0 < r.freq

section Loop

variable {before : Int} {fuel : Nat} {pipe left : Pipe} {m m' : Master}

/-- The loop stops in front of the end of the pipe, or finds nothing in it and nothing in the
buffer. -/
def Ends (child : FreqRecord) (pipe : Pipe) : Prop :=
  (pipe = [] ∧ child.freq ≤ 0) ∨ ∃ r ∈ pipe, r.freq ≤ 0

/-- The records of an answer, and the one that ends it. -/
def answered (pipe : Pipe) : List FreqRecord := pipe.takeWhile fun r => 0 < r.freq

def ending (pipe : Pipe) : List FreqRecord := (pipe.dropWhile fun r => 0 < r.freq).take 1

theorem readLoop_nil : readLoop before (fuel + 1) [] m =
    if 0 < m.childFreqr.freq then readLoop before fuel [] (insertChild before m) else
      some (m, []) := rfl

theorem readLoop_cons (r : FreqRecord) : readLoop before (fuel + 1) (r :: pipe) m =
    if 0 < r.freq then readLoop before fuel pipe (insertChild before (m.receive r))
    else some (m.receive r, pipe) := rfl

theorem readLoop_ends (before : Int) (ends : Ends m.childFreqr pipe) (enough : pipe.length < fuel) :
    ∃ m' left, readLoop before fuel pipe m = some (m', left) := by
  induction fuel generalizing pipe m with
  | zero => omega
  | succ fuel ih =>
    cases pipe with
    | nil =>
      have quiet : m.childFreqr.freq ≤ 0 := by simpa [Ends] using ends
      exact ⟨m, [], by rw [readLoop_nil, if_neg (by omega)]⟩
    | cons s pipe =>
      rw [readLoop_cons]
      by_cases more : 0 < s.freq
      · have later : Ends s pipe := by
          refine .inr ?_
          simpa [Ends, Int.not_le.mpr more] using ends
        rw [if_pos more]
        exact ih later (by simp only [List.length_cons] at enough; omega)
      · exact ⟨_, _, if_neg more⟩

/-- What a loop that has ended has done. -/
theorem readLoop_cases (run : readLoop before fuel pipe m = some (m', left)) :
    Ends m.childFreqr pipe ∧ m'.childFreqr.freq ≤ 0 ∧ m'.inserted = m.inserted ++ answered pipe ∧
      m'.received = m.received ++ (answered pipe ++ ending pipe) := by
  induction fuel generalizing pipe m with
  | zero => simp [readLoop] at run
  | succ fuel ih =>
    cases pipe with
    | nil =>
      rw [readLoop_nil] at run
      by_cases more : 0 < m.childFreqr.freq
      · rw [if_pos more] at run
        have quiet : m.childFreqr.freq ≤ 0 := by simpa [Ends, insertChild] using (ih run).1
        omega
      · rw [if_neg more] at run
        obtain ⟨rfl, rfl⟩ := Prod.mk.inj (Option.some.inj run)
        exact ⟨.inl ⟨rfl, by omega⟩, by omega, by simp [answered], by simp [answered, ending]⟩
    | cons s pipe =>
      rw [readLoop_cons] at run
      by_cases more : 0 < s.freq
      · rw [if_pos more] at run
        obtain ⟨ends, quiet, inserted, received⟩ := ih run
        refine ⟨.inr ?_, quiet, ?_, ?_⟩
        · rcases ends with ⟨_, low⟩ | ⟨r, hr, low⟩
          · have : s.freq ≤ 0 := low
            omega
          · exact ⟨r, by simp [hr], low⟩
        · simp [inserted, insertChild, Master.receive, answered, more]
        · simp [received, insertChild, Master.receive, answered, ending, more]
      · rw [if_neg more] at run
        obtain ⟨rfl, rfl⟩ := Prod.mk.inj (Option.some.inj run)
        refine ⟨.inr ⟨s, by simp, by omega⟩, ?_, ?_, ?_⟩
        · have : s.freq ≤ 0 := by omega
          exact this
        · simp [Master.receive, answered, more]
        · simp [Master.receive, answered, ending, more]

end Loop

section Answers

variable {before : Int} {fuel : Nat} {pipes : List Pipe} {m m' : Master}

theorem readAnswers_ends (before : Int) (quiet : m.childFreqr.freq ≤ 0)
    (ends : ∀ pipe ∈ pipes, pipe = [] ∨ ∃ r ∈ pipe, r.freq ≤ 0)
    (enough : ∀ pipe ∈ pipes, pipe.length < fuel) :
    ∃ m', readAnswers before fuel pipes m = some m' := by
  induction pipes generalizing m with
  | nil => exact ⟨m, rfl⟩
  | cons pipe pipes ih =>
    have here : Ends m.childFreqr pipe := (ends pipe (by simp)).imp (fun none => ⟨none, quiet⟩) id
    obtain ⟨m₁, left, run⟩ := readLoop_ends before here (enough pipe (by simp))
    obtain ⟨m', rest⟩ := ih (readLoop_cases run).2.1 (fun p hp => ends p (by simp [hp]))
      fun p hp => enough p (by simp [hp])
    exact ⟨m', by simp [readAnswers, run, rest]⟩

theorem readAnswers_cases (quiet : m.childFreqr.freq ≤ 0)
    (run : readAnswers before fuel pipes m = some m') :
    (∀ pipe ∈ pipes, pipe = [] ∨ ∃ r ∈ pipe, r.freq ≤ 0) ∧
      m'.inserted = m.inserted ++ pipes.flatMap answered ∧
      m'.received = m.received ++ pipes.flatMap fun pipe => answered pipe ++ ending pipe := by
  induction pipes generalizing m with
  | nil =>
    obtain rfl : m = m' := by simpa [readAnswers] using run
    simp
  | cons pipe pipes ih =>
    obtain ⟨⟨m₁, left⟩, first, later⟩ := Option.bind_eq_some_iff.mp run
    obtain ⟨ends, quiet', inserted, received⟩ := readLoop_cases first
    obtain ⟨all, inserted', received'⟩ := ih quiet' later
    refine ⟨?_, by simp [inserted, inserted'], by simp [received, received']⟩
    intro p hp
    rcases List.mem_cons.mp hp with rfl | hp
    · exact ends.imp (fun none => none.1) id
    · exact all p hp

theorem answered_split {answer : List FreqRecord} (stop : FreqRecord) (rest : List FreqRecord)
    (positive : ∀ r ∈ answer, 0 < r.freq) (low : ¬ 0 < stop.freq) :
    answered (answer ++ stop :: rest) = answer ∧ ending (answer ++ stop :: rest) = [stop] := by
  have all : ∀ r ∈ answer, decide (0 < r.freq) = true := by simpa using positive
  rw [answered, ending, List.takeWhile_append_of_pos all, List.dropWhile_append_of_pos all]
  simp [low]

theorem positive_of_answered {r : FreqRecord} {pipe : Pipe} (hr : r ∈ answered pipe) :
    0 < r.freq := by
  simpa using List.mem_takeWhile_imp hr

theorem IsEmpty.low {r : FreqRecord} (empty : IsEmpty r) : ¬ 0 < r.freq := by
  rw [empty.1]
  exact lt_irrefl 0

/-- Only an empty record ends an answer without being missed. -/
theorem inserted_eq_iff
    (ends : ∀ pipe ∈ pipes, pipe = [] ∨ ∃ r ∈ pipe, r.freq ≤ 0) :
    (pipes.flatMap answered = (pipes.flatMap fun pipe => answered pipe ++ ending pipe).filter
        fun r => ¬ IsEmpty r) ↔ ∀ pipe ∈ pipes, WellEnded pipe := by
  constructor
  · intro same pipe hp
    refine (ends pipe hp).imp id ?_
    rintro ⟨r, hr, low⟩
    rcases none_or_first (fun r : FreqRecord => ¬ 0 < r.freq) pipe with
      none | ⟨answer, stop, rest, rfl, positive, stops⟩
    · exact absurd (by omega) (none r hr)
    · have positive : ∀ r ∈ answer, 0 < r.freq := by simpa using positive
      have received : stop ∈ pipes.flatMap fun pipe => answered pipe ++ ending pipe :=
        List.mem_flatMap.mpr ⟨_, hp, by simp [answered_split _ _ positive stops]⟩
      by_cases empty : IsEmpty stop
      · exact ⟨answer, stop, rest, rfl, empty, positive⟩
      · have inserted : stop ∈ pipes.flatMap answered := by
          rw [same]
          exact List.mem_filter.mpr ⟨received, by simpa using empty⟩
        obtain ⟨p, _, hs⟩ := List.mem_flatMap.mp inserted
        exact absurd (positive_of_answered hs) stops
  · intro all
    rw [List.filter_flatMap]
    refine List.flatMap_congr fun pipe hp => ?_
    rcases all pipe hp with rfl | ⟨answer, stop, rest, rfl, empty, positive⟩
    · rfl
    · obtain ⟨answer_eq, ending_eq⟩ := answered_split stop rest positive empty.low
      have kept : answer.filter (fun r => ¬ IsEmpty r) = answer := by
        refine List.filter_eq_self.mpr fun r hr => ?_
        have : ¬ IsEmpty r := fun none => none.low (positive r hr)
        simpa using this
      rw [answer_eq, ending_eq, List.filter_append, kept]
      simp [empty]

/-- The master reads every worker's answer to its end exactly when no worker has left the answer
it has begun without an empty record. -/
theorem insertsReceived_iff (before : Int) (behind : FreqRecord) (pipes : List Pipe) :
    InsertsReceived before behind pipes ↔ ∀ pipe ∈ pipes, WellEnded pipe := by
  have quiet : (startQuery behind).childFreqr.freq ≤ 0 := by simp [startQuery, getEmptyFreqrecord]
  constructor
  · rintro ⟨fuel, m, run, same⟩
    obtain ⟨ends, inserted, received⟩ := readAnswers_cases quiet run
    refine (inserted_eq_iff ends).mp ?_
    simpa [inserted, received, startQuery] using same
  · intro all
    have ends : ∀ pipe ∈ pipes, pipe = [] ∨ ∃ r ∈ pipe, r.freq ≤ 0 := by
      intro pipe hp
      refine (all pipe hp).imp id ?_
      rintro ⟨answer, stop, rest, rfl, empty, _⟩
      exact ⟨stop, by simp, Int.not_lt.mp empty.low⟩
    have enough : ∀ pipe ∈ pipes, pipe.length < pipes.flatten.length + 1 :=
      fun pipe hp => Nat.lt_succ_of_le (List.sublist_flatten_of_mem hp).length_le
    obtain ⟨m, run⟩ := readAnswers_ends before quiet ends enough
    obtain ⟨_, inserted, received⟩ := readAnswers_cases quiet run
    refine ⟨_, m, run, ?_⟩
    simpa [inserted, received, startQuery] using (inserted_eq_iff ends).mpr all

/-- A worker that dies after one record: the record stays in the buffer and is inserted again
and again. -/
theorem record_read_forever :
    ¬ ∀ (before : Int) (behind : FreqRecord) (pipes : List Pipe),
      InsertsReceived before behind pipes := by
  intro always
  -- whatever the number of turns, the loop is not over
  obtain ⟨fuel, m, run, _⟩ := always 0 getEmptyFreqrecord [[found 5]]
  obtain ⟨ends, _⟩ := readAnswers_cases (by decide) run
  simpa [found] using ends [found 5] (by simp)

end Answers

end ReadLoop
