import CSC209.A3.QueryWords
import CSC209.A3.ResultList
import Mathlib.Algebra.Order.BigOperators.Group.List

/-!
# Whole runs of the query engine

The master and its workers run side by side, and yet every query is answered
as if the workers had been asked one after the other: what the master has
inserted for a line does not depend on the order of the steps. No run is
endless, and none stops before everything is printed.
-/

namespace QueryRuns

open CStrings StreamIO FreqList Worker HaltingRuns SentinelAnswers QueryPipes QueryWords
open ResultList (resultList)

section Specification

/-- The lists that the master has printed; for each query, `before` is what `array[-1].freq` reads
and `behind` the record behind the array. -/
def printed (before : Nat → Int) (behind : Nat → FreqRecord) (m : Master) :
    List (List FreqRecord) :=
  m.insertedFor.mapIdx fun k records => resultList (before k) (behind k) records

variable (junk : Junk) (workers : List (WordIndex × List Byte))

/-- The answers of one worker to the messages, in order. -/
def answers (fill : Nat → Nat → FreqRecord) (p : WordIndex × List Byte) (sent : List (List Byte)) :
    List (List FreqRecord) :=
  (decoded p.2 sent).mapIdx fun k word => p.1.answer (fill k) word

/-- The records that the workers, asked one after the other, have for the `k`-th word. -/
def queryAnswer (k : Nat) (word : CString) : List FreqRecord :=
  (workers.mapIdx fun i p => p.1.answer (junk i k) word).flatten.filter fun r => 0 < r.freq

end Specification

variable {junk : Junk} {s t : System} {w w' : WorkerState} {i j : Nat} {closed : Bool}
  {stdin : List Byte} {workers : List (WordIndex × List Byte)} {p : WordIndex × List Byte}
  {fill : Nat → Nat → FreqRecord}
  {sent : List (List Byte)} {m : List Byte}

section Workers

/-- What the buffer of a worker holds behind some messages. -/
def bufferAfter (buffer : List Byte) (sent : List (List Byte)) : List Byte :=
  sent.foldl readInto buffer

theorem decoded_snoc (buffer : List Byte) (sent : List (List Byte)) (m : List Byte) :
    decoded buffer (sent ++ [m]) = decoded buffer sent ++
      [cstr (readInto (bufferAfter buffer sent) m)] := by
  induction sent generalizing buffer with
  | nil => rfl
  | cons n rest ih => simp [decoded, bufferAfter, ih]

theorem length_decoded (buffer : List Byte) (sent : List (List Byte)) :
    (decoded buffer sent).length = sent.length := by
  induction sent generalizing buffer with
  | nil => rfl
  | cons n rest ih => simp [decoded, ih]

theorem answers_snoc (fill : Nat → Nat → FreqRecord) (p : WordIndex × List Byte)
    (sent : List (List Byte)) (m : List Byte) :
    answers fill p (sent ++ [m]) =
      answers fill p sent ++
        [p.1.answer (fill sent.length) (cstr (readInto (bufferAfter p.2 sent) m))] := by
  simp [answers, decoded_snoc, List.mapIdx_append, length_decoded]

/-- The worker has written the answers to what it has received, but for the rest of the last one. -/
structure Told (fill : Nat → Nat → FreqRecord) (p : WordIndex × List Byte)
  (w : WorkerState) : Prop where
  index : w.index = p.1
  buffer : w.queryWord = bufferAfter p.2 w.received
  written : (w.todo = [] ∧ w.written = answers fill p w.received) ∨
    ∃ front part, w.written = front ++ [part] ∧
      answers fill p w.received = front ++ [part ++ w.todo]

theorem told_start (fill : Nat → Nat → FreqRecord) (p : WordIndex × List Byte) :
    Told fill p (startWorker p.1 p.2) :=
  ⟨rfl, rfl, .inl ⟨rfl, rfl⟩⟩

/-- A worker with nothing left to write has written every answer. -/
theorem Told.done (told : Told fill p w) (done : w.todo = []) :
    w.written = answers fill p w.received := by
  rcases told.written with ⟨_, whole⟩ | ⟨front, part, written, whole⟩
  · exact whole
  · rw [written, whole, done, List.append_nil]

theorem Told.step (told : Told fill p w) (h : workerStep fill closed w = .ok w') :
    Told fill p w' := by
  rcases workerStep_cases h with ⟨r, later, busy, rfl⟩ | ⟨m, rest, done, pipe, rfl⟩ | ⟨_, _, rfl⟩
  · refine ⟨told.index, told.buffer, .inr ?_⟩
    rcases told.written with ⟨none, _⟩ | ⟨front, part, written, whole⟩
    · simp [none] at busy
    · refine ⟨front, part ++ [r], by simp [written], ?_⟩
      rw [whole, busy]
      simp
  · have before := told.done done
    refine ⟨told.index, ?_, .inr ⟨w.written, [], rfl, ?_⟩⟩
    · simp [bufferAfter, told.buffer]
    · rw [answers_snoc, before, told.index, told.buffer]
      rfl
  · exact ⟨told.index, told.buffer, told.written⟩

end Workers

section Printing

variable {k : Nat}

/-- What the workers have for the message number `k`. -/
def answeredAt (junk : Junk) (workers : List (WordIndex × List Byte)) (sent : List (List Byte))
    (k : Nat) : List FreqRecord :=
  (workers.mapIdx fun i p => (answers (junk i) p sent).getD k []).flatten.filter fun r => 0 < r.freq

theorem length_answers (fill : Nat → Nat → FreqRecord) (p : WordIndex × List Byte)
    (sent : List (List Byte)) :
    (answers fill p sent).length = sent.length := by
  simp [answers, length_decoded]

/-- A later message does not change the answers to the others. -/
theorem answeredAt_snoc (junk : Junk) (workers : List (WordIndex × List Byte)) (m : List Byte)
    (before : k < sent.length) :
    answeredAt junk workers (sent ++ [m]) k = answeredAt junk workers sent k := by
  have same : ∀ i p,
    (answers (junk i) p (sent ++ [m])).getD k [] = (answers (junk i) p sent).getD k [] := by
    intro i p
    have inside : k < (answers (junk i) p sent).length := by rwa [length_answers]
    rw [answers_snoc, List.getD_eq_getElem?_getD, List.getElem?_append_left inside,
      List.getD_eq_getElem?_getD]
  simp only [answeredAt, same]

/-- The number of the lists that the master still owes for its messages. -/
def owed (m : Master) : Nat :=
  match m.place with
  | .fgets | .finished => 0
  | _ => 1

/-- Behind the protocol, every worker has told its answers, and these have been inserted. -/
structure Ran (junk : Junk) (workers : List (WordIndex × List Byte)) (s : System) : Prop where
  lockstep : Lockstep s
  count : s.workers.length = workers.length
  told : ∀ i w p, s.workers[i]? = some w → workers[i]? = some p → Told (junk i) p w
  owes : s.master.insertedFor.length + owed s.master = s.master.sent.length
  inserted : s.master.insertedFor =
    (List.range s.master.insertedFor.length).map (answeredAt junk workers s.master.sent)

theorem ran_start (junk : Junk) (stdin : List Byte) (workers : List (WordIndex × List Byte)) :
    Ran junk workers (start stdin workers) where
  lockstep := Lockstep.start stdin workers
  count := by simp [QueryPipes.start]
  told := by
    intro i w p hw hp
    obtain rfl : startWorker p.1 p.2 = w := by simpa [QueryPipes.start, hp] using hw
    exact told_start _ p
  owes := rfl
  inserted := rfl

/-- When the master prints, the last answers of the workers are the answers to the last message. -/
theorem Ran.answered_printing (ran : Ran junk workers s) (place : s.master.place = .printing) :
    s.master.inserts = answeredAt junk workers s.master.sent s.master.insertedFor.length := by
  have inserted := ran.lockstep.inserted
  have owes := ran.owes
  simp only [Inserted, place] at inserted
  simp only [owed, place] at owes
  have each : s.workers.map (fun w => w.written.getLastD []) =
      workers.mapIdx fun i p =>
        (answers (junk i) p s.master.sent).getD s.master.insertedFor.length [] := by
    apply List.ext_getElem?
    intro i
    rw [List.getElem?_map, List.getElem?_mapIdx]
    cases hw : s.workers[i]? with
    | none =>
      have past := ran.count ▸ List.getElem?_eq_none_iff.mp hw
      rw [List.getElem?_eq_none past]
      rfl
    | some w =>
      have inside := ran.count ▸ (List.getElem?_eq_some_iff.mp hw).1
      obtain ⟨p, hp⟩ : ∃ p, workers[i]? = some p := ⟨_, List.getElem?_eq_getElem inside⟩
      have serves := ran.lockstep.serves i w hw
      simp only [Serves, place] at serves
      have written := (ran.told i w p hw hp).done serves.todo
      have last : w.written.length = s.master.insertedFor.length + 1 := by rw [serves.written, owes]
      rw [hp, Option.map_some, Option.map_some, ← serves.received, ← written,
        List.getLastD_eq_getLast?,
        List.getLast?_eq_getElem?, last, Nat.add_sub_cancel, List.getD_eq_getElem?_getD]
  rw [inserted, answered, answeredAt, List.flatMap_def, each]

theorem Ran.set (ran : Ran junk workers s) (hw : s.workers[i]? = some w)
    (told : ∀ p, Told (junk i) p w → Told (junk i) p w') :
    (s.setWorker i w').workers.length = workers.length ∧
      ∀ j v p, (s.setWorker i w').workers[j]? = some v → workers[j]? = some p →
        Told (junk j) p v := by
  refine ⟨by simp [System.setWorker, ran.count], ?_⟩
  intro j v p hv hp
  rcases get_setWorker hw hv with ⟨rfl, rfl⟩ | ⟨_, hv⟩
  · exact told p (ran.told j w p hw hp)
  · exact ran.told j v p hv hp

theorem Ran.step {a : Actor} (ran : Ran junk workers s) (h : step junk s a = .ok t) :
    Ran junk workers t := by
  have lock := ran.lockstep.step h
  have owes := ran.owes
  cases a with
  | worker i =>
    obtain ⟨w, w', hw, hstep, rfl⟩ := workerTurn_cases h
    obtain ⟨count, told⟩ := ran.set hw fun p told => told.step hstep
    exact ⟨lock, count, told, owes, ran.inserted⟩
  | master =>
    rcases masterStep_cases h with
        ⟨place, _, rfl⟩ | ⟨line, rest, place, _, rfl⟩ | ⟨i, place, none, rfl⟩ |
      ⟨i, w, place, hw, rfl⟩ | ⟨i, w, r, rest, place, hw, pipe, rfl⟩ | ⟨place, rfl⟩
    · exact ⟨lock, ran.count, ran.told,
        by simpa only [owed, place, System.setMaster, System.setWorker] using owes, ran.inserted⟩
    · simp only [owed, place, Nat.add_zero] at owes
      refine ⟨lock, ran.count, ran.told, by simp [owed, System.setMaster, owes], ?_⟩
      refine ran.inserted.trans (List.map_congr_left fun k hk => ?_)
      exact (answeredAt_snoc junk workers _ (owes ▸ List.mem_range.mp hk)).symm
    · exact ⟨lock, ran.count, ran.told,
        by simpa only [owed, place, System.setMaster, System.setWorker] using owes, ran.inserted⟩
    · obtain ⟨count, told⟩ := ran.set hw fun p (told : Told (junk i) p w) =>
        (⟨by split <;> exact told.index, by split <;> exact told.buffer,
            by split <;> exact told.written⟩ :
          Told (junk i) p (if s.master.sent.getLastD [] = [] then w
            else { w with wordsPipe := w.wordsPipe ++ [s.master.sent.getLastD []] }))
      exact ⟨lock, count, told,
        by simpa only [owed, place, System.setMaster, System.setWorker] using owes, ran.inserted⟩
    · obtain ⟨count, told⟩ := ran.set hw fun p (told : Told (junk i) p w) =>
        (⟨told.index, told.buffer, told.written⟩ : Told (junk i) p { w with freqsPipe := rest })
      by_cases more : 0 < r.freq
      · rw [if_pos more] at lock ⊢
        exact ⟨lock, count, told,
          by simpa only [owed, place, System.setMaster, System.setWorker] using owes, ran.inserted⟩
      · rw [if_neg more] at lock ⊢
        exact ⟨lock, count, told,
          by simpa only [owed, place, System.setMaster, System.setWorker] using owes, ran.inserted⟩
    · have shown := ran.answered_printing place
      simp only [owed, place] at owes
      refine ⟨lock, ran.count, ran.told, by simp [owed, System.setMaster, owes], ?_⟩
      simp only [System.setMaster, List.length_append, List.length_singleton, List.range_succ,
        List.map_append, List.map_singleton, ← ran.inserted, ← shown]

end Printing

section Order

theorem ran_reachable (reached : Leads junk (start stdin workers) s) : Ran junk workers s :=
  reached.invariant (ran_start junk stdin workers) fun _ _ _ ran _ h => ran.step h

/-- Lines without NULs arrive as they are but for their last bytes. -/
theorem answers_lines {ls : List (List Byte)} (fill : Nat → Nat → FreqRecord)
    (p : WordIndex × List Byte) (clean : ∀ l ∈ ls, NUL ∉ l) (some_byte : ∀ l ∈ ls, l ≠ []) :
    answers fill p (ls.map message) = ls.mapIdx fun k line =>
      p.1.answer (fill k) line.dropLast := by
  rw [answers, decoded_messages p.2 clean some_byte]
  apply List.ext_getElem?
  intro k
  rw [List.getElem?_mapIdx, List.getElem?_mapIdx, List.getElem?_map, Option.map_map]
  rfl

/-- The first queries are answered, each for a line of the input. -/
theorem inserted_line {stdin : List Byte} (clean : NUL ∉ stdin)
    (reached : Leads junk (start stdin workers) s) {k : Nat}
    (before : k < s.master.insertedFor.length) : ∃ line, (lines MAXWORD stdin)[k]? = some line ∧
      s.master.insertedFor[k]? = some (queryAnswer junk workers k line.dropLast) := by
  have ran := ran_reachable reached
  have big : 1 < MAXWORD := by decide
  have cleanLines : ∀ l ∈ lines MAXWORD stdin, NUL ∉ l :=
    fun l hl met => clean (mem_of_mem_lines big hl met)
  have sent : s.master.sent = ((lines MAXWORD stdin).take s.master.sent.length).map message := by
    rw [List.map_take, ← sent_lines reached, List.take_left]
  have told : ∀ i p, answers (junk i) p s.master.sent =
      ((lines MAXWORD stdin).take s.master.sent.length).mapIdx fun k line =>
        p.1.answer (junk i k) line.dropLast := by
    intro i p
    conv => lhs; rw [sent]
    exact answers_lines (junk i) p (fun l hl => cleanLines l (List.mem_of_mem_take hl))
      fun l hl => lines_nonempty big l (List.mem_of_mem_take hl)
  have few : s.master.insertedFor.length ≤ s.master.sent.length := ran.owes ▸ Nat.le_add_right _ _
  have sentLines : s.master.sent.length ≤ (lines MAXWORD stdin).length := by
    have whole := congrArg List.length (sent_lines reached)
    simp only [List.length_append, List.length_map] at whole
    omega
  obtain ⟨line, hline⟩ : ∃ line, (lines MAXWORD stdin)[k]? = some line :=
    ⟨_, List.getElem?_eq_getElem (by omega)⟩
  have inside : k < s.master.sent.length := by omega
  refine ⟨line, hline, ?_⟩
  rw [ran.inserted, List.getElem?_map, List.getElem?_range before, Option.map_some, answeredAt,
    queryAnswer]
  simp only [told, List.getD_eq_getElem?_getD, List.getElem?_mapIdx,
    List.getElem?_take_of_lt inside, hline, Option.map_some, Option.getD_some]

theorem inserted_in_order {stdin : List Byte} (clean : NUL ∉ stdin)
    (reached : Leads junk (start stdin workers) s) :
    s.master.insertedFor =
      ((lines MAXWORD stdin).take s.master.insertedFor.length).mapIdx fun k line =>
      queryAnswer junk workers k line.dropLast := by
  apply List.ext_getElem?
  intro k
  rw [List.getElem?_mapIdx]
  by_cases before : k < s.master.insertedFor.length
  · obtain ⟨line, hline, inserted⟩ := inserted_line clean reached before
    rw [inserted, List.getElem?_take_of_lt before, hline, Option.map_some]
  · have past : ((lines MAXWORD stdin).take s.master.insertedFor.length).length ≤ k := by
      rw [List.length_take]
      omega
    rw [List.getElem?_eq_none (by omega), List.getElem?_eq_none past]
    rfl

/-- One file, in which the word stands twice. -/
def oneFile : List (WordIndex × List Byte) :=
  [(⟨[⟨text "list" ++ [NUL], [2]⟩], [text "./d/a"]⟩, [])]

end Order

section Ends

/-- An answer has at most one record for each file, and the empty one. -/
theorem length_answer_le (x : WordIndex) (fill : Nat → FreqRecord) (word : CString) :
    (x.answer fill word).length ≤ x.numOfFiles + 1 := by
  have filled :
      ∀ (put : List FreqRecord → Write → List FreqRecord) (_ : ∀ b w, (put b w).length = b.length)
      (writes : List Write) (block : List FreqRecord),
        (writes.foldl put block).length = block.length := by
    intro put keeps writes
    induction writes with
    | nil => exact fun _ => rfl
    | cons write rest ih => exact fun block => (ih _).trans (keeps block write)
  have block : (x.getWord fill word).length = x.numOfFiles := by
    rw [WordIndex.getWord, filled _ fun _ _ => List.length_set, List.length_map, List.length_range]
  rw [WordIndex.answer, List.length_append, List.length_singleton, ← block]
  exact Nat.succ_le_succ (List.length_filter_le _ _)

/-- No answer is longer than this. -/
def longest (ws : List WorkerState) : Nat := (ws.map fun w => w.index.numOfFiles + 1).sum

/-- The steps that are still to be taken for what a worker has got. -/
def workLeft (bound : Nat) (w : WorkerState) : Nat :=
  w.wordsPipe.length * (2 * bound + 1) + 2 * w.todo.length + w.freqsPipe.length +
    if w.running then 1 else 0

/-- The steps that are still to be taken for what the master has not got to. -/
def linesLeft (bound count : Nat) (m : Master) : Nat :=
  m.input.length * (count * (2 * bound + 2) + 3) +
    match m.place with
    | .fgets => 1
    | .writing i => (count - i) * (2 * bound + 2) + 3
    | .reading i => (count - (i + 1)) * (2 * bound + 2) + 3
    | .printing => 2
    | .finished => 0

def stepsLeft (s : System) : Nat :=
  linesLeft (longest s.workers) s.workers.length s.master +
    (s.workers.map (workLeft (longest s.workers))).sum

theorem sum_set {ws : List WorkerState} (f : WorkerState → Nat) (hw : ws[i]? = some w)
    (w' : WorkerState) :
    ((ws.set i w').map f).sum + f w = (ws.map f).sum + f w' := by
  induction ws generalizing i with
  | nil => cases hw
  | cons v rest ih =>
    cases i with
    | zero =>
      obtain rfl : v = w := by simpa using hw
      simp only [List.set_cons_zero, List.map_cons, List.sum_cons]
      omega
    | succ i =>
      have later := ih (i := i) (by simpa using hw)
      simp only [List.set_cons_succ, List.map_cons, List.sum_cons]
      omega

theorem longest_set {ws : List WorkerState} (hw : ws[i]? = some w) (same : w'.index = w.index) :
    longest (ws.set i w') = longest ws := by
  have sum := sum_set (fun w => w.index.numOfFiles + 1) hw w'
  simp only [longest, same] at sum ⊢
  omega

theorem le_longest {ws : List WorkerState} (hw : ws[i]? = some w) :
    w.index.numOfFiles + 1 ≤ longest ws :=
  List.le_sum_of_mem (List.mem_map_of_mem (List.mem_of_getElem? hw))

/-- A worker that takes a step has less to do. -/
theorem workLeft_step {bound : Nat} (short : w.index.numOfFiles + 1 ≤ bound)
    (h : workerStep fill closed w = .ok w') :
    w'.index = w.index ∧ workLeft bound w' < workLeft bound w := by
  have running : w.running = true := by
    by_contra ended
    rw [workerStep, if_pos (by simpa using ended)] at h
    cases h
  rcases workerStep_cases h with
      ⟨r, later, busy, rfl⟩ | ⟨m, rest, done, pipe, rfl⟩ | ⟨done, none, rfl⟩
  · refine ⟨rfl, ?_⟩
    simp only [workLeft, busy, List.length_append, List.length_cons, List.length_nil]
    omega
  · refine ⟨rfl, ?_⟩
    have few := length_answer_le w.index (fill w.received.length) (cstr (readInto w.queryWord m))
    simp only [workLeft, done, pipe, List.length_cons, List.length_nil, Nat.succ_mul]
    omega
  · refine ⟨rfl, ?_⟩
    simp [workLeft, done, none, running]

theorem stepsLeft_setWorker {i : Nat} (hw : s.workers[i]? = some w) (w' : WorkerState)
    (same : w'.index = w.index) (m : Master) :
    stepsLeft ((s.setMaster m).setWorker i w') + workLeft (longest s.workers) w =
      linesLeft (longest s.workers) s.workers.length m +
        (s.workers.map (workLeft (longest s.workers))).sum +
        workLeft (longest s.workers) w' := by
  have sum := sum_set (workLeft (longest s.workers)) hw w'
  simp only [stepsLeft, System.setWorker, System.setMaster, longest_set hw same, List.length_set]
  omega

/-- Every step of every process is one of the steps that are left. -/
theorem stepsLeft_step (a : Actor) (h : step junk s a = .ok t) : stepsLeft t < stepsLeft s := by
  cases a with
  | worker i =>
    obtain ⟨w, w', hw, hstep, rfl⟩ := workerTurn_cases h
    obtain ⟨same, less⟩ := workLeft_step (le_longest hw) hstep
    have sum := stepsLeft_setWorker hw w' same s.master
    have whole : stepsLeft s = linesLeft (longest s.workers) s.workers.length s.master +
        (s.workers.map (workLeft (longest s.workers))).sum := rfl
    have set : s.setMaster s.master = s := rfl
    rw [set] at sum
    omega
  | master =>
    rcases masterStep_cases h with ⟨place, _, rfl⟩ | ⟨line, rest, place, input, rfl⟩ | ⟨i,
      place, none, rfl⟩ |
      ⟨i, w, place, hw, rfl⟩ | ⟨i, w, r, rest, place, hw, pipe, rfl⟩ | ⟨place, rfl⟩
    · simp [stepsLeft, linesLeft, System.setMaster, place]
    · simp only [stepsLeft, linesLeft, System.setMaster, place, input, List.length_cons,
        Nat.succ_mul, Nat.sub_zero]
      omega
    · simp only [stepsLeft, linesLeft, System.setMaster, place]
      omega
    · have inside := (List.getElem?_eq_some_iff.mp hw).1
      have asked : workLeft (longest s.workers) (if s.master.sent.getLastD [] = [] then w
          else { w with wordsPipe := w.wordsPipe ++ [s.master.sent.getLastD []] }) ≤
            workLeft (longest s.workers) w + (2 * longest s.workers + 1) := by
        split
        · omega
        · simp only [workLeft, List.length_append, List.length_singleton, Nat.succ_mul]
          omega
      have sum := stepsLeft_setWorker hw (if s.master.sent.getLastD [] = [] then w
        else { w with wordsPipe := w.wordsPipe ++ [s.master.sent.getLastD []] }) (by split <;> rfl)
        { s.master with place := .reading i, consumed := [] }
      have turns : s.workers.length - i = s.workers.length - (i + 1) + 1 := by omega
      simp only [stepsLeft, linesLeft, place, turns, Nat.succ_mul] at sum ⊢
      omega
    · have read : workLeft
        (longest s.workers) { w with freqsPipe := rest } + 1 = workLeft (longest s.workers) w := by
        simp only [workLeft, pipe, List.length_cons]
        omega
      have sum := stepsLeft_setWorker hw { w with freqsPipe := rest } rfl
      by_cases more : 0 < r.freq
      · have turn := sum
          { s.master with consumed := s.master.consumed ++ [r], inserts := s.master.inserts ++ [r] }
        rw [if_pos more]
        simp only [stepsLeft, linesLeft, place] at turn ⊢
        omega
      · have turn :=
          sum { s.master with consumed := s.master.consumed ++ [r], place := .writing (i + 1) }
        rw [if_neg more]
        simp only [stepsLeft, linesLeft, place] at turn ⊢
        omega
    · simp only [stepsLeft, linesLeft, System.setMaster, place]
      omega

end Ends

section Waiting

/-- Workers end behind the master; it reads from a worker that there is, and goes on reading behind
records with positive frequencies only. -/
structure Waits (s : System) : Prop where
  running : s.master.place ≠ .finished → ∀ w ∈ s.workers, w.running = true
  inside : ∀ i, s.master.place = .reading i → i < s.workers.length
  asking : ∀ i, s.master.place = .reading i → ∀ r ∈ s.master.consumed, 0 < r.freq

theorem waits_start (stdin : List Byte) (workers : List (WordIndex × List Byte)) :
    Waits (start stdin workers) where
  running := by
    intro _ w hw
    obtain ⟨p, _, rfl⟩ := List.mem_map.mp hw
    rfl
  inside := by simp [QueryPipes.start]
  asking := by simp [QueryPipes.start]

/-- A worker goes on as long as its pipe is open. -/
theorem running_step (h : workerStep fill false w = .ok w') (running : w.running = true) :
    w'.running = true := by
  rcases workerStep_cases h with ⟨_, _, _, rfl⟩ | ⟨_, _, _, _, rfl⟩ | ⟨done, none, rfl⟩
  · exact running
  · exact running
  · simp [workerStep, running, done, none] at h

theorem Waits.set (waits : Waits s) (hw : s.workers[i]? = some w)
    (same : w.running = true → w'.running = true)
    (open_ : s.master.place ≠ .finished) : ∀ v ∈ s.workers.set i w', v.running = true := by
  intro v hv
  rcases List.mem_or_eq_of_mem_set hv with old | rfl
  · exact waits.running open_ v old
  · exact same (waits.running open_ w (List.mem_of_getElem? hw))

theorem Waits.step {a : Actor} (waits : Waits s) (h : step junk s a = .ok t) : Waits t := by
  cases a with
  | worker i =>
    obtain ⟨w, w', hw, hstep, rfl⟩ := workerTurn_cases h
    refine ⟨fun open_ => ?_, fun j place => by simpa [System.setWorker] using waits.inside j place,
      waits.asking⟩
    have closed : decide (s.master.place = .finished) = false := decide_eq_false open_
    exact waits.set hw (fun running => running_step (closed ▸ hstep) running) open_
  | master =>
    rcases masterStep_cases h with ⟨place, _, rfl⟩ | ⟨line, rest, place, input, rfl⟩ | ⟨i,
      place, none, rfl⟩ |
      ⟨i, w, place, hw, rfl⟩ | ⟨i, w, r, rest, place, hw, pipe, rfl⟩ | ⟨place, rfl⟩
    · exact ⟨fun open_ => absurd rfl open_, by simp [System.setMaster], by simp [System.setMaster]⟩
    · exact ⟨fun _ => waits.running (by simp [place]), by simp [System.setMaster],
        by simp [System.setMaster]⟩
    · exact ⟨fun _ => waits.running (by simp [place]), by simp [System.setMaster],
        by simp [System.setMaster]⟩
    · have inside := (List.getElem?_eq_some_iff.mp hw).1
      refine ⟨fun _ => waits.set hw (by split <;> exact id) (by simp [place]), ?_,
        by simp [System.setWorker, System.setMaster]⟩
      intro j reading
      obtain rfl : i = j := by simpa [System.setWorker, System.setMaster] using reading
      simpa [System.setWorker, System.setMaster] using inside
    · have inside := (List.getElem?_eq_some_iff.mp hw).1
      have kept : ∀ v ∈ s.workers.set i { w with freqsPipe := rest }, v.running = true :=
        waits.set hw id (by simp [place])
      by_cases more : 0 < r.freq
      · rw [if_pos more]
        refine ⟨fun _ => kept, ?_, ?_⟩
        · intro j reading
          obtain rfl : i = j := by simpa [System.setWorker, System.setMaster, place] using reading
          simpa [System.setWorker, System.setMaster] using inside
        · intro j reading r' hr
          rcases List.mem_append.mp hr with old | new
          · exact waits.asking i place r' old
          · exact List.mem_singleton.mp new ▸ more
      · rw [if_neg more]
        exact ⟨fun _ => kept, by simp [System.setWorker, System.setMaster],
          by simp [System.setWorker, System.setMaster]⟩
    · exact ⟨fun _ => waits.running (by simp [place]), by simp [System.setMaster],
        by simp [System.setMaster]⟩

/-- No process can take a step. -/
def Stuck (junk : Junk) (s : System) : Prop := ∀ a, step junk s a = .error .blocked

theorem worker_stuck (stuck : Stuck junk s) (hw : s.workers[i]? = some w) :
    workerStep (junk i) (s.master.place = .finished) w = .error .blocked := by
  have blocked := stuck (.worker i)
  simp only [step, hw] at blocked
  cases hstep : workerStep (junk i) (s.master.place = .finished) w with
  | error e => rfl
  | ok w' => simp [hstep, Except.map] at blocked

/-- While the master reads, it or the worker can go on. -/
theorem reading_not_stuck (lockstep : Lockstep s) (waits : Waits s)
    (place : s.master.place = .reading i)
    (whole : s.master.sent.getLastD [] ≠ []) : ¬ Stuck junk s := by
  intro stuck
  have inside := waits.inside i place
  obtain ⟨w, hw⟩ : ∃ w, s.workers[i]? = some w := ⟨_, List.getElem?_eq_getElem inside⟩
  have running := waits.running (by simp [place]) w (List.mem_of_getElem? hw)
  have blocked := worker_stuck stuck hw
  have serves := lockstep.serves i w hw
  simp only [Serves, place, lt_irrefl, if_false, if_true] at serves
  rcases serves with asked | answering
  · have words := asked.words
    rw [if_neg whole] at words
    simp [workerStep, running, asked.todo, words] at blocked
  · cases pipe : w.freqsPipe with
    | cons r rest =>
      have master := stuck .master
      simp [step, masterStep, place, hw, pipe] at master
    | nil =>
      cases todo : w.todo with
      | cons r later => simp [workerStep, running, todo] at blocked
      | nil =>
        have answer := answering.answer.delimited
        rw [pipe, todo, List.append_nil, List.append_nil] at answer
        obtain ⟨front, last, split, _, stop⟩ := answer
        exact stop
          (waits.asking i place last (split ▸ List.mem_append_right front List.mem_cons_self))

/-- Only at the end can nothing go on. -/
theorem stuck_finished (lockstep : Lockstep s) (waits : Waits s)
    (whole : s.master.sent ≠ [] → s.master.sent.getLastD [] ≠ []) (stuck : Stuck junk s) :
    s.master.place = .finished ∧ ∀ w ∈ s.workers, w.running = false := by
  have master := stuck .master
  cases place : s.master.place with
  | fgets => cases input : s.master.input <;> simp [step, masterStep, place, input] at master
  | writing i => cases hw : s.workers[i]? <;> simp [step, masterStep, place, hw] at master
  | reading i =>
    have any := lockstep.asked ⟨i, .inr place⟩
    exact absurd stuck (reading_not_stuck lockstep waits place (whole any))
  | printing => simp [step, masterStep, place] at master
  | finished =>
    refine ⟨rfl, fun w mem => ?_⟩
    obtain ⟨i, hw⟩ := List.mem_iff_getElem?.mp mem
    have blocked := worker_stuck stuck hw
    have idle : Idle s.master.sent w := by simpa only [Serves, place] using lockstep.serves i w hw
    by_contra running
    simp [workerStep, running, idle.todo, idle.words, place] at blocked

/-- And then there is a list for every line. -/
theorem stuck_done {stdin : List Byte} (clean : NUL ∉ stdin)
    (reached : Leads junk (start stdin workers) s)
    (stuck : Stuck junk s) : s.master.place = .finished ∧ (∀ w ∈ s.workers, w.running = false) ∧
      s.master.insertedFor.length = (lines MAXWORD stdin).length := by
  have waits : Waits s :=
    reached.invariant (waits_start stdin workers) fun _ _ _ waits _ h => waits.step h
  have owes := (ran_reachable reached).owes
  have sent := sent_lines reached
  have big : 1 < MAXWORD := by decide
  have whole : s.master.sent ≠ [] → s.master.sent.getLastD [] ≠ [] := by
    intro any
    have last : s.master.sent.getLast any ∈ (lines MAXWORD stdin).map message :=
      sent ▸ List.mem_append_left _ (List.getLast_mem any)
    obtain ⟨line, hl, same⟩ := List.mem_map.mp last
    have cleanLine : NUL ∉ line := fun met => clean (mem_of_mem_lines big hl met)
    rw [List.getLastD_eq_getLast?, List.getLast?_eq_some_getLast any, Option.getD_some, ← same,
      message_of_clean cleanLine (lines_nonempty big line hl)]
    simp
  obtain ⟨finished, ended⟩ := stuck_finished (lockstep_reachable reached) waits whole stuck
  refine ⟨finished, ended, ?_⟩
  have length := congrArg List.length sent
  rw [readAll_of_reached reached finished] at length
  simp only [owed, finished, Nat.add_zero] at owes
  rw [owes]
  simpa using length

end Waiting

section Lists

open ResultList

variable {before : Int} {behind child : FreqRecord} {used records front back : List FreqRecord}
  {r : FreqRecord}

/-- An insertion leaves the list, or adds the record to it. -/
theorem place_cases (before : Int) (used : List FreqRecord) (child : FreqRecord) :
    place before used child = used ∨
      (place before used child).Perm (child :: used) ∧ used.length < MAXRECORDS := by
  rw [place]
  cases found : determineInsertPos before used child used.length with
  | none => exact .inl rfl
  | some pos =>
    refine .inr ⟨?_, (determineInsertPos_le used found).2⟩
    have split := List.take_append_drop pos used
    exact List.perm_middle.trans (by rw [split])

theorem mem_place (mem : r ∈ used) : r ∈ place before used child := by
  rcases place_cases before used child with same | ⟨more, _⟩
  · rwa [same]
  · exact more.mem_iff.mpr (List.mem_cons_of_mem child mem)

theorem mem_places (mem : r ∈ used) : r ∈ records.foldl (place before) used := by
  induction records generalizing used with
  | nil => exact mem
  | cons child rest ih => exact ih (mem_place mem)

theorem places_subperm (before : Int) (used records : List FreqRecord) :
    (records.foldl (place before) used).Subperm (used ++ records) := by
  induction records generalizing used with
  | nil => rw [List.append_nil]; exact List.Subperm.refl used
  | cons r rest ih =>
    refine (ih (place before used r)).trans ?_
    rcases place_cases before used r with same | ⟨more, _⟩
    · rw [same]
      exact (List.Sublist.append_left (List.sublist_cons_self r rest) used).subperm
    · exact ((more.append_right rest).trans List.perm_middle.symm).subperm

theorem length_places (fits : used.length ≤ MAXRECORDS) :
    (records.foldl (place before) used).length ≤ MAXRECORDS := by
  induction records generalizing used with
  | nil => exact fits
  | cons r rest ih =>
    apply ih
    rcases place_cases before used r with same | ⟨more, room⟩
    · rwa [same]
    · rw [more.length_eq, List.length_cons]
      exact room

/-- What is printed are the elements of the array. -/
theorem resultList_perm (before : Int) (behind : FreqRecord) (records : List FreqRecord)
    (named : ∀ r ∈ records, Named r) :
    (resultList before behind records).Perm (records.foldl (place before) []) := by
  have holds : Holds (records.foldl (place before) []) _ :=
    insertions_hold records (emptyResults_holds behind)
  have namedUsed : ∀ r ∈ records.foldl (place before) [], Named r := fun r hr =>
    named r (by simpa using (places_subperm before [] records).subset hr)
  rw [resultList]
  generalize records.foldl (place before) [] = used at holds namedUsed
  by_cases few : used.length < 2
  · rw [printed_few holds few namedUsed]
  · obtain ⟨front, a, b, rfl⟩ : ∃ front a b, used = front ++ [a, b] := by
      rcases List.eq_nil_or_concat used with rfl | ⟨init, b, rfl⟩
      · exact absurd (Nat.zero_lt_two) few
      · rcases List.eq_nil_or_concat init with rfl | ⟨front, a, rfl⟩
        · exact absurd (Nat.one_lt_two) few
        · exact ⟨front, a, b, by simp⟩
    rw [printed_swapped holds namedUsed]
    exact (List.Perm.swap a b []).append_left front

/-- A record above `array[-1].freq` and above all records before it is inserted. -/
theorem place_highest (above : before < child.freq) (highest : ∀ r ∈ used, r.freq < child.freq)
    (room : used.length < MAXRECORDS) : child ∈ place before used child := by
  have last : (if used.length = 0 then before
      else ((used[used.length - 1]?).map FreqRecord.freq).getD 0) < child.freq := by
    split
    · exact above
    · rename_i some_record
      have inside : used.length - 1 < used.length := by omega
      rw [List.getElem?_eq_getElem inside]
      exact highest _ (List.getElem_mem inside)
  have found : determineInsertPos before used child used.length ≠ none := by
    simp only [determineInsertPos, if_pos (And.intro room last)]
    split <;> simp
  rcases place_cases before used child with same | ⟨more, _⟩
  · obtain ⟨pos, hpos⟩ := Option.ne_none_iff_exists'.mp found
    simp [place, hpos]
  · exact more.mem_iff.mpr List.mem_cons_self

/-- Whatever the order of arrival: the printed list is sorted, no record is on it more often than it
has arrived, and no record is missing that is above all that came before it. -/
theorem lists_soundly (before : Int) (behind : FreqRecord) (records : List FreqRecord)
    (named : ∀ r ∈ records, Named r) :
    (resultList before behind records).Pairwise (fun r s => s.freq ≤ r.freq) ∧
      (resultList before behind records).Subperm records ∧
      (resultList before behind records).length ≤ MAXRECORDS ∧
      ∀ front r back, records = front ++ r :: back → front.length < MAXRECORDS → before < r.freq →
        (∀ q ∈ front, q.freq < r.freq) → r ∈ resultList before behind records := by
  have shown := resultList_perm before behind records named
  refine ⟨?_, ?_, ?_, ?_⟩
  · rcases Selection.none_or_first (fun r : FreqRecord => before < r.freq) records with
      none | ⟨skipped, a, tail, rfl, low, first⟩
    · rw [resultList_few (skips_below records (by simpa using none)) (by simp) (by simp)]
      exact List.Pairwise.nil
    · have low : ∀ r ∈ skipped, r.freq ≤ before := by simpa using low
      rcases Selection.none_or_first (fun r : FreqRecord => a.freq < r.freq) tail with
        none | ⟨mid, b, rest, rfl, flat, rises⟩
      · have flat : ∀ r ∈ tail, r.freq ≤ a.freq := by simpa using none
        have one := run_to_one low first flat
        rw [resultList_few one (by simp) (by simpa using named a (by simp))]
        exact List.pairwise_singleton _ a
      · exact (resultList_two behind low first (by simpa using flat) rises named).1
  · simpa using shown.subperm.trans (places_subperm before [] records)
  · rw [shown.length_eq]
    exact length_places (Nat.zero_le _)
  · rintro front r back rfl room above highest
    have earlier := places_subperm before [] front
    rw [List.nil_append] at earlier
    rw [shown.mem_iff, List.foldl_append, List.foldl_cons]
    apply mem_places
    apply place_highest above
    · exact fun q hq => highest q (earlier.subset hq)
    · exact Nat.lt_of_le_of_lt earlier.length_le room

theorem lists_soundly_two :
    (resultList 0 getEmptyFreqrecord [found 3, found 5]).Pairwise (fun r s => s.freq ≤ r.freq) ∧
      (resultList 0 getEmptyFreqrecord [found 3, found 5]).Subperm [found 3, found 5] ∧
      (resultList 0 getEmptyFreqrecord [found 3, found 5]).length ≤ MAXRECORDS ∧
      ∀ front r back, [found 3, found 5] = front ++ r :: back → front.length < MAXRECORDS →
        0 < r.freq →
        (∀ q ∈ front, q.freq < r.freq) → r ∈ resultList 0 getEmptyFreqrecord
        [found 3, found 5] := by
  have named : ∀ r ∈ [found 3, found 5], Named r := by
    simp only [List.forall_mem_cons]
    exact ⟨named_of_sent (by decide), named_of_sent (by decide), by simp⟩
  exact lists_soundly 0 getEmptyFreqrecord [found 3, found 5] named

end Lists

end QueryRuns
