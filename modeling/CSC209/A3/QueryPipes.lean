import CSC209.A3.Worker
import CSC209.HaltingRuns
import CSC209.SentinelAnswers
import CSC209.StreamIO

/-!
# The master, its workers and their pipes

Each process takes one step at a time, in any order: the master reads a line,
writes a word to a worker, reads a record, prints; a worker reads a message or
writes one record. A pipe is the list of the messages or records in it, and a
read from an empty pipe waits as long as the other end is open. A pipe takes
any number of them, since a full one would only delay its writer, and no
process dies. The master inserts every record with a positive frequency into
its array; the inserted records of one query are kept in order, and what is
printed of them is for `ResultList`. A line that starts with a NUL byte is a
string of length 0, for which nothing gets into the pipe.
-/

namespace QueryPipes

open CStrings StreamIO FreqList Worker HaltingRuns SentinelAnswers

/-- What the master writes for a line: its string, with the last character overwritten. -/
def message (line : List Byte) : List Byte :=
  match chop line with
  | none => []
  | some word => word ++ [NUL]

/-- `todo` are the records of the current answer that are still to be written; `received` and
`written` list the messages and the records of the whole run. -/
structure WorkerState where
  index : WordIndex
  wordsPipe : List (List Byte)
  freqsPipe : List FreqRecord
  queryWord : List Byte
  todo : List FreqRecord
  running : Bool
  received : List (List Byte)
  written : List (List FreqRecord)
  deriving DecidableEq, Repr

inductive Place where
  | fgets
  | writing (i : Nat)
  | reading (i : Nat)
  | printing
  | finished
  deriving DecidableEq, Repr

/-- `sent` are the messages of the lines so far, `consumed` the records of the current or last
`do` loop, `inserts` those passed to `insert` for the current query, and `insertedFor` those of each
query whose list has been printed. -/
structure Master where
  place : Place
  input : List (List Byte)
  sent : List (List Byte)
  consumed : List FreqRecord
  inserts : List FreqRecord
  insertedFor : List (List FreqRecord)
  deriving DecidableEq, Repr

structure System where
  master : Master
  workers : List WorkerState
  deriving DecidableEq, Repr

inductive Actor where
  | master
  | worker (i : Nat)
  deriving DecidableEq, Repr

/-- A process that has nothing to read, or has ended, takes no step. -/
inductive Blocked where
  | blocked
  deriving DecidableEq, Repr

section Steps

/-- What an uninitialised block holds: for each worker and each of its queries, every slot. -/
abbrev Junk := Nat → Nat → Nat → FreqRecord

/-- `read` into a buffer that is larger than the message. -/
def readInto (buffer message : List Byte) : List Byte := message ++ buffer.drop message.length

/-- A worker that is done with an answer waits for a message, or for the end of the pipe. -/
def workerStep (junk : Nat → Nat → FreqRecord) (closed : Bool) (w : WorkerState) :
    Except Blocked WorkerState :=
  if w.running = false then .error .blocked
  else
    match w.todo, w.wordsPipe with
    | r :: later, _ =>
      .ok { w with
        freqsPipe := w.freqsPipe ++ [r]
        todo := later
        written := w.written.dropLast ++ [w.written.getLastD [] ++ [r]] }
    | [], m :: rest =>
      let queryWord := readInto w.queryWord m
      .ok { w with
        wordsPipe := rest
        queryWord
        todo := w.index.answer (junk w.received.length) (cstr queryWord)
        received := w.received ++ [m]
        written := w.written ++ [[]] }
    | [], [] => if closed then .ok { w with running := false } else .error .blocked

def System.setMaster (s : System) (m : Master) : System := { s with master := m }

def System.setWorker (s : System) (i : Nat) (w : WorkerState) : System :=
  { s with workers := s.workers.set i w }

/-- The loop of the master: a line, then for each worker the word and the records, then the
list. -/
def masterStep (s : System) : Except Blocked System :=
  let m := s.master
  match m.place with
  | .fgets =>
    match m.input with
    | [] => .ok (s.setMaster { m with place := .finished })
    | line :: rest =>
      .ok (s.setMaster { m with
        place := .writing 0
        input := rest
        sent := m.sent ++ [message line]
        inserts := [] })
  | .writing i =>
    match s.workers[i]? with
    | none => .ok (s.setMaster { m with place := .printing })
    | some w =>
      let word := m.sent.getLastD []
      let w := if word = [] then w else { w with wordsPipe := w.wordsPipe ++ [word] }
      .ok ((s.setMaster { m with place := .reading i, consumed := [] }).setWorker i w)
  | .reading i =>
    match s.workers[i]? with
    | none => .error .blocked
    | some w =>
      match w.freqsPipe with
      | [] => .error .blocked
      | r :: rest =>
        let m := { m with consumed := m.consumed ++ [r] }
        let m :=
          if 0 < r.freq then { m with inserts := m.inserts ++ [r] }
          else { m with place := .writing (i + 1) }
        .ok ((s.setMaster m).setWorker i { w with freqsPipe := rest })
  | .printing =>
    .ok (s.setMaster { m with place := .fgets, insertedFor := m.insertedFor ++ [m.inserts] })
  | .finished => .error .blocked

def step (junk : Junk) (s : System) : Actor → Except Blocked System
  | .master => masterStep s
  | .worker i =>
    match s.workers[i]? with
    | none => .error .blocked
    | some w => (workerStep (junk i) (s.master.place = .finished) w).map (s.setWorker i)

/-- A worker with its index, before its first message; its buffer is not initialised. -/
def startWorker (index : WordIndex) (buffer : List Byte) : WorkerState :=
  ⟨index, [], [], buffer, [], true, [], []⟩

def start (stdin : List Byte) (workers : List (WordIndex × List Byte)) : System :=
  ⟨⟨.fgets, lines MAXWORD stdin, [], [], [], []⟩,
    workers.map fun (index, buffer) => startWorker index buffer⟩

end Steps

variable {junk : Junk} {s t : System} {m : Master} {w w' : WorkerState} {i j : Nat} {closed : Bool}
  {sent : List (List Byte)} {whole : List FreqRecord}

section Cases

/-- What one step of a worker does. -/
theorem workerStep_cases {fill : Nat → Nat → FreqRecord} (h : workerStep fill closed w = .ok w') :
    (∃ r later, w.todo = r :: later ∧
      w' = { w with
        freqsPipe := w.freqsPipe ++ [r]
        todo := later
        written := w.written.dropLast ++ [w.written.getLastD [] ++ [r]] }) ∨
    (∃ word rest, w.todo = [] ∧ w.wordsPipe = word :: rest ∧
      w' = { w with
        wordsPipe := rest
        queryWord := readInto w.queryWord word
        todo := w.index.answer (fill w.received.length) (cstr (readInto w.queryWord word))
        received := w.received ++ [word]
        written := w.written ++ [[]] }) ∨
    (w.todo = [] ∧ w.wordsPipe = [] ∧ w' = { w with running := false }) := by
  rw [workerStep] at h
  split at h
  · cases h
  · split at h
    · rename_i r later htodo
      exact .inl ⟨r, later, htodo, (Except.ok.inj h).symm⟩
    · rename_i word rest htodo hwords
      exact .inr (.inl ⟨word, rest, htodo, hwords, (Except.ok.inj h).symm⟩)
    · rename_i htodo hwords
      split at h
      · exact .inr (.inr ⟨htodo, hwords, (Except.ok.inj h).symm⟩)
      · cases h

/-- What the master does next, by the place where it is. -/
theorem masterStep_cases (h : masterStep s = .ok t) :
    (s.master.place = .fgets ∧ s.master.input = [] ∧
      t = s.setMaster { s.master with place := .finished }) ∨
    (∃ line rest, s.master.place = .fgets ∧ s.master.input = line :: rest ∧
      t = s.setMaster
        { s.master with
          place := .writing 0
          input := rest
          sent := s.master.sent ++ [message line]
          inserts := [] }) ∨
    (∃ i, s.master.place = .writing i ∧ s.workers[i]? = none ∧
      t = s.setMaster { s.master with place := .printing }) ∨
    (∃ i w, s.master.place = .writing i ∧ s.workers[i]? = some w ∧
      t = (s.setMaster { s.master with place := .reading i, consumed := [] }).setWorker i
        (if s.master.sent.getLastD [] = [] then w
          else { w with wordsPipe := w.wordsPipe ++ [s.master.sent.getLastD []] })) ∨
    (∃ i w r rest, s.master.place = .reading i ∧ s.workers[i]? = some w ∧ w.freqsPipe = r :: rest ∧
      t = (s.setMaster
        (if 0 < r.freq then
          { s.master with
            consumed := s.master.consumed ++ [r]
            inserts := s.master.inserts ++ [r] }
        else
          { s.master with
            consumed := s.master.consumed ++ [r]
            place := .writing (i + 1) })).setWorker i { w with freqsPipe := rest }) ∨
    (s.master.place = .printing ∧
      t = s.setMaster
        { s.master with
          place := .fgets
          insertedFor := s.master.insertedFor ++ [s.master.inserts] }) := by
  rw [masterStep] at h
  split at h
  · rename_i place
    split at h
    · rename_i input
      exact .inl ⟨place, input, (Except.ok.inj h).symm⟩
    · rename_i line rest input
      exact .inr (.inl ⟨line, rest, place, input, (Except.ok.inj h).symm⟩)
  · rename_i i place
    split at h
    · rename_i none
      exact .inr (.inr (.inl ⟨i, place, none, (Except.ok.inj h).symm⟩))
    · rename_i w hw
      exact .inr (.inr (.inr (.inl ⟨i, w, place, hw, (Except.ok.inj h).symm⟩)))
  · rename_i i place
    split at h
    · cases h
    · rename_i w hw
      split at h
      · cases h
      · rename_i r rest pipe
        exact .inr
          (.inr (.inr (.inr (.inl ⟨i, w, r, rest, place, hw, pipe, (Except.ok.inj h).symm⟩))))
  · rename_i place
    exact .inr (.inr (.inr (.inr (.inr ⟨place, (Except.ok.inj h).symm⟩))))
  · cases h

theorem workerTurn_cases (h : step junk s (.worker i) = .ok t) :
    ∃ w w', s.workers[i]? = some w ∧
      workerStep (junk i) (s.master.place = .finished) w = .ok w' ∧ t = s.setWorker i w' := by
  rw [step] at h
  cases hw : s.workers[i]? with
  | none => simp [hw] at h
  | some w =>
    simp only [hw] at h
    cases hstep : workerStep (junk i) (s.master.place = .finished) w with
    | error e => simp [hstep, Except.map] at h
    | ok w' =>
      simp only [hstep, Except.map] at h
      exact ⟨w, w', rfl, hstep, (Except.ok.inj h).symm⟩

end Cases

section Protocol

/-- Some records with positive frequencies, and the empty record. -/
def IsAnswer (whole : List FreqRecord) : Prop :=
  ∃ records, whole = records ++ [getEmptyFreqrecord] ∧ ∀ r ∈ records, 0 < r.freq

theorem IsAnswer.delimited (h : IsAnswer whole) :
    Delimited (fun r : FreqRecord => 0 < r.freq) whole := by
  obtain ⟨records, rfl, positive⟩ := h
  exact ⟨records, _, rfl, positive, by decide⟩

/-- Whatever the list and the block hold, only records with positive frequencies come before the
empty one. -/
theorem answer_isAnswer (x : WordIndex) (fill : Nat → FreqRecord) (word : CString) :
    IsAnswer (x.answer fill word) := by
  refine ⟨_, rfl, fun r hr => ?_⟩
  have taken : r.Sent := by simpa using (List.mem_filter.mp hr).2
  exact taken.1

/-- The worker has answered these messages, all is read, and it waits. -/
structure Idle (sent : List (List Byte)) (w : WorkerState) : Prop where
  words : w.wordsPipe = []
  freqs : w.freqsPipe = []
  todo : w.todo = []
  received : w.received = sent
  written : w.written.length = sent.length

/-- The worker is at the last message: what is consumed, in the pipe and to be written is one
answer. -/
structure Answering (m : Master) (w : WorkerState) : Prop where
  words : w.wordsPipe = []
  received : w.received = m.sent
  written :
    ∃ older, w.written = older ++ [m.consumed ++ w.freqsPipe] ∧ older.length + 1 = m.sent.length
  answer : IsAnswer (m.consumed ++ w.freqsPipe ++ w.todo)

/-- The message is still in the pipe; an empty one never is. -/
structure Asked (m : Master) (w : WorkerState) : Prop where
  words : w.wordsPipe = if m.sent.getLastD [] = [] then [] else [m.sent.getLastD []]
  freqs : w.freqsPipe = []
  todo : w.todo = []
  received : w.received = m.sent.dropLast
  written : w.written.length = m.sent.dropLast.length
  consumed : m.consumed = []

/-- Where each worker stands while the master is at its place. -/
def Serves (m : Master) (j : Nat) (w : WorkerState) : Prop :=
  match m.place with
  | .writing i => if j < i then Idle m.sent w else Idle m.sent.dropLast w
  | .reading i =>
    if j < i then Idle m.sent w
    else if j = i then Asked m w ∨ Answering m w
    else Idle m.sent.dropLast w
  | _ => Idle m.sent w

/-- The records with positive frequencies of the workers' last answers. -/
def answered (workers : List WorkerState) : List FreqRecord :=
  (workers.flatMap fun w => w.written.getLastD []).filter fun r => 0 < r.freq

/-- The records inserted for the current query. -/
def Inserted (s : System) : Prop :=
  match s.master.place with
  | .writing i => s.master.inserts = answered (s.workers.take i)
  | .reading i =>
    s.master.inserts = answered (s.workers.take i) ++ s.master.consumed.filter fun r => 0 < r.freq
  | .printing => s.master.inserts = answered s.workers
  | _ => True

structure Lockstep (s : System) : Prop where
  serves : ∀ j w, s.workers[j]? = some w → Serves s.master j w
  asked : (∃ i, s.master.place = .writing i ∨ s.master.place = .reading i) → s.master.sent ≠ []
  inserted : Inserted s

/-- A worker without a message can only end. -/
theorem Idle.step {fill : Nat → Nat → FreqRecord} (idle : Idle sent w)
    (h : workerStep fill closed w = .ok w') :
    Idle sent w' ∧ w'.written = w.written := by
  rcases workerStep_cases h with ⟨r, later, busy, _⟩ | ⟨word, rest, _, busy, _⟩ | ⟨_, _, rfl⟩
  · rw [idle.todo] at busy
    cases busy
  · rw [idle.words] at busy
    cases busy
  · exact ⟨⟨idle.words, idle.freqs, idle.todo, idle.received, idle.written⟩, rfl⟩

/-- The worker that was asked starts its answer. -/
theorem Asked.step {fill : Nat → Nat → FreqRecord} (asked : Asked m w) (any : m.sent ≠ [])
    (h : workerStep fill closed w = .ok w') : Asked m w' ∨ Answering m w' := by
  rcases workerStep_cases h with ⟨r, later, busy, _⟩ | ⟨word, rest, _, pipe, rfl⟩ | ⟨_, _, rfl⟩
  · rw [asked.todo] at busy
    cases busy
  · have words := asked.words
    rw [pipe] at words
    split at words
    · cases words
    · obtain ⟨rfl, rfl⟩ := List.cons.inj words
      have last : m.sent.dropLast ++ [m.sent.getLastD []] = m.sent := by
        rw [List.getLastD_eq_getLast?, List.getLast?_eq_some_getLast any, Option.getD_some,
          List.dropLast_append_getLast]
      refine .inr ⟨rfl, by rw [asked.received, last], ⟨w.written, ?_, ?_⟩, ?_⟩
      · simp [asked.consumed, asked.freqs]
      · have length := congrArg List.length last
        rw [List.length_append, List.length_singleton] at length
        rw [asked.written, length]
      · simpa [asked.consumed, asked.freqs] using answer_isAnswer _ _ _
  · exact .inl ⟨asked.words, asked.freqs, asked.todo, asked.received, asked.written, asked.consumed⟩

/-- The worker that answers writes its next record. -/
theorem Answering.step {fill : Nat → Nat → FreqRecord} (answering : Answering m w)
    (h : workerStep fill closed w = .ok w') : Answering m w' := by
  obtain ⟨older, written, length⟩ := answering.written
  rcases workerStep_cases h with ⟨r, later, busy, rfl⟩ | ⟨word, rest, _, pipe, _⟩ | ⟨_, _, rfl⟩
  · refine ⟨answering.words, answering.received, ⟨older, ?_, length⟩, ?_⟩
    · simp [written]
    · simpa [busy] using answering.answer
  · rw [answering.words] at pipe
    cases pipe
  · exact ⟨answering.words, answering.received, ⟨older, written, length⟩, answering.answer⟩

end Protocol

section Invariant

theorem get_setWorker {v : WorkerState} (hw : s.workers[i]? = some w)
    (h : (s.setWorker i w').workers[j]? = some v) :
    (j = i ∧ v = w') ∨ (j ≠ i ∧ s.workers[j]? = some v) := by
  have inside : i < s.workers.length := (List.getElem?_eq_some_iff.mp hw).1
  by_cases same : j = i
  · subst same
    exact .inl ⟨rfl, by simpa [System.setWorker, inside, eq_comm] using h⟩
  · exact .inr ⟨same, by simpa [System.setWorker, List.getElem?_set_ne (Ne.symm same)] using h⟩

theorem answered_congr {ws vs : List WorkerState}
    (same : ws.map WorkerState.written = vs.map WorkerState.written) :
    answered ws = answered vs := by
  have lists : ∀ us : List WorkerState, us.flatMap (fun w => w.written.getLastD []) =
      (us.map WorkerState.written).flatMap fun l => l.getLastD [] := by
    intro us
    rw [List.flatMap_map]
  rw [answered, answered, lists, lists, same]

/-- A step that writes no record keeps the answers. -/
theorem written_setWorker (hw : s.workers[i]? = some w) (same : w'.written = w.written) :
    (s.setWorker i w').workers.map WorkerState.written = s.workers.map WorkerState.written := by
  obtain ⟨inside, here⟩ := List.getElem?_eq_some_iff.mp hw
  have long : i < (s.workers.map WorkerState.written).length := by simpa using inside
  have cell : (s.workers.map WorkerState.written)[i] = w.written := by simp [here]
  rw [System.setWorker, List.map_set, same, ← cell, List.set_getElem_self]

theorem answered_take (hw : s.workers[i]? = some w) :
    answered (s.workers.take (i + 1)) =
      answered (s.workers.take i) ++ (w.written.getLastD []).filter fun r => 0 < r.freq := by
  obtain ⟨inside, here⟩ := List.getElem?_eq_some_iff.mp hw
  rw [List.take_succ_eq_append_getElem inside, here, answered, answered, List.flatMap_append,
    List.filter_append]
  simp

/-- The step of a worker keeps what holds of it. -/
theorem Serves.step {fill : Nat → Nat → FreqRecord} (serves : Serves m j w)
    (any : m.place = .reading j → m.sent ≠ []) (h : workerStep fill closed w = .ok w') :
    Serves m j w' := by
  cases place : m.place with
  | writing i =>
    simp only [Serves, place] at serves ⊢
    split <;> rename_i side
    · rw [if_pos side] at serves
      exact (serves.step h).1
    · rw [if_neg side] at serves
      exact (serves.step h).1
  | reading i =>
    simp only [Serves, place] at serves ⊢
    split <;> rename_i side
    · rw [if_pos side] at serves
      exact (serves.step h).1
    · rw [if_neg side] at serves
      split <;> rename_i turn
      · rw [if_pos turn] at serves
        subst turn
        rcases serves with asked | answering
        · exact asked.step (any place) h
        · exact .inr (answering.step h)
      · rw [if_neg turn] at serves
        exact (serves.step h).1
  | fgets | printing | finished =>
    simp only [Serves, place] at serves ⊢
    exact (serves.step h).1

/-- A worker whose turn is over writes nothing. -/
theorem Serves.written {fill : Nat → Nat → FreqRecord} (serves : Serves m j w)
    (past : ∀ i, m.place = .reading i → j < i) (h : workerStep fill closed w = .ok w') :
    w'.written = w.written := by
  cases place : m.place with
  | writing i =>
    simp only [Serves, place] at serves
    split at serves <;> exact (serves.step h).2
  | reading i =>
    simp only [Serves, place, if_pos (past i place)] at serves
    exact (serves.step h).2
  | fgets | printing | finished =>
    simp only [Serves, place] at serves
    exact (serves.step h).2

theorem take_set_written (hw : s.workers[i]? = some w) {k : Nat}
    (same : i < k → w'.written = w.written) :
    answered ((s.setWorker i w').workers.take k) = answered (s.workers.take k) := by
  by_cases inside : i < k
  · apply answered_congr
    rw [List.map_take, written_setWorker hw (same inside), List.map_take]
  · rw [System.setWorker, List.take_set_of_le (Nat.le_of_not_lt inside)]

theorem Lockstep.worker {fill : Nat → Nat → FreqRecord} (inv : Lockstep s)
    (hw : s.workers[i]? = some w)
    (h : workerStep fill closed w = .ok w') : Lockstep (s.setWorker i w') := by
  have serves := inv.serves i w hw
  refine ⟨?_, inv.asked, ?_⟩
  · intro j v hv
    rcases get_setWorker hw hv with ⟨rfl, rfl⟩ | ⟨_, hv⟩
    · exact serves.step (fun place => inv.asked ⟨j, .inr place⟩) h
    · exact inv.serves j v hv
  · have kept := inv.inserted
    have master : (s.setWorker i w').master = s.master := rfl
    simp only [Inserted, master] at kept ⊢
    cases place : s.master.place with
    | writing k =>
      rw [place] at kept
      simp only at kept ⊢
      rw [take_set_written hw fun _ => serves.written (by simp [place]) h]
      exact kept
    | reading k =>
      rw [place] at kept
      simp only at kept ⊢
      rw [take_set_written hw fun inside => serves.written (by simpa [place] using inside) h]
      exact kept
    | printing =>
      rw [place] at kept
      simp only at kept ⊢
      rw [answered_congr (written_setWorker hw (serves.written (by simp [place]) h))]
      exact kept
    | fgets | finished => trivial

/-- The last worker was served, or none was asked: the master gets no worker at its place. -/
theorem Lockstep.endOfWorkers (inv : Lockstep s) (place : s.master.place = .writing i)
    (none : s.workers[i]? = none) :
    Lockstep (s.setMaster { s.master with place := .printing }) := by
  have outside : s.workers.length ≤ i := List.getElem?_eq_none_iff.mp none
  refine ⟨?_, by simp [System.setMaster], ?_⟩
  · intro j w hw
    have serves := inv.serves j w hw
    have inside : j < s.workers.length := (List.getElem?_eq_some_iff.mp hw).1
    simp only [Serves, place] at serves
    rw [if_pos (by omega)] at serves
    exact serves
  · have inserted := inv.inserted
    simp only [Inserted, place] at inserted
    rw [List.take_of_length_le outside] at inserted
    exact inserted

/-- The word goes into the pipe of the next worker. -/
theorem Lockstep.ask (inv : Lockstep s) (place : s.master.place = .writing i)
    (hw : s.workers[i]? = some w) :
    Lockstep ((s.setMaster { s.master with place := .reading i, consumed := [] }).setWorker i
      (if s.master.sent.getLastD [] = [] then w
        else { w with wordsPipe := w.wordsPipe ++ [s.master.sent.getLastD []] })) := by
  have any := inv.asked ⟨i, .inl place⟩
  have waits := inv.serves i w hw
  simp only [Serves, place, lt_irrefl, if_false] at waits
  refine ⟨?_, fun _ => any, ?_⟩
  · intro j v hv
    rcases get_setWorker hw hv with ⟨rfl, rfl⟩ | ⟨other, hv⟩
    · simp only [Serves, System.setWorker, System.setMaster, lt_irrefl, if_false, if_true]
      left
      split <;> rename_i empty
      · exact ⟨by simp only [if_pos empty]; exact waits.words, waits.freqs, waits.todo,
          waits.received, waits.written, rfl⟩
      · exact ⟨by simp only [if_neg empty, waits.words]; rfl, waits.freqs, waits.todo,
          waits.received, waits.written, rfl⟩
    · have serves := inv.serves j v hv
      simp only [Serves, place] at serves
      simpa only [Serves, System.setWorker, System.setMaster, if_neg other] using serves
  · have inserted := inv.inserted
    simp only [Inserted, place] at inserted
    simp only [Inserted, System.setWorker, System.setMaster, List.filter_nil, List.append_nil,
      List.take_set_of_le (Nat.le_refl i)]
    exact inserted

/-- A record that asks for more leaves the rest of the answer behind it. -/
theorem Answering.read {r : FreqRecord} {rest : List FreqRecord} {m' : Master}
    (answering : Answering m w) (pipe : w.freqsPipe = r :: rest) (sent : m'.sent = m.sent)
    (consumed : m'.consumed = m.consumed ++ [r]) :
    Answering m' { w with freqsPipe := rest } := by
  obtain ⟨older, written, length⟩ := answering.written
  refine ⟨answering.words, by rw [sent, answering.received], ⟨older, ?_, by rw [sent, length]⟩, ?_⟩
  · simp [written, pipe, consumed]
  · simpa [pipe, consumed] using answering.answer

/-- The record that ends the answer is the last one, in the pipe and in the worker. -/
theorem Answering.last {r : FreqRecord} {rest : List FreqRecord} (answering : Answering m w)
    (pipe : w.freqsPipe = r :: rest) (stop : ¬ 0 < r.freq) :
    Idle m.sent { w with freqsPipe := rest } ∧ IsAnswer (m.consumed ++ [r]) ∧
      w.written.getLastD [] = m.consumed ++ [r] := by
  obtain ⟨older, written, length⟩ := answering.written
  have answer := answering.answer
  rw [pipe, List.append_assoc, List.cons_append] at answer
  obtain ⟨rfl, done⟩ := List.append_eq_nil_iff.mp (answer.delimited.ends stop)
  refine ⟨⟨answering.words, rfl, done, answering.received, ?_⟩, by simpa [done] using answer, ?_⟩
  · rw [written, List.length_append, List.length_singleton, length]
  · simp [written, pipe]

/-- A worker with a record in its pipe while the master reads from it has begun its answer. -/
theorem Lockstep.answering {r : FreqRecord} {rest : List FreqRecord} (inv : Lockstep s)
    (place : s.master.place = .reading i) (hw : s.workers[i]? = some w)
    (pipe : w.freqsPipe = r :: rest) :
    Answering s.master w := by
  have serves := inv.serves i w hw
  simp only [Serves, place, lt_irrefl, if_false, if_true] at serves
  rcases serves with asked | answering
  · rw [asked.freqs] at pipe
    cases pipe
  · exact answering

theorem Lockstep.more {r : FreqRecord} {rest : List FreqRecord} (inv : Lockstep s)
    (place : s.master.place = .reading i) (hw : s.workers[i]? = some w)
    (pipe : w.freqsPipe = r :: rest) (asks : 0 < r.freq) :
    Lockstep ((s.setMaster
      { s.master with
        consumed := s.master.consumed ++ [r]
        inserts := s.master.inserts ++ [r] }).setWorker i
        { w with freqsPipe := rest }) := by
  have answering := inv.answering place hw pipe
  refine ⟨?_, fun _ => inv.asked ⟨i, .inr place⟩, ?_⟩
  · intro j v hv
    rcases get_setWorker hw hv with ⟨rfl, rfl⟩ | ⟨other, hv⟩
    · simp only [Serves, System.setWorker, System.setMaster, place, lt_irrefl, if_false, if_true]
      exact .inr (answering.read pipe rfl rfl)
    · have serves := inv.serves j v hv
      simp only [Serves, place, if_neg other] at serves
      simpa only [Serves, System.setWorker, System.setMaster, place, if_neg other] using serves
  · have inserted := inv.inserted
    simp only [Inserted, place] at inserted
    simp only [Inserted, System.setWorker, System.setMaster, place,
      List.take_set_of_le (Nat.le_refl i)]
    rw [inserted, List.filter_append, List.append_assoc,
      List.filter_cons_of_pos (by simpa using asks)]
    rfl

theorem Lockstep.ended {r : FreqRecord} {rest : List FreqRecord} (inv : Lockstep s)
    (place : s.master.place = .reading i) (hw : s.workers[i]? = some w)
    (pipe : w.freqsPipe = r :: rest) (stop : ¬ 0 < r.freq) :
    Lockstep ((s.setMaster
      { s.master with consumed := s.master.consumed ++ [r], place := .writing (i + 1) }).setWorker i
        { w with freqsPipe := rest }) := by
  have answering := inv.answering place hw pipe
  obtain ⟨idle, _, last⟩ := answering.last pipe stop
  refine ⟨?_, fun _ => inv.asked ⟨i, .inr place⟩, ?_⟩
  · intro j v hv
    rcases get_setWorker hw hv with ⟨rfl, rfl⟩ | ⟨other, hv⟩
    · simpa only [Serves, System.setWorker, System.setMaster, Nat.lt_succ_self, if_true] using idle
    · have serves := inv.serves j v hv
      simp only [Serves, place, if_neg other] at serves
      simp only [Serves, System.setWorker, System.setMaster]
      split <;> rename_i side
      · rw [if_pos (by omega)] at serves
        exact serves
      · rw [if_neg (by omega)] at serves
        exact serves
  · have inserted := inv.inserted
    simp only [Inserted, place] at inserted
    have kept : answered ((s.setWorker i { w with freqsPipe := rest }).workers.take (i + 1)) =
        answered (s.workers.take (i + 1)) := take_set_written hw fun _ => rfl
    simp only [Inserted, System.setWorker, System.setMaster] at kept ⊢
    rw [kept, answered_take hw, last, inserted, List.filter_append,
      List.filter_cons_of_neg (by simpa using stop)]
    simp

theorem Lockstep.start (stdin : List Byte) (workers : List (WordIndex × List Byte)) :
    Lockstep (start stdin workers) := by
  refine ⟨?_, by simp [QueryPipes.start], trivial⟩
  intro j w hw
  obtain ⟨p, _, rfl⟩ := List.mem_map.mp (List.mem_of_getElem? hw)
  exact ⟨rfl, rfl, rfl, rfl, rfl⟩

/-- Every step of every process keeps the protocol. -/
theorem Lockstep.step {a : Actor} (inv : Lockstep s) (h : step junk s a = .ok t) : Lockstep t := by
  cases a with
  | worker i =>
    obtain ⟨w, w', hw, hstep, rfl⟩ := workerTurn_cases h
    exact inv.worker hw hstep
  | master =>
    rcases masterStep_cases h with ⟨place, _, rfl⟩ | ⟨line, rest, place, _, rfl⟩ |
      ⟨i, place, none, rfl⟩ | ⟨i, w, place, hw, rfl⟩ | ⟨i, w, r, rest, place, hw, pipe, rfl⟩ |
      ⟨place, rfl⟩
    · refine ⟨?_, by simp [System.setMaster], trivial⟩
      intro j w hw
      simpa only [Serves, place, System.setMaster] using inv.serves j w hw
    · refine ⟨?_, fun _ => by simp [System.setMaster],
        by simp [Inserted, System.setMaster, answered]⟩
      intro j w hw
      simpa only [Serves, place, System.setMaster, Nat.not_lt_zero, if_false,
        List.dropLast_concat] using inv.serves j w hw
    · exact inv.endOfWorkers place none
    · exact inv.ask place hw
    · split <;> rename_i asks
      · exact inv.more place hw pipe asks
      · exact inv.ended place hw pipe asks
    · refine ⟨?_, by simp [System.setMaster], trivial⟩
      intro j w hw
      simpa only [Serves, place, System.setMaster] using inv.serves j w hw

end Invariant

section Results

variable {stdin : List Byte} {workers : List (WordIndex × List Byte)}

theorem lockstep_reachable
    (reached : Reachable (step junk) (fun _ _ => True) (start stdin workers) s) : Lockstep s :=
  reached.invariant (Lockstep.start stdin workers) fun _ _ _ inv _ h => inv.step h

/-- A step reads a line and sends its message, or changes neither. -/
theorem sent_step {a : Actor} (h : step junk s a = .ok t) :
    t.master.sent ++ t.master.input.map message = s.master.sent ++ s.master.input.map message := by
  cases a with
  | worker i =>
    obtain ⟨w, w', _, _, rfl⟩ := workerTurn_cases h
    rfl
  | master =>
    rcases masterStep_cases h with ⟨_, input, rfl⟩ | ⟨line, rest, _, input, rfl⟩ | ⟨_, _, _, rfl⟩ |
      ⟨_, _, _, _, rfl⟩ | ⟨_, _, r, _, _, _, _, rfl⟩ | ⟨_, rfl⟩
    · rfl
    · simp [System.setMaster, input]
    · rfl
    · rfl
    · by_cases asks : 0 < r.freq <;> simp [System.setWorker, System.setMaster, asks]
    · rfl

/-- The messages sent are those of the first lines. -/
theorem sent_lines (reached : Reachable (step junk) (fun _ _ => True) (start stdin workers) s) :
    s.master.sent ++ s.master.input.map message = (lines MAXWORD stdin).map message := by
  induction reached with
  | start => rfl
  | next _ _ _ hs ih => exact (sent_step hs).trans ih

/-- When the master leaves the loop for a worker it has read what that worker wrote for the last
message, to its empty record, and nothing is left in the two pipes. -/
theorem master_in_lockstep (stdin : List Byte) (workers : List (WordIndex × List Byte))
    (junk : Junk) (s t : System) (i : Nat)
    (reached : Reachable (step junk) (fun _ _ => True) (start stdin workers) s)
    (inside : s.master.place = .reading i) (h : step junk s .master = .ok t)
    (left : t.master.place ≠ .reading i) :
    ∃ w, t.workers[i]? = some w ∧ w.wordsPipe = [] ∧ w.freqsPipe = [] ∧
      w.received = t.master.sent ∧ t.master.sent <+: (lines MAXWORD stdin).map message ∧
      w.written.length = t.master.sent.length ∧ w.written.getLast? = some t.master.consumed ∧
      IsAnswer t.master.consumed ∧ t.master.inserts = answered (t.workers.take (i + 1)) := by
  have inv := lockstep_reachable reached
  have inv' := inv.step h
  have sent : t.master.sent <+: (lines MAXWORD stdin).map message :=
    ⟨_, (sent_step h).trans (sent_lines reached)⟩
  rcases masterStep_cases h with ⟨place, _⟩ | ⟨_, _, place, _⟩ | ⟨_, place, _⟩ | ⟨_, _, place, _⟩ |
    ⟨k, w, r, rest, place, hw, pipe, rfl⟩ | ⟨place, _⟩
  · simp [inside] at place
  · simp [inside] at place
  · simp [inside] at place
  · simp [inside] at place
  · obtain rfl : i = k := by simpa [inside] using place
    have answering := inv.answering place hw pipe
    have inRange := (List.getElem?_eq_some_iff.mp hw).1
    by_cases asks : 0 < r.freq
    · exact absurd inside (by simpa [System.setWorker, System.setMaster, asks] using left)
    · obtain ⟨idle, answer, last⟩ := answering.last pipe asks
      obtain ⟨older, written, _⟩ := answering.written
      have inserted := inv'.inserted
      simp only [if_neg asks] at sent inserted ⊢
      refine ⟨{ w with freqsPipe := rest }, by simp [System.setWorker, inRange, System.setMaster],
        idle.words, idle.freqs, idle.received, sent, idle.written, ?_, answer, inserted⟩
      rw [written, List.getLastD_concat] at last
      rw [written, List.getLast?_concat, last]
      rfl
  · simp [inside] at place

/-- Two workers, one of them with an empty list; new blocks hold records that look like answers. -/
theorem master_in_lockstep_two :
    let found : WordIndex := ⟨[⟨text "list" ++ [NUL], [2, 0]⟩], [text "./d/a", text "./d/b"]⟩
    let workers : List (WordIndex × List Byte) := [(found, []), (⟨[], [text "./e/c"]⟩, [])]
    let junk : Junk := fun _ _ _ => ⟨7, text "./f"⟩
    let turns : List Actor := [.master, .master, .worker 0, .worker 0, .master, .worker 0]
    ∃ s t, run (step junk) (start (text "list\nno") workers) turns = .ok s ∧
      step junk s .master = .ok t ∧
      ∃ w, t.workers[0]? = some w ∧ w.wordsPipe = [] ∧ w.freqsPipe = [] ∧
        w.received = t.master.sent ∧
        t.master.sent <+: (lines MAXWORD (text "list\nno")).map message ∧
        w.written.length = t.master.sent.length ∧ w.written.getLast? = some t.master.consumed ∧
        IsAnswer t.master.consumed ∧ t.master.inserts = answered (t.workers.take (0 + 1)) := by
  intro found workers junk turns
  have whole : ∃ t, run (step junk) (start (text "list\nno") workers) (turns ++ [.master]) = .ok t ∧
      t.master.place = .writing 1 := exists_of_run (by decide)
  have before : ∃ s, run (step junk) (start (text "list\nno") workers) turns = .ok s ∧
      s.master.place = .reading 0 := exists_of_run (by decide)
  obtain ⟨t, ht, after⟩ := whole
  obtain ⟨s, hs, inside⟩ := before
  obtain ⟨s', hs', hstep⟩ := run_snoc ht
  obtain rfl : s = s' := Except.ok.inj (hs.symm.trans hs')
  have reached :=
    reachable_of_run (along_of_invariant (I := fun _ => True) trivial (fun _ _ _ _ _ => trivial)
      (fun _ _ _ => trivial) turns) hs
  exact ⟨s, t, hs, hstep,
    master_in_lockstep (text "list\nno") workers junk s t 0 reached inside hstep (by simp [after])⟩

end Results

end QueryPipes
