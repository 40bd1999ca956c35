import CSC209.A3.QueryPipes

/-!
# The words that reach the workers

The master takes a line with a limit of `MAXWORD` bytes, overwrites its last
character whatever it is, and sends the string with its NUL; a worker reads
the message into a buffer of the same size. So the words that arrive are the
pieces that `fgets` makes of the input, each without its last byte.
-/

namespace QueryWords

open CStrings StreamIO FreqList Worker HaltingRuns QueryPipes

/-- A line without its newline, if it has one. -/
def wordOf (line : List Byte) : CString := if line.getLast? = some LF then line.dropLast else line

/-- The words that a worker reads from its messages, with what its buffer holds before the first. -/
def decoded (queryWord : List Byte) : List (List Byte) → List CString
  | [] => []
  | m :: rest => cstr (readInto queryWord m) :: decoded (readInto queryWord m) rest

/-- The line fits the buffer of the master with its newline. -/
def Whole (line : List Byte) : Prop := line.length < MAXWORD ∧ line.getLast? = some LF

instance (line : List Byte) : Decidable (Whole line) := inferInstanceAs (Decidable (_ ∧ _))

abbrev Leads (junk : Junk) : System → System → Prop := Reachable (step junk) fun _ _ => True

variable {junk : Junk} {s t : System} {w : WorkerState} {i : Nat} {stdin : List Byte}
  {workers : List (WordIndex × List Byte)}

section Words

theorem message_of_clean {line : List Byte} (clean : NUL ∉ line) (some_byte : line ≠ []) :
    message line = line.dropLast ++ [NUL] := by
  rw [message, chop_of_clean clean some_byte]

theorem decoded_messages (queryWord : List Byte) {ls : List (List Byte)} (clean : ∀ l ∈ ls, NUL ∉ l)
    (some_byte : ∀ l ∈ ls, l ≠ []) : decoded queryWord (ls.map message) = ls.map List.dropLast := by
  induction ls generalizing queryWord with
  | nil => rfl
  | cons line rest ih =>
    have word : NUL ∉ line.dropLast :=
      fun h => clean line List.mem_cons_self (List.mem_of_mem_dropLast h)
    have here :=
      message_of_clean (clean line List.mem_cons_self) (some_byte line List.mem_cons_self)
    have later :=
      ih (readInto queryWord (message line)) (fun l hl => clean l (List.mem_cons_of_mem line hl))
      fun l hl => some_byte l (List.mem_cons_of_mem line hl)
    simp only [List.map_cons, decoded, later]
    rw [here, readInto, List.append_assoc, List.singleton_append, cstr_append_nul _ _ word]

/-- The pieces without their last bytes are the lines without their newlines exactly when every
line is a piece and has a newline. -/
theorem pieces_iff (stdin : List Byte) :
    (lines MAXWORD stdin).map List.dropLast = (textLines stdin).map wordOf ↔
      ∀ line ∈ textLines stdin, Whole line := by
  have big : 1 < MAXWORD := by decide
  constructor
  · intro same
    have count : (textLines stdin).length = (lines MAXWORD stdin).length := by
      simpa using (congrArg List.length same).symm
    have short := (length_textLines_le big stdin).2 count
    have pieces := lines_textLines big short
    intro line hl
    refine ⟨short line hl, ?_⟩
    rw [pieces] at same
    have here : line.dropLast = wordOf line := List.map_inj_left.mp same line hl
    by_contra no_newline
    rw [wordOf, if_neg no_newline] at here
    have some_byte := List.length_pos_of_ne_nil (lines_nonempty big line (pieces ▸ hl))
    have := congrArg List.length here
    rw [List.length_dropLast] at this
    omega
  · intro whole
    rw [lines_textLines big fun line hl => (whole line hl).1]
    refine List.map_congr_left fun line hl => ?_
    rw [wordOf, if_pos (whole line hl).2]

end Words

section Ends

/-- The master ends at the end of its input. -/
def ReadAll (s : System) : Prop := s.master.place = .finished → s.master.input = []

theorem readAll_of_reached (reached : Leads junk (start stdin workers) s) : ReadAll s := by
  apply reached.invariant
  · intro h
    cases h
  · intro s a t keeps _ h done
    cases a with
    | worker i =>
      obtain ⟨w, w', _, _, rfl⟩ := workerTurn_cases h
      exact keeps done
    | master =>
      rcases masterStep_cases h with ⟨_, input, rfl⟩ | ⟨line, rest, _, _, rfl⟩ | ⟨_, _, _, rfl⟩ |
        ⟨_, _, _, _, rfl⟩ | ⟨_, _, r, _, place, _, _, rfl⟩ | ⟨_, rfl⟩
      · exact input
      · cases done
      · cases done
      · cases done
      · by_cases asks :
            0 < r.freq <;> simp [System.setWorker, System.setMaster, asks, place] at done
      · cases done

theorem received_of_finished (reached : Leads junk (start stdin workers) s)
    (done : s.master.place = .finished)
    (hw : s.workers[i]? = some w) : w.received = (lines MAXWORD stdin).map message := by
  have serves := (lockstep_reachable reached).serves i w hw
  have idle : Idle s.master.sent w := by simpa only [Serves, done] using serves
  rw [idle.received, ← sent_lines reached, readAll_of_reached reached done]
  simp

end Ends

section Progress

/-- The worker waits for a message. -/
structure Rests (w : WorkerState) : Prop where
  words : w.wordsPipe = []
  freqs : w.freqsPipe = []
  todo : w.todo = []
  running : w.running = true

/-- The master goes on to the next worker with the same lines before it, and this one rests. -/
structure Served (s t : System) (i : Nat) : Prop where
  place : t.master.place = .writing (i + 1)
  input : t.master.input = s.master.input
  sent : t.master.sent = s.master.sent
  count : t.workers.length = s.workers.length
  others : ∀ j v, t.workers[j]? = some v → Rests v ∨ j ≠ i ∧ s.workers[j]? = some v

theorem leads_step {a : Actor} (h : step junk s a = .ok t) : Leads junk s t :=
  .next a .start trivial h

theorem step_worker {w' : WorkerState} (hw : s.workers[i]? = some w)
    (h : workerStep (junk i) (s.master.place = .finished) w = .ok w') :
    step junk s (.worker i) = .ok (s.setWorker i w') := by
  simp only [step, hw, h, Except.map]

/-- The next record of an answer is written and read. -/
theorem record_read (junk : Junk) {r : FreqRecord} {later : List FreqRecord}
    (place : s.master.place = .reading i)
    (hw : s.workers[i]? = some w) (words : w.wordsPipe = []) (freqs : w.freqsPipe = [])
    (running : w.running = true) (todo : w.todo = r :: later) :
    ∃ t w', Leads junk s t ∧ t.workers = s.workers.set i w' ∧ w'.wordsPipe = [] ∧
      w'.freqsPipe = [] ∧
      w'.running = true ∧ w'.todo = later ∧ t.master.input = s.master.input ∧
      t.master.sent = s.master.sent ∧
      t.master.place = if 0 < r.freq then .reading i else .writing (i + 1) := by
  have inside : i < s.workers.length := (List.getElem?_eq_some_iff.mp hw).1
  let w₁ : WorkerState := { w with
    freqsPipe := w.freqsPipe ++ [r]
    todo := later
    written := w.written.dropLast ++ [w.written.getLastD [] ++ [r]] }
  have written : step junk s (.worker i) = .ok (s.setWorker i w₁) := by
    apply step_worker hw
    simp [workerStep, running, todo, w₁]
  have pipe : (s.setWorker i w₁).workers[i]? = some w₁ := by simp [System.setWorker, inside]
  have full : w₁.freqsPipe = [r] := by simp [w₁, freqs]
  let m : QueryPipes.Master := { s.master with
    place := .reading i
    consumed := s.master.consumed ++ [r] }
  let m' : QueryPipes.Master :=
    if 0 < r.freq then { m with inserts := m.inserts ++ [r] }
      else { m with place := .writing (i + 1) }
  have read : step junk (s.setWorker i w₁) .master =
      .ok (((s.setWorker i w₁).setMaster m').setWorker i { w₁ with freqsPipe := [] }) := by
    have here : (s.setWorker i w₁).master.place = .reading i := place
    simp only [step, masterStep, here, pipe, full]
    rfl
  refine ⟨_, { w₁ with freqsPipe := [] }, (leads_step written).trans (leads_step read), ?_, words,
    rfl, running, rfl, ?_, ?_, ?_⟩
  · simp [System.setWorker, System.setMaster]
  all_goals by_cases asks : 0 < r.freq <;> simp [System.setWorker, System.setMaster, m', m, asks]

theorem Served.of_set {w' : WorkerState} (place : t.master.place = .writing (i + 1))
    (input : t.master.input = s.master.input) (sent : t.master.sent = s.master.sent)
    (set : t.workers = s.workers.set i w') (rests : Rests w') : Served s t i := by
  refine ⟨place, input, sent, by simp [set], fun j v hv => ?_⟩
  rw [set] at hv
  by_cases same : i = j
  · subst same
    rw [List.getElem?_set_self'] at hv
    obtain ⟨_, _, rfl⟩ := Option.map_eq_some_iff.mp hv
    exact .inl rests
  · rw [List.getElem?_set_ne same] at hv
    exact .inr ⟨Ne.symm same, hv⟩

/-- The rest of an answer is written and read record by record. -/
theorem answer_read (junk : Junk) {records : List FreqRecord} {last : FreqRecord}
    (place : s.master.place = .reading i)
    (hw : s.workers[i]? = some w) (words : w.wordsPipe = []) (freqs : w.freqsPipe = [])
    (running : w.running = true)
    (todo : w.todo = records ++ [last]) (positive : ∀ r ∈ records, 0 < r.freq)
    (stop : ¬ 0 < last.freq) :
    ∃ t, Leads junk s t ∧ Served s t i := by
  induction records generalizing s w with
  | nil =>
    obtain ⟨t, w', leads, set, words', freqs', running', todo', input, sent, place'⟩ :=
      record_read junk place hw words freqs running todo
    rw [if_neg stop] at place'
    exact ⟨t, leads, Served.of_set place' input sent set ⟨words', freqs', todo', running'⟩⟩
  | cons r records ih =>
    have inside : i < s.workers.length := (List.getElem?_eq_some_iff.mp hw).1
    obtain ⟨t, w', leads, set, words', freqs', running', todo', input, sent, place'⟩ :=
      record_read junk place hw words freqs running todo
    rw [if_pos (positive r List.mem_cons_self)] at place'
    obtain ⟨u, leads', served⟩ := ih place' (by simp [set, inside]) words' freqs' running' todo'
      fun q hq => positive q (List.mem_cons_of_mem r hq)
    refine ⟨u, leads.trans leads', served.place, served.input.trans input,
      served.sent.trans sent, ?_, ?_⟩
    · rw [served.count, set, List.length_set]
    · intro j v hv
      rcases served.others j v hv with rests | ⟨other, old⟩
      · exact .inl rests
      · rw [set, List.getElem?_set_ne (Ne.symm other)] at old
        exact .inr ⟨other, old⟩

/-- A worker that rests is asked and answers. -/
theorem worker_served (junk : Junk) (place : s.master.place = .writing i)
    (hw : s.workers[i]? = some w) (rests : Rests w)
    (word : s.master.sent.getLastD [] ≠ []) : ∃ t, Leads junk s t ∧ Served s t i := by
  have inside : i < s.workers.length := (List.getElem?_eq_some_iff.mp hw).1
  let w₁ : WorkerState := { w with wordsPipe := w.wordsPipe ++ [s.master.sent.getLastD []] }
  let s₁ : System :=
    (s.setMaster { s.master with place := .reading i, consumed := [] }).setWorker i w₁
  have asked : step junk s .master = .ok s₁ := by
    simp only [step, masterStep, place, hw, if_neg word]
    rfl
  have pipe : s₁.workers[i]? = some w₁ := by simp [s₁, System.setWorker, System.setMaster, inside]
  have full : w₁.wordsPipe = [s.master.sent.getLastD []] := by simp [w₁, rests.words]
  let queryWord := readInto w.queryWord (s.master.sent.getLastD [])
  let w₂ : WorkerState := { w₁ with
    wordsPipe := []
    queryWord
    todo := w.index.answer (junk i w.received.length) (cstr queryWord)
    received := w.received ++ [s.master.sent.getLastD []]
    written := w.written ++ [[]] }
  have taken : step junk s₁ (.worker i) = .ok (s₁.setWorker i w₂) := by
    have todo : w₁.todo = [] := rests.todo
    have running : ¬ w₁.running = false := by simp [w₁, rests.running]
    apply step_worker pipe
    rw [workerStep, if_neg running]
    simp only [todo, full]
    rfl
  obtain ⟨records, answer, positive⟩ :=
    answer_isAnswer w.index (junk i w.received.length) (cstr queryWord)
  obtain ⟨t, leads, served⟩ := answer_read junk (s := s₁.setWorker i w₂) (w := w₂) rfl
    (by simp [s₁, System.setWorker, System.setMaster, inside]) rfl rests.freqs rests.running answer
      positive (by decide)
  refine ⟨t, (leads_step asked).trans ((leads_step taken).trans leads), served.place, served.input,
    served.sent, ?_, ?_⟩
  · simp [served.count, s₁, System.setWorker, System.setMaster]
  · intro j v hv
    rcases served.others j v hv with done | ⟨other, old⟩
    · exact .inl done
    · refine .inr ⟨other, ?_⟩
      simpa [s₁, System.setWorker, System.setMaster, Ne.symm other] using old

/-- Every worker waits, and the master does what it did with the lines it had. -/
structure Ready (s t : System) : Prop where
  input : t.master.input = s.master.input
  sent : t.master.sent = s.master.sent
  count : t.workers.length = s.workers.length
  rests : ∀ (i : Nat) w, t.workers[i]? = some w → Rests w

/-- The master asks one worker after the other. -/
theorem workers_served (junk : Junk) (n : Nat) (place : s.master.place = .writing i)
    (left : s.workers.length = i + n)
    (rests : ∀ (i : Nat) w, s.workers[i]? = some w → Rests w)
    (word : s.master.sent.getLastD [] ≠ []) :
    ∃ t, Leads junk s t ∧ t.master.place = .fgets ∧ Ready s t := by
  induction n generalizing s i with
  | zero =>
    have past : s.workers[i]? = none := List.getElem?_eq_none (by omega)
    have printing :
        step junk s .master = .ok (s.setMaster { s.master with place := .printing }) := by
      simp only [step, masterStep, place, past]
    have printed : step junk (s.setMaster { s.master with place := .printing }) .master =
        .ok (s.setMaster { s.master with
          place := .fgets
          insertedFor := s.master.insertedFor ++ [s.master.inserts] }) := rfl
    exact ⟨_, (leads_step printing).trans (leads_step printed), rfl, rfl, rfl, rfl, rests⟩
  | succ n ih =>
    have inside : i < s.workers.length := by omega
    have hw := List.getElem?_eq_getElem inside
    obtain ⟨t, leads, served⟩ := worker_served junk place hw (rests i _ hw) word
    have rests' : ∀ (j : Nat) v, t.workers[j]? = some v → Rests v := by
      intro j v hv
      rcases served.others j v hv with done | ⟨_, old⟩
      · exact done
      · exact rests j v old
    obtain ⟨u, leads', fgets, ready⟩ :=
      ih served.place (by rw [served.count]; omega) rests' (served.sent ▸ word)
    exact ⟨u, leads.trans leads', fgets, ready.input.trans served.input,
      ready.sent.trans served.sent, ready.count.trans served.count, ready.rests⟩

/-- A system whose workers wait comes to the end of its input. -/
theorem input_read (junk : Junk) {input : List (List Byte)} (place : s.master.place = .fgets)
    (left : s.master.input = input) (rests : ∀ (i : Nat) w, s.workers[i]? = some w → Rests w)
    (clean : ∀ line ∈ input, NUL ∉ line ∧ line ≠ []) :
    ∃ t, Leads junk s t ∧ t.master.place = .finished := by
  induction input generalizing s with
  | nil =>
    have ended : step junk s .master = .ok (s.setMaster { s.master with place := .finished }) := by
      simp only [step, masterStep, place, left]
    exact ⟨_, leads_step ended, rfl⟩
  | cons line rest ih =>
    obtain ⟨noNul, some_byte⟩ := clean line List.mem_cons_self
    let m : QueryPipes.Master := { s.master with
      place := .writing 0
      input := rest
      sent := s.master.sent ++ [message line]
      inserts := [] }
    have taken : step junk s .master = .ok (s.setMaster m) := by
      simp only [step, masterStep, place, left, m]
    have word : m.sent.getLastD [] ≠ [] := by simp [m, message_of_clean noNul some_byte]
    obtain ⟨t, leads, fgets, ready⟩ :=
      workers_served junk (s := s.setMaster m) s.workers.length rfl (Nat.zero_add _).symm rests word
    obtain ⟨u, leads', done⟩ :=
      ih fgets ready.input ready.rests fun l hl => clean l (List.mem_cons_of_mem line hl)
    exact ⟨u, (leads_step taken).trans (leads.trans leads'), done⟩

end Progress

section Framing

end Framing

end QueryWords
