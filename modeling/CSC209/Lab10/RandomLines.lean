import CSC209.Lab10.BufServer
import CSC209.Lab10.RandClient

/-!
# Random clients at the buffered server

`randclient` sends one line several times over, in pieces of random sizes, and
the network may cut the stream in other places. The server has one connection
after the other. The LF of the first line stays in the buffer at the place
where the LF of every further one is going to be, so that only the cuts between
a CR and its LF matter, and not those in the first line.
-/

namespace RandomLines

open CStrings HaltingRuns InputBuffer LineFraming BufServer

section Program

/-- The loop over `read` for one connection. Without room `read` returns 0, and the rest is not
read. -/
def readLoop (c : Conn) : List (List Byte) → Except Stop Conn
  | [] => .ok c
  | bytes :: later =>
    if c.room ≤ 0 then .ok c
    else do
      let c ← c.step bytes
      readLoop c later

/-- A connection: the byte behind the buffer, and what the reads return. -/
structure Connection where
  behind : Byte
  reads : List (List Byte)
  deriving DecidableEq, Repr

/-- A client: what is in its array at first, what `rand` returns, and its connection at the
server. -/
structure Client where
  fill : Nat → Byte
  rand : Nat → Nat
  connection : Connection

/-- The pieces that are written; each has a byte, so that there are turns enough. -/
def Client.written (x : Client) (line : CString) (times : Nat) :
    Except Blocks.Fault (Option (List (List Byte))) :=
  RandClient.writeRandomPieces x.fill x.rand (times * (line.length + 2) + 1) (line ++
      [CR, LF]) times

/-- The loop over the connections, with all that has been printed. -/
def serve (printed : List CString) : List Connection → Except Stop (List CString)
  | [] => .ok printed
  | connection :: later => do
    let c ← readLoop (start connection.behind) connection.reads
    serve (printed ++ c.printed) later

end Program

/-- So many bytes stop in front of the LF of a line, and that line is not the first. -/
def Between (size bytes : Nat) : Prop := size ≤ bytes ∧ bytes % size + 1 = size

instance (size bytes : Nat) : Decidable (Between size bytes) := inferInstanceAs (Decidable (_ ∧ _))

/-- A read is cut there; the reads come behind so many bytes. -/
def Cut (size before : Nat) (reads : List (List Byte)) : Prop :=
  ∃ k < reads.length, Between size (before + (reads.take (k + 1)).flatten.length)

instance (size before : Nat) (reads : List (List Byte)) : Decidable (Cut size before reads) :=
  inferInstanceAs (Decidable (∃ k < reads.length, _))

/-- The reads return what the client has written, cut anywhere. -/
structure Carried (line : CString) (times : Nat) (x : Client) : Prop where
  sent :
  ∃ pieces, x.written line times = .ok (some pieces) ∧ x.connection.reads.flatten = pieces.flatten
  sized : Along Conn.step Conn.Sized (start x.connection.behind) x.connection.reads

section Marks

variable {c d : Conn} {line tail old chunk later : List Byte} {lines : List CString} {m n p : Nat}

/-- What is in the buffer after a read: the lines that it finishes, and what is left of the next
one. -/
structure Parts (c : Conn) (lines : List CString) (p : Nat) (chunk tail : List Byte) : Prop where
  left :
  tail = (stream (finish lines (p + chunk.length)).2.1).take (finish lines (p + chunk.length)).2.2
  size : tail.length = (finish lines (p + chunk.length)).2.2
  silent : LF ∉ tail
  data : c.data chunk = stream (finish lines (p + chunk.length)).1 ++ tail
  buf : (c.received chunk).buf =
    stream (finish lines (p + chunk.length)).1 ++ (tail ++ c.buf.drop (p + chunk.length))
  held : (c.received chunk).inbuf = (stream (finish lines (p + chunk.length)).1 ++ tail).length
  small : (c.received chunk).inbuf ≤ BUFSIZE

theorem Sync.parts (sync : Sync c lines p) (clean : ∀ l ∈ lines, Sendable l) (sized : c.Sized chunk)
    (sent : chunk ++ later = (stream lines).drop p) : ∃ tail, Parts c lines p chunk tail := by
  have low := sync.low clean
  have data := (sync.data sent).trans (stream_finish lines (p + chunk.length)).1
  have buf := sync.received_buf chunk
  have enough := finish_enough sized.1 sent
  obtain ⟨split, total, within⟩ := finish_spec lines (p + chunk.length)
  refine ⟨_, rfl, ?_, ?_, data, ?_, ?_, ?_⟩
  · rw [List.length_take, Nat.min_eq_left enough]
  · exact unfinished_lf (fun l hl => (clean l (by rw [← split]; simp [hl])).lf) within
  · rw [buf, data, List.append_assoc]
  · change c.inbuf + chunk.length = _
    rw [sync.held, List.length_append, List.length_take, Nat.min_eq_left enough]
    exact total
  · have fits := sized.2
    rw [sync.room] at fits
    change c.inbuf + chunk.length ≤ _
    rw [sync.held]
    omega

/-- Once lines of one length have been printed, their LF lies where the next one is going to be. -/
theorem printLines_mark (fuel : Nat) (clean : Sendable line) (silent : LF ∉ tail)
    (short : tail.length ≤ line.length + 1)
    (buf : c.buf = stream (List.replicate (n + 1) line) ++ (tail ++ old))
    (held : c.inbuf = (stream (List.replicate (n + 1) line) ++ tail).length)
    (small : c.inbuf ≤ BUFSIZE) :
    ∃ d old', Conn.printLines (fuel + (n + 1)) c = Conn.printLines fuel d ∧ d.buf = tail ++ old' ∧
      d.inbuf = tail.length ∧ d.buf[line.length + 1]? = some LF := by
  induction n generalizing c old with
  | zero =>
    have here : c.buf = line ++ CR :: LF :: (tail ++ old) := by simpa [stream] using buf
    have total : c.inbuf = line.length + 2 + tail.length := by
      simp only [held, stream, List.replicate, List.flatMap_cons, List.flatMap_nil,
        List.length_append, List.length_cons, List.length_nil]
    have found : BufServer.findNetworkNewline c.buf c.inbuf = some (line.length + 2) := by
      rw [here]
      exact findNetworkNewline_line clean.cr (by omega) small
    have printed := printLine_line clean.nul here total
    refine ⟨{ c with
      buf := tail ++ (List.replicate (line.length + 1) NUL ++ LF :: (tail ++ old)).drop tail.length
      inbuf := tail.length
      printed :=
        c.printed ++ [line] }, _, ?_, rfl, rfl, (lf_shifted line old silent short).mpr (.inl rfl)⟩
    rw [Conn.printLines, found]
    simp only [printed]
    rfl
  | succ n ih =>
    have here :
        c.buf = line ++ CR :: LF :: ((stream (List.replicate (n + 1) line) ++ tail) ++ old) := by
      rw [buf, List.replicate_succ, stream_cons]
      simp
    have total :
        c.inbuf = line.length + 2 + (stream (List.replicate (n + 1) line) ++ tail).length := by
      rw [held, List.replicate_succ (n := n + 1), stream_cons]
      simp only [List.length_append, List.length_cons]
      omega
    have found : BufServer.findNetworkNewline c.buf c.inbuf = some (line.length + 2) := by
      rw [here]
      exact findNetworkNewline_line clean.cr (by omega) small
    have first := printLine_line clean.nul here total
    generalize (List.replicate (line.length + 1) NUL ++
      LF :: ((stream (List.replicate (n + 1) line) ++ tail) ++ old)).drop
        (stream (List.replicate (n + 1) line) ++ tail).length = old₁ at first
    obtain ⟨d, old', ran, ends⟩ := ih (c := { c with
      buf := (stream (List.replicate (n + 1) line) ++ tail) ++ old₁
      inbuf := (stream (List.replicate (n + 1) line) ++ tail).length
      printed := c.printed ++ [line] }) (List.append_assoc _ _ _) rfl (by
        change (stream (List.replicate (n + 1) line) ++ tail).length ≤ BUFSIZE
        omega)
    refine ⟨d, old', ?_, ends⟩
    rw [← ran, ← Nat.add_assoc, Conn.printLines, found]
    simp only [first]
    rfl

theorem length_stream_replicate (n : Nat) (line : CString) :
    (stream (List.replicate n line)).length = n * (line.length + 2) := by
  induction n with
  | zero => simp [stream]
  | succ n ih =>
    rw [List.replicate_succ, stream_cons, Nat.succ_mul, ← ih]
    simp only [List.length_append, List.length_cons]
    omega

/-- Of lines that are all the same, as many are finished as the bytes are enough for. -/
theorem finish_replicate (line : CString) (m n : Nat) :
    ∃ k r, k ≤ m ∧
      finish (List.replicate m line) n = (List.replicate k line, List.replicate (m - k) line, r) ∧
      n = k * (line.length + 2) + r ∧ (k < m → r < line.length + 2) := by
  obtain ⟨split, total, within⟩ := finish_spec (List.replicate m line) n
  obtain ⟨count, isDone, isLeft⟩ := List.append_eq_replicate_iff.mp split
  generalize (finish (List.replicate m line) n).1.length = k at count isDone
  generalize (finish (List.replicate m line) n).2.1.length = j at count isLeft
  obtain rfl : j = m - k := by omega
  rw [isDone, length_stream_replicate] at total
  rw [isLeft] at within
  refine ⟨k, (finish (List.replicate m line) n).2.2, by omega, ?_, total, fun more => ?_⟩
  · exact Prod.ext isDone (Prod.ext isLeft rfl)
  · obtain ⟨i, hi⟩ : ∃ i, m - k = i + 1 := ⟨m - k - 1, by omega⟩
    rw [hi, List.replicate_succ] at within
    exact within line rfl

/-- A turn that goes on: the lines of this length have left their LF, or the buffer is as it was
there. -/
theorem Sync.mark (sync : Sync c (List.replicate m line) p) (clean : Sendable line)
    (sized : c.Sized chunk) (sent : chunk ++ later = (stream (List.replicate m line)).drop p)
    (step : c.step chunk = .ok d) :
    d.buf[line.length + 1]? =
      if (finish (List.replicate m line) (p + chunk.length)).1 = [] then
        c.buf[line.length + 1]? else some LF := by
  have all : ∀ l ∈ List.replicate m line, Sendable l :=
    fun l hl => (List.mem_replicate.mp hl).2 ▸ clean
  obtain ⟨tail, parts⟩ := Sync.parts sync all sized sent
  have low := sync.low all
  have turn : c.step chunk = Conn.printLines ((c.received chunk).inbuf + 1) (c.received chunk) >>=
      fun c => .ok c.pointed := by
    rw [Conn.step, if_neg (by rw [sync.room]; omega)]
  rw [turn] at step
  obtain ⟨e, ran, same⟩ := bind_ok_iff.mp step
  obtain rfl : e.pointed = d := Except.ok.inj same
  obtain ⟨left, size, silent, _, buf, held, small⟩ := parts
  obtain ⟨k, r, few, cut, total, within⟩ := finish_replicate line m (p + chunk.length)
  rw [cut] at left size buf held
  simp only at left size buf held
  have short : tail.length ≤ line.length + 1 := by
    by_cases more : k < m
    · have := within more
      omega
    · obtain rfl : k = m := by omega
      simp [left, stream]
  have count : k ≤ (c.received chunk).inbuf := by
    rw [held, List.length_append, length_stream_replicate]
    exact (Nat.le_mul_of_pos_right k (by omega)).trans (Nat.le_add_right _ _)
  rw [cut]
  cases k with
  | zero =>
    have idle : (c.received chunk).buf = tail ++ c.buf.drop (p + chunk.length) := by
      simpa [stream] using buf
    have last :=
      printLines_end (c.received chunk).inbuf silent idle (by simpa [stream] using held) small
    rw [ran] at last
    split at last
    · cases last
    · obtain rfl := Except.ok.inj last
      change (c.received chunk).buf[line.length + 1]? = _
      refine Eq.trans ?_ (if_pos rfl).symm
      rw [idle, List.getElem?_append_right short, List.getElem?_drop]
      congr 1
      omega
  | succ k =>
    obtain ⟨e', old, onward, ebuf, eheld, mark⟩ :=
      printLines_mark ((c.received chunk).inbuf - (k + 1) + 1) clean silent short buf held small
    have turns :
        (c.received chunk).inbuf - (k + 1) + 1 + (k + 1) = (c.received chunk).inbuf + 1 := by omega
    have last := printLines_end ((c.received chunk).inbuf - (k + 1)) silent ebuf eheld (by
      rw [held, List.length_append] at small
      omega)
    rw [turns, last] at onward
    rw [ran] at onward
    split at onward
    · cases onward
    · obtain rfl := Except.ok.inj onward
      rw [if_neg (by simp)]
      exact mark

/-- The reads that are cut in front of an LF left behind are those that cut a later line in front
of its LF. -/
theorem Sync.staleCut (sync : Sync c (List.replicate m line) p) (clean : Sendable line)
    (sized : c.Sized chunk)
    (sent : chunk ++ later = (stream (List.replicate m line)).drop p) (le : m ≤ n)
    (mark : c.buf[line.length + 1]? = some LF ↔ m < n) :
    c.StaleCut chunk ↔
    Between (line.length + 2) ((n - m) * (line.length + 2) + (p + chunk.length)) := by
  have all : ∀ l ∈ List.replicate m line, Sendable l :=
    fun l hl => (List.mem_replicate.mp hl).2 ▸ clean
  obtain ⟨tail, parts⟩ := Sync.parts sync all sized sent
  obtain ⟨left, size, silent, data, _, _, _⟩ := parts
  obtain ⟨k, r, few, cut, total, within⟩ := finish_replicate line m (p + chunk.length)
  rw [cut] at left size data
  simp only at left size data
  rw [Conn.StaleCut, data, unfinished_stream silent, finished_stream silent, total, ← Nat.add_assoc,
    ← Nat.add_mul, Between]
  by_cases more : k < m
  · have low := within more
    obtain ⟨j, hj⟩ : ∃ j, m - k = j + 1 := ⟨m - k - 1, by omega⟩
    have last : tail.getLast? = some CR ↔ r + 1 = line.length + 2 := by
      rw [left, hj, List.replicate_succ]
      rcases Nat.eq_zero_or_pos r with rfl | pos
      · simp
      · rw [unfinished_cr _ ⟨clean.nul, clean.cr, clean.lf, clean.short⟩ low pos]
        omega
    rw [last, Nat.mul_add_mod_of_lt low, and_comm]
    refine and_congr_left fun full => ?_
    cases k with
    | zero =>
      have place : (stream (List.replicate 0 line) ++ tail).length = line.length + 1 := by
        rw [List.length_append, size]
        simp [stream]
        omega
      have nothing : stream (List.replicate 0 line) = [] := rfl
      rw [if_pos nothing, place, mark]
      constructor
      · intro printed
        have := Nat.le_mul_of_pos_left (line.length + 2) (show 0 < n - m + 0 by omega)
        omega
      · intro big
        by_contra first
        obtain rfl : m = n := by omega
        simp at big
        omega
    | succ k =>
      have cr : LF ∉ line ++ [CR] := by
        simp only [List.mem_append, List.mem_singleton, not_or]
        exact ⟨clean.lf, by decide⟩
      have := Nat.le_mul_of_pos_left (line.length + 2) (show 0 < n - m + (k + 1) by omega)
      rw [List.replicate_succ', stream_concat, ← List.append_assoc, if_neg (by simp),
        List.dropLast_concat, unfinished_stream cr, size, List.length_append, List.length_singleton]
      exact iff_of_true (by omega) (by omega)
  · obtain rfl : k = m := by omega
    obtain rfl : tail = [] := by simpa [stream] using left
    obtain rfl : 0 = r := size
    simp

end Marks

section Runs

variable {c : Conn} {line : CString} {reads : List (List Byte)} {size before m n p : Nat}

theorem cut_cons (chunk : List Byte) (later : List (List Byte)) :
    Cut size before (chunk :: later) ↔
      Between size (before + chunk.length) ∨ Cut size (before + chunk.length) later := by
  constructor
  · rintro ⟨k, low, here⟩
    cases k with
    | zero => exact .inl (by simpa using here)
    | succ k =>
      refine .inr ⟨k, Nat.lt_of_succ_lt_succ low, ?_⟩
      rw [List.take_succ_cons, List.flatten_cons, List.length_append, ← Nat.add_assoc] at here
      exact here
  · rintro (here | ⟨k, low, here⟩)
    · exact ⟨0, Nat.zero_lt_succ _, by simpa using here⟩
    · refine ⟨k + 1, Nat.succ_lt_succ low, ?_⟩
      rw [List.take_succ_cons, List.flatten_cons, List.length_append, ← Nat.add_assoc]
      exact here

/-- The loop prints all of the lines that are left, unless a read is cut in front of the LF of one
of them that is not the first. -/
theorem Sync.readLoop (sync : Sync c (List.replicate m line) p) (clean : Sendable line)
    (sent : reads.flatten = (stream (List.replicate m line)).drop p)
    (sized : Along Conn.step Conn.Sized c reads)
    (le : m ≤ n) (mark : c.buf[line.length + 1]? = some LF ↔ m < n) :
    if Cut (line.length + 2) ((n - m) * (line.length + 2) + p) reads then
      RandomLines.readLoop c reads = .error .badLength
    else ∃ d, RandomLines.readLoop c reads = .ok d ∧
    d.printed = c.printed ++ List.replicate m line := by
  have all : ∀ l ∈ List.replicate m line, Sendable l :=
    fun l hl => (List.mem_replicate.mp hl).2 ▸ clean
  induction reads generalizing c m p with
  | nil =>
    have nothing : m = 0 := by
      cases m with
      | zero => rfl
      | succ m =>
        have within := sync.within line rfl
        have count := congrArg List.length sent
        rw [List.flatten_nil, List.length_nil, List.length_drop, length_stream_replicate,
          Nat.succ_mul] at count
        omega
    rw [if_neg (by rintro ⟨k, low, _⟩; cases low)]
    exact ⟨c, rfl, by simp [nothing]⟩
  | cons chunk later ih =>
    have here : chunk ++ later.flatten = (stream (List.replicate m line)).drop p := sent
    have room : ¬ c.room ≤ 0 := by
      have low := sync.low all
      rw [sync.room]
      omega
    have turn := sync.step all sized.1 here
    have stale := Sync.staleCut sync clean sized.1 here le mark
    rw [← Nat.add_assoc] at stale
    by_cases cut : c.StaleCut chunk
    · rw [if_pos cut] at turn
      rw [if_pos ((cut_cons chunk later).mpr (.inl (stale.mp cut))), RandomLines.readLoop,
        if_neg room, turn]
      rfl
    · rw [if_neg cut] at turn
      obtain ⟨d, step, printed, next⟩ := turn
      have mark' := Sync.mark sync clean sized.1 here step
      have rest :
          later.flatten = (stream (finish (List.replicate m line) (p + chunk.length)).2.1).drop
          (finish (List.replicate m line) (p + chunk.length)).2.2 := by
        calc later.flatten = (chunk ++ later.flatten).drop chunk.length := by simp
          _ = (stream (List.replicate m line)).drop (p + chunk.length) := by
            rw [here, List.drop_drop]
          _ = _ := (stream_finish (List.replicate m line) (p + chunk.length)).2
      obtain ⟨k, r, few, finished, total, within⟩ := finish_replicate line m (p + chunk.length)
      rw [finished] at printed next mark' rest
      have left : d.buf[line.length + 1]? = some LF ↔ m - k < n := by
        rw [mark']
        cases k with
        | zero => exact mark
        | succ k => exact iff_of_true rfl (by omega)
      have all' : ∀ l ∈ List.replicate (m - k) line, Sendable l :=
        fun l hl => (List.mem_replicate.mp hl).2 ▸ clean
      have onward := ih next rest (sized.2 d step) (by omega) left all'
      have base : (n - (m - k)) * (line.length + 2) + r =
        (n - m) * (line.length + 2) + p + chunk.length := by
        rw [Nat.add_assoc, total, ← Nat.add_assoc, ← Nat.add_mul]
        congr 2
        omega
      have loop : RandomLines.readLoop c (chunk :: later) = RandomLines.readLoop d later := by
        rw [RandomLines.readLoop, if_neg room, step]
        rfl
      have whole :
          List.replicate k line ++ List.replicate (m - k) line = List.replicate m line := by
        rw [List.replicate_append_replicate, Nat.add_sub_of_le few]
      rw [base] at onward
      simp only [cut_cons, or_iff_right (mt stale.mpr cut), loop]
      rw [printed, List.append_assoc, whole] at onward
      exact onward

/-- All the connections carry the same lines. -/
theorem serve_lines {connections : List Connection} (clean : Sendable line)
    (each : ∀ x ∈ connections, x.reads.flatten = stream (List.replicate n line) ∧
      Along Conn.step Conn.Sized (start x.behind) x.reads) (printed : List CString) :
    serve printed connections =
      if ∃ x ∈ connections, Cut (line.length + 2) 0 x.reads then .error .badLength
      else .ok (printed ++ List.replicate (connections.length * n) line) := by
  induction connections generalizing printed with
  | nil => simp [serve]
  | cons x later ih =>
    obtain ⟨sent, sized⟩ := each x List.mem_cons_self
    have fresh : (start x.behind).buf[line.length + 1]? = some LF ↔ n < n := by
      have short := clean.short
      rw [BUFSIZE] at short
      have nul : (start x.behind).buf[line.length + 1]? = some NUL := by
        change (List.replicate BUFSIZE NUL ++ [x.behind])[line.length + 1]? = _
        rw [List.getElem?_append_left (by rw [List.length_replicate, BUFSIZE]; omega),
          List.getElem?_replicate, if_pos (by rw [BUFSIZE]; omega)]
      rw [nul]
      exact iff_of_false (by decide) (Nat.lt_irrefl n)
    have loop := Sync.readLoop (sync_start x.behind (List.replicate n line)) clean
      (by simpa using sent) sized le_rfl
      fresh
    rw [Nat.sub_self, Nat.zero_mul] at loop
    have onward := ih fun y hy => each y (List.mem_cons_of_mem x hy)
    simp only [List.exists_mem_cons_iff, serve]
    by_cases cut : Cut (line.length + 2) (0 + 0) x.reads
    · rw [if_pos cut] at loop
      rw [if_pos (.inl cut), loop]
      rfl
    · rw [if_neg cut] at loop
      obtain ⟨d, ran, lines⟩ := loop
      rw [ran]
      change serve (printed ++ d.printed) later = _
      rw [onward, lines]
      simp only [or_iff_right cut]
      split
      · rfl
      · rw [List.length_cons, Nat.succ_mul, Nat.add_comm (later.length * n)]
        simp [start, List.replicate_append_replicate]

end Runs

section Clients

open RandClient StreamIO Blocks

theorem Client.written_eq (x : Client) {line : CString} (clean : Sendable line) {times : Nat}
    (fits : IsInt (times * (line.length + 2))) :
    ∃ pieces, x.written line times = .ok (some pieces) ∧
      pieces.flatten = stream (List.replicate times line) := by
  have nul : NUL ∉ line ++ [CR, LF] := by
    simp only [List.mem_append, List.mem_cons, List.not_mem_nil, not_or]
    exact ⟨clean.nul, by decide, by decide, not_false⟩
  have size : (repeated times (line ++ [CR, LF])).length = times * (line.length + 2) := by
    rw [length_repeated, List.length_append]
    rfl
  have fits' : IsInt (repeated times (line ++ [CR, LF])).length := by
    rw [size]
    exact_mod_cast fits
  obtain ⟨total, messageLen⟩ := totalBytes_eq fits'
  have begun : RandClient.Cut (repeated times (line ++ [CR, LF])) ⟨malloc x.fill MAXCHARS, 0, []⟩ :=
    ⟨length_malloc x.fill MAXCHARS, rfl, List.nil_prefix, by simp⟩
  obtain ⟨s, whole, _, ran⟩ :=
    writePieces_spec (intOfSize (line ++ [CR, LF]).length) x.rand fits' messageLen begun 0
  have sent := ran (times * (line.length + 2) + 1) (by
    change ((repeated times (line ++ [CR, LF])).length : Int) - 0 < _
    rw [size]
    omega)
  refine ⟨s.pieces, ?_, whole.trans (repeated_line times line)⟩
  exact bind_ok_iff.mpr ⟨_, strlen_append_nul nul [],
    bind_ok_iff.mpr ⟨_, total, bind_ok_iff.mpr ⟨_, sent, rfl⟩⟩⟩

/-- The server prints every line of every client, whatever the sizes of the pieces, exactly when
no read stops in front of the LF of a line that is not the first of its connection. Otherwise, and
for no other reason, it passes a negative length to `memmove`. -/
theorem random_clients_iff (line : CString) (times : Nat) (clients : List Client)
    (clean : Sendable line)
    (fits : IsInt (times * (line.length + 2))) (carried : ∀ x ∈ clients, Carried line times x) :
    (serve [] (clients.map Client.connection) = .ok (List.replicate (clients.length * times) line) ↔
      ∀ x ∈ clients, ¬ Cut (line.length + 2) 0 x.connection.reads) ∧
    ∀ e, serve [] (clients.map Client.connection) = .error e ↔
      e = .badLength ∧ ∃ x ∈ clients, Cut (line.length + 2) 0 x.connection.reads := by
  have each :
      ∀ c ∈ clients.map Client.connection, c.reads.flatten = stream (List.replicate times line) ∧
      Along Conn.step Conn.Sized (start c.behind) c.reads := by
    intro c hc
    obtain ⟨x, hx, rfl⟩ := List.mem_map.mp hc
    obtain ⟨pieces, written, same⟩ := (carried x hx).sent
    obtain ⟨pieces', written', whole⟩ := x.written_eq clean fits
    obtain rfl : pieces = pieces' := Option.some.inj (Except.ok.inj (written.symm.trans written'))
    exact ⟨same.trans whole, (carried x hx).sized⟩
  have cuts : (∃ c ∈ clients.map Client.connection, Cut (line.length + 2) 0 c.reads) ↔
      ∃ x ∈ clients, Cut (line.length + 2) 0 x.connection.reads := by
    simp
  rw [serve_lines clean each, List.length_map, List.nil_append]
  by_cases cut : ∃ x ∈ clients, Cut (line.length + 2) 0 x.connection.reads
  · rw [if_pos (cuts.mpr cut)]
    constructor
    · exact iff_of_false nofun fun fine => cut.elim fun x hx => fine x hx.1 hx.2
    · intro e
      simp only [cut, and_true, Except.error.injEq]
      exact eq_comm
  · rw [if_neg (mt cuts.mp cut)]
    constructor
    · exact iff_of_true rfl fun x hx here => cut ⟨x, hx, here⟩
    · exact fun e => iff_of_false nofun fun stops => cut stops.2

/-- Two clients that come one after the other; the pieces of the second one arrive as one stream. -/
def stitches : List Client :=
  [⟨fun _ => NUL, fun _ => 0, NUL, (List.range 12).map fun k =>
      ((stream (List.replicate 2 (text "A stitch in time"))).drop (3 * k)).take 3⟩,
    ⟨fun _ => NUL, id, LF, [text "A stitch in time\r", text "\nA stitch in", text " time\r\n"]⟩]

theorem random_clients_iff_stitches :
    (serve [] (stitches.map Client.connection) = .ok (List.replicate 4 (text "A stitch in time")) ↔
      ∀ x ∈ stitches, ¬ Cut 18 0 x.connection.reads) ∧
    ∀ e, serve [] (stitches.map Client.connection) = .error e ↔
      e = .badLength ∧ ∃ x ∈ stitches, Cut 18 0 x.connection.reads := by
  refine random_clients_iff (text "A stitch in time") 2 stitches (by decide)
    (by decide) fun x hx => ?_
  have bytes : ∀ x ∈ stitches,
    x.connection.reads.flatten = stream (List.replicate 2 (text "A stitch in time")) := by
    decide +kernel
  have sizes : ∀ x ∈ stitches,
    Along Conn.step Conn.Sized (start x.connection.behind) x.connection.reads := by
    decide +kernel
  obtain ⟨pieces, written, whole⟩ :=
    Client.written_eq x (show Sendable (text "A stitch in time") by decide)
    (show IsInt (2 * ((text "A stitch in time").length + 2)) by decide)
  exact ⟨⟨pieces, written, (bytes x hx).trans whole.symm⟩, sizes x hx⟩

/-- The second line is cut in front of its LF. -/
example : serve [] [⟨NUL, [text "A stitch in time\r\nA stitch in", text " time\r", text "\n"]⟩] =
    .error .badLength := by decide +kernel

end Clients

end RandomLines
