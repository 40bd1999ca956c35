import CSC209.A4.InputBuffer
import Mathlib.Data.List.ReduceOption

/-!
# Lines and the reads that carry them

A client's stream of CRLF lines may be cut into reads anywhere. `expected` is
what each read should execute; `outputs` is what the calls of `handle_client`
do execute. They agree when each read finishes at most one line, finds it in
the searched part of the buffer, gets a block from `malloc` that is longer than
the line, and never stops between a CR and its LF just in front of an LF that
an earlier line left behind. Nothing is claimed about clients that send other
bytes.
-/

namespace LineFraming

open CStrings HaltingRuns InputBuffer

def stream (lines : List CString) : List Byte :=
  lines.flatMap fun l => l ++ [CR, LF]

/-- A line that may be sent: it fits the buffer with its CRLF. -/
structure Clean (line : CString) : Prop where
  nul : NUL ∉ line
  cr : CR ∉ line
  lf : LF ∉ line
  short : line.length + 2 ≤ INPUT_BUFFER_SIZE

instance (line : CString) : Decidable (Clean line) :=
  decidable_of_iff (NUL ∉ line ∧ CR ∉ line ∧ LF ∉ line ∧ line.length + 2 ≤ INPUT_BUFFER_SIZE)
    ⟨fun ⟨nul, cr, lf, short⟩ => ⟨nul, cr, lf, short⟩, fun h => ⟨h.nul, h.cr, h.lf, h.short⟩⟩

/-- The lines that `n` bytes finish, the lines left, and the bytes left of the first of these. -/
def finish : List CString → Nat → List CString × List CString × Nat
  | [], n => ([], [], n)
  | l :: rest, n =>
    if l.length + 2 ≤ n then
      let r := finish rest (n - (l.length + 2))
      (l :: r.1, r.2)
    else ([], l :: rest, n)

/-- The lines finished by each read, after `p` bytes of the first line. -/
def expected (lines : List CString) (p : Nat) : List (List Byte) → List (List CString)
  | [] => []
  | chunk :: rest =>
    let r := finish lines (p + chunk.length)
    r.1 :: expected r.2.1 r.2.2 rest

/-- One call of `handle_client`: what is read, and the size of the block that `malloc` gives if a
command is copied. -/
structure Call where
  bytes : List Byte
  block : Nat
  deriving DecidableEq, Repr

def step (i : Input) (call : Call) : Except Input.Stop Input :=
  (i.handleIn call.block call.bytes).map Prod.fst

/-- The command executed by each call, unless one of the calls ends the run. -/
def outputs (i : Input) : List Call → Except Input.Stop (List (Option CString))
  | [] => .ok []
  | call :: rest =>
    match i.handleIn call.block call.bytes with
    | .error e => .error e
    | .ok (j, command) => (outputs j rest).map (command :: ·)

/-- Every call executes the lines it finishes, and together these are the lines sent. -/
def Framed (a b : Byte) (lines : List CString) (calls : List Call) : Prop :=
  ∃ commands, outputs (Input.start a b) calls = .ok commands ∧
    commands.map Option.toList = expected lines 0 (calls.map Call.bytes) ∧
    commands.reduceOption = lines

/-- The reads that the buffer frames; `stale` holds the places of the line feeds left behind. -/
def Framable (stale : List Nat) (lines : List CString) (p : Nat) : List Call → Prop
  | [] => True
  | call :: rest =>
    let n := p + call.bytes.length
    let r := finish lines n
    match r.1 with
    | [] => (∀ l ∈ lines.head?, n = l.length + 1 → n ∉ stale) ∧ Framable stale r.2.1 r.2.2 rest
    | [l] => n ≤ INPUT_BUFFER_SIZE - 2 ∧ l.length < call.block ∧
        Framable ((l.length + 1) :: stale.filter (n ≤ ·)) r.2.1 r.2.2 rest
    | _ => False

section Lines

variable {lines : List CString} {n p : Nat}

@[simp] theorem stream_cons (l : CString) (rest : List CString) :
    stream (l :: rest) = l ++ CR :: LF :: stream rest := by
  simp [stream]

theorem finish_idle (within : ∀ l ∈ lines.head?, n < l.length + 2) :
    finish lines n = ([], lines, n) := by
  cases lines with
  | nil => rfl
  | cons l rest =>
    have short : ¬ l.length + 2 ≤ n := Nat.not_le.mpr (within l rfl)
    simp [finish, short]

theorem finish_next {l : CString} {rest : List CString} (h : l.length + 2 ≤ n) :
    finish (l :: rest) n =
      (l :: (finish rest (n - (l.length + 2))).1, (finish rest (n - (l.length + 2))).2) := by
  simp [finish, h]

/-- The lines finished and the lines left are the lines, and less than one line is left over. -/
theorem finish_spec (lines : List CString) (n : Nat) :
    (finish lines n).1 ++ (finish lines n).2.1 = lines ∧
      n = (stream (finish lines n).1).length + (finish lines n).2.2 ∧
      ∀ l ∈ (finish lines n).2.1.head?, (finish lines n).2.2 < l.length + 2 := by
  induction lines generalizing n with
  | nil => simp [finish, stream]
  | cons l rest ih =>
    by_cases h : l.length + 2 ≤ n
    · obtain ⟨hlines, hn, hleft⟩ := ih (n - (l.length + 2))
      rw [finish_next h]
      refine ⟨by simp [hlines], ?_, hleft⟩
      simp only [stream_cons, List.length_append, List.length_cons]
      omega
    · rw [finish_idle (by simpa using h)]
      exact ⟨rfl, by simp [stream], by simpa using h⟩

theorem finish_none (h : (finish lines n).1 = []) :
    finish lines n = ([], lines, n) ∧ ∀ l ∈ lines.head?, n < l.length + 2 := by
  obtain ⟨hlines, hn, hleft⟩ := finish_spec lines n
  rw [h, List.nil_append] at hlines
  rw [h] at hn
  have bytes : (finish lines n).2.2 = n := by simpa [stream] using hn.symm
  rw [hlines, bytes] at hleft
  exact ⟨finish_idle hleft, hleft⟩

theorem unfinished_take {l : CString} {rest : List CString} (h : n < l.length + 2) :
    (stream (l :: rest)).take n = (l ++ [CR]).take n := by
  have split : stream (l :: rest) = (l ++ [CR]) ++ LF :: stream rest := by simp
  rw [split, List.take_append_of_le_length (by simp; omega)]

theorem finish_first {l : CString} {more : List CString} (h : (finish lines n).1 = l :: more) :
    ∃ rest, lines = l :: rest ∧ l.length + 2 ≤ n ∧ (finish rest (n - (l.length + 2))).1 = more := by
  cases lines with
  | nil => cases h
  | cons k rest =>
    by_cases long : k.length + 2 ≤ n
    · rw [finish_next long] at h
      obtain ⟨rfl, rfl⟩ := List.cons.inj h
      exact ⟨rest, rfl, long, rfl⟩
    · rw [finish_idle (by simpa using long)] at h
      cases h

/-- An unfinished line has not sent its LF. -/
theorem unfinished_lf (clean : ∀ l ∈ lines, LF ∉ l) (within : ∀ l ∈ lines.head?, n < l.length + 2) :
    LF ∉ (stream lines).take n := by
  cases lines with
  | nil => simp [stream]
  | cons l rest =>
    rw [unfinished_take (within l rfl)]
    intro hm
    have hm := List.mem_of_mem_take hm
    simp only [List.mem_append, List.mem_singleton] at hm
    rcases hm with hl | hcr
    · exact clean l List.mem_cons_self hl
    · exact absurd hcr (by decide)

/-- An unfinished line ends in a CR only when nothing but its LF is missing. -/
theorem unfinished_cr {l : CString} (rest : List CString) (clean : Clean l) (h : n < l.length + 2)
    (pos : 0 < n) : ((stream (l :: rest)).take n).getLast? = some CR ↔ n = l.length + 1 := by
  rw [unfinished_take h, List.getLast?_eq_getElem?, List.length_take, List.length_append,
    List.length_singleton, Nat.min_eq_left (by omega), List.getElem?_take_of_lt (by omega)]
  constructor
  · intro hcr
    by_contra hn
    rw [List.getElem?_append_left (by omega)] at hcr
    exact clean.cr (List.mem_of_getElem? hcr)
  · rintro rfl
    simp

/-- Read in full, the reads finish all the lines. -/
theorem expected_flatten {chunks : List (List Byte)} (within : ∀ l ∈ lines.head?, p < l.length + 2)
    (all : p + chunks.flatten.length = (stream lines).length) :
    (expected lines p chunks).flatten = lines := by
  induction chunks generalizing lines p with
  | nil =>
    cases lines with
    | nil => rfl
    | cons l rest =>
      have short := within l rfl
      simp only [List.flatten_nil, List.length_nil, stream_cons, List.length_append,
        List.length_cons] at all
      omega
  | cons chunk rest ih =>
    obtain ⟨hlines, hn, hleft⟩ := finish_spec lines (p + chunk.length)
    have total : (stream lines).length = (stream (finish lines (p + chunk.length)).1).length +
        (stream (finish lines (p + chunk.length)).2.1).length := by
      conv => lhs; rw [← hlines]
      simp [stream]
    simp only [expected, List.flatten_cons]
    rw [ih hleft (by simp only [List.flatten_cons, List.length_append] at all; omega)]
    exact hlines

end Lines

/-- The buffer holds `p` bytes of the first line, and `stale` is where an LF lies past them. -/
structure Sync (i : Input) (stale : List Nat) (lines : List CString) (p : Nat) : Prop
    extends i.Kept where
  held : i.inbuf = p
  pending : i.buf.take p = (stream lines).take p
  within : ∀ l ∈ lines.head?, p < l.length + 2
  started : lines = [] → p = 0
  old : ∀ x, p ≤ x → x < INPUT_BUFFER_SIZE → (i.buf[x]? = some LF ↔ x ∈ stale)
  low : ∀ x ∈ stale, x < INPUT_BUFFER_SIZE - 2

section Steps

variable {i : Input} {stale : List Nat} {lines : List CString} {p : Nat} {chunk later : List Byte}

theorem sync_start (a b : Byte) (lines : List CString) : Sync (Input.start a b) [] lines 0 where
  toKept := Input.kept_start a b
  held := rfl
  pending := by simp
  within := by simp
  started := fun _ => rfl
  old := by
    intro x _ hx
    have cleared : (Input.start a b).buf[x]? = some NUL := by
      rw [Input.start, List.getElem?_append_left (by simpa using hx)]
      simp [hx]
    rw [cleared]
    simp only [List.not_mem_nil, iff_false, Option.some.injEq]
    decide
  low := by simp

theorem Sync.notFull (sync : Sync i stale lines p) (clean : ∀ l ∈ lines, Clean l) :
    i.inbuf < INPUT_BUFFER_SIZE := by
  rw [sync.held]
  cases lines with
  | nil => simp [sync.started rfl, INPUT_BUFFER_SIZE]
  | cons l rest =>
    have short := (clean l List.mem_cons_self).short
    have within := sync.within l rfl
    omega

/-- The data after a read is the part of the stream sent so far. -/
theorem Sync.data (sync : Sync i stale lines p)
    (sent : chunk ++ later = (stream lines).drop p) :
    i.data chunk = (stream lines).take (p + chunk.length) := by
  rw [Input.data, sync.held, sync.pending, List.take_add, ← sent, List.take_left]

/-- Within a line, a read is stale when it ends in front of an old LF that fits the line. -/
theorem Sync.stale_iff (sync : Sync i stale lines p) (clean : ∀ l ∈ lines, Clean l)
    (pos : 0 < chunk.length) (sent : chunk ++ later = (stream lines).drop p)
    (idle : ∀ l ∈ lines.head?, p + chunk.length < l.length + 2) :
    i.Stale chunk ↔ ∃ l ∈ lines.head?, p + chunk.length = l.length + 1 ∧
    p + chunk.length ∈ stale := by
  have length := Input.data_length sync.toKept chunk
  have silent := unfinished_lf (fun k hk => (clean k hk).lf) idle
  rw [Input.Stale, length, sync.held, sync.data sent]
  cases lines with
  | nil => simp [stream]
  | cons l rest =>
    have short := (clean l List.mem_cons_self).short
    have unfinished := idle l rfl
    have ends := unfinished_cr rest (clean l List.mem_cons_self) unfinished (by omega)
    have lies := sync.old (p + chunk.length) (by omega)
    rw [ends]
    constructor
    · rintro ⟨small, _, hcr, hlf⟩
      exact ⟨l, rfl, hcr, (lies (by omega)).mp hlf⟩
    · rintro ⟨_, hl, hcr, hlf⟩
      obtain rfl := Option.some.inj hl
      refine ⟨by have := sync.low _ hlf; omega, ?_, hcr, (lies (by omega)).mpr hlf⟩
      exact fun inside => silent (inside.subset (by simp))

theorem Sync.stale_step (sync : Sync i stale lines p) (clean : ∀ l ∈ lines, Clean l)
    (stale : i.Stale chunk) : i.handle chunk = .error .badLength := by
  have found := (Input.newline_stale sync.toKept).mpr stale
  rcases Input.handle_cases chunk (sync.notFull clean) with
      ⟨hnone, _⟩ | ⟨w, _, _, heq⟩ | ⟨w, hw, hle, _⟩
  · rw [found] at hnone
    cases hnone
  · exact heq
  · rw [found] at hw
    have := Option.some.inj hw
    omega

/-- A call that finishes no line executes nothing and keeps the bytes. -/
theorem Sync.idle_step (sync : Sync i stale lines p) (clean : ∀ l ∈ lines, Clean l)
    (pos : 0 < chunk.length) (sent : chunk ++ later = (stream lines).drop p)
    (idle : ∀ l ∈ lines.head?, p + chunk.length < l.length + 2) (fresh : ¬ i.Stale chunk) :
    i.handle chunk = .ok ((i.received chunk).pointed, none) ∧
      Sync (i.received chunk).pointed stale lines (p + chunk.length) := by
  have length := Input.data_length sync.toKept chunk
  have silent := unfinished_lf (fun k hk => (clean k hk).lf) idle
  have buf := Input.received_buf sync.toKept chunk
  rw [← sync.data sent] at silent
  have some_line : lines ≠ [] := by
    rintro rfl
    have gone := congrArg List.length sent
    simp only [stream, List.flatMap_nil, List.drop_nil, List.length_append, List.length_nil] at gone
    omega
  have small : p + chunk.length < INPUT_BUFFER_SIZE := by
    cases lines with
    | nil => exact absurd rfl some_line
    | cons l rest =>
      have short := (clean l List.mem_cons_self).short
      have unfinished := idle l rfl
      omega
  have held := sync.held
  constructor
  · rcases Input.handle_cases chunk (sync.notFull clean) with
        ⟨_, heq⟩ | ⟨w, hw, hlt, _⟩ | ⟨w, hw, hle, _⟩
    · exact heq
    · obtain rfl : w = i.inbuf + chunk.length + 1 := by
        have := Input.newline_range hw
        omega
      exact absurd ((Input.newline_stale sync.toKept).mp hw) fresh
    · exact absurd ((Input.newline_inside sync.toKept hw hle).subset (by simp)) silent
  · refine ⟨⟨Input.received_size sync.toKept (by omega), rfl, Or.inr ⟨?_, rfl⟩⟩, ?_, ?_,
      idle, ?_, ?_, sync.low⟩
    · change i.inbuf + chunk.length ≤ INPUT_BUFFER_SIZE
      omega
    · simp only [Input.pointed, Input.received, held]
    · rw [← sync.data sent, ← held, ← length]
      simp only [Input.pointed, buf, List.take_left]
    · exact fun h => absurd h some_line
    · intro x hx hlt
      rw [← sync.old x (by omega) hlt]
      simp only [Input.pointed, buf]
      rw [List.getElem?_append_right (by omega), List.getElem?_drop, Nat.add_sub_of_le (by omega)]

/-- A line that the searched part does not show is not executed. -/
theorem Sync.unseen (sync : Sync i stale lines p) (clean : ∀ l ∈ lines, Clean l)
    (long : INPUT_BUFFER_SIZE - 2 < p + chunk.length) :
    i.handle chunk = .ok ((i.received chunk).pointed, none) := by
  have none_found : (i.received chunk).newline = none := by
    apply findNetworkNewline_eq_none.mpr
    intro small
    simp only [Input.received, sync.held] at small
    omega
  rcases Input.handle_cases chunk (sync.notFull clean) with ⟨_, heq⟩ | ⟨w, hw, _⟩ | ⟨w, hw, _⟩
  · exact heq
  · rw [none_found] at hw; cases hw
  · rw [none_found] at hw; cases hw

/-- The bytes in the buffer after a read that finishes the line `l`. -/
theorem Sync.received_line {l : CString} {rest : List CString} (sync : Sync i stale (l :: rest) p)
    (sent : chunk ++ later = (stream (l :: rest)).drop p) (long : l.length + 2 ≤ p + chunk.length) :
    (i.received chunk).buf = l ++ CR :: LF ::
    ((stream rest).take (p + chunk.length - (l.length + 2)) ++
      i.buf.drop (p + chunk.length)) := by
  have length := Input.data_length sync.toKept chunk
  rw [Input.received_buf sync.toKept chunk, length, sync.held, sync.data sent]
  obtain ⟨m, hm⟩ := Nat.exists_eq_add_of_le long
  rw [hm, stream_cons, Nat.add_sub_cancel_left, Nat.add_assoc, List.take_length_add_append,
    show 2 + m = m + 1 + 1 by omega]
  simp

/-- A line within the searched part is executed. -/
theorem Sync.line_step {l : CString} {rest : List CString} (sync : Sync i stale (l :: rest) p)
    (clean : ∀ k ∈ l :: rest, Clean k) (sent : chunk ++ later = (stream (l :: rest)).drop p)
    (long : l.length + 2 ≤ p + chunk.length) (small : p + chunk.length ≤ INPUT_BUFFER_SIZE - 2) :
    i.handle chunk = .ok (((i.received chunk).shifted (l.length + 2)).pointed, some l) := by
  have hl := clean l List.mem_cons_self
  have buf := sync.received_line sent long
  have found : (i.received chunk).newline = some (l.length + 2) := by
    have total : (i.received chunk).inbuf = p + chunk.length := by rw [Input.received, sync.held]
    rw [Input.newline, buf, total]
    exact findNetworkNewline_line hl.cr (by omega) small
  have command : (i.received chunk).command (l.length + 2) = l := by
    rw [Input.command, buf, Nat.add_sub_cancel, List.set_append_right _ _ (Nat.le_refl _),
      Nat.sub_self, List.set_cons_zero]
    exact cstr_append_nul _ _ hl.nul
  have held := sync.held
  rcases Input.handle_cases chunk (sync.notFull clean) with
      ⟨hw, _⟩ | ⟨w, hw, hlt, _⟩ | ⟨w, hw, _, heq⟩
  · rw [found] at hw; cases hw
  · rw [found] at hw
    have := Option.some.inj hw
    omega
  · rw [found] at hw
    obtain rfl := Option.some.inj hw
    rw [heq, command]

theorem overwrite_front (buf bytes : List Byte) :
    overwrite buf 0 bytes = bytes ++ buf.drop bytes.length := by
  simp [overwrite]

/-- `memset` of a line without its LF, and `memmove` of what follows the line. -/
theorem overwrite_shift {line tail old : List Byte} {b : Byte} :
    let cleared :=
  overwrite (line ++ b :: LF :: (tail ++ old)) 0 (List.replicate (line.length + 1) NUL)
    overwrite cleared 0 ((cleared.drop (line.length + 2)).take tail.length) =
      tail ++ (List.replicate (line.length + 1) NUL ++ LF :: (tail ++ old)).drop tail.length := by
  intro cleared
  have nuls : cleared = List.replicate (line.length + 1) NUL ++ LF :: (tail ++ old) := by
    simp only [cleared]
    rw [overwrite_front, List.length_replicate, List.drop_append]
    simp
  have moved : (List.replicate (line.length + 1) NUL ++ LF :: (tail ++ old)).drop
      (line.length + 2) = tail ++ old := by
    rw [List.drop_append]
    simp
  rw [nuls, moved, List.take_left, overwrite_front]

theorem shifted_buf {i : Input} {line tail old : List Byte}
    (buf : i.buf = line ++ CR :: LF :: (tail ++ old))
    (held : i.inbuf = line.length + 2 + tail.length) :
    (i.shifted (line.length + 2)).buf =
      tail ++ (List.replicate (line.length + 1) NUL ++ LF :: (tail ++ old)).drop tail.length := by
  rw [Input.shifted, held, Nat.add_sub_cancel_left, buf]
  exact overwrite_shift

/-- Where the line feeds lie after a line has been shifted out. -/
theorem lf_shifted (line old : List Byte) {tail : List Byte} (silent : LF ∉ tail) {x : Nat}
    (past : tail.length ≤ x) :
    (tail ++ (List.replicate (line.length + 1) NUL ++ LF :: (tail ++ old)).drop tail.length)[x]? =
        some LF ↔
      x = line.length + 1 ∨ line.length + 2 + tail.length ≤ x ∧
        old[x - (line.length + 2 + tail.length)]? = some LF := by
  rw [List.getElem?_append_right past, List.getElem?_drop, Nat.add_sub_of_le past]
  by_cases before : x < line.length + 1
  · rw [List.getElem?_append_left (by simpa using before), List.getElem?_replicate, if_pos before]
    constructor
    · intro h
      exact absurd (Option.some.inj h) (by decide)
    · omega
  rw [List.getElem?_append_right (by simp; omega), List.length_replicate]
  by_cases at_end : x = line.length + 1
  · simp [at_end]
  obtain ⟨y, rfl⟩ : ∃ y, x = line.length + 1 + (y + 1) := ⟨x - (line.length + 2), by omega⟩
  rw [Nat.add_sub_cancel_left, List.getElem?_cons_succ]
  by_cases moved : y < tail.length
  · rw [List.getElem?_append_left moved]
    constructor
    · intro h
      exact absurd (List.mem_of_getElem? h) silent
    · omega
  · rw [List.getElem?_append_right (by omega),
      show line.length + 1 + (y + 1) - (line.length + 2 + tail.length) = y - tail.length by omega]
    constructor
    · exact fun h => Or.inr ⟨by omega, h⟩
    · rintro (h | ⟨_, h⟩)
      · omega
      · exact h

/-- After a line, an LF lies where the line had it and where older ones lie past the data. -/
theorem Sync.line_sync {l : CString} {rest : List CString} (sync : Sync i stale (l :: rest) p)
    (clean : ∀ k ∈ l :: rest, Clean k) (sent : chunk ++ later = (stream (l :: rest)).drop p)
    (long : l.length + 2 ≤ p + chunk.length) (small : p + chunk.length ≤ INPUT_BUFFER_SIZE - 2)
    (idle : ∀ k ∈ rest.head?, p + chunk.length - (l.length + 2) < k.length + 2) :
    Sync ((i.received chunk).shifted (l.length + 2)).pointed
      ((l.length + 1) :: stale.filter (p + chunk.length ≤ ·)) rest
      (p + chunk.length - (l.length + 2)) := by
  have held := sync.held
  have low := sync.within l rfl
  have total : (i.received chunk).inbuf = p + chunk.length := by rw [Input.received, sync.held]
  have silent := unfinished_lf (fun k hk => (clean k (List.mem_cons_of_mem l hk)).lf) idle
  have buf := sync.received_line sent long
  have enough : p + chunk.length - (l.length + 2) ≤ (stream rest).length := by
    have count := congrArg List.length sent
    simp only [stream_cons, List.length_append, List.length_drop, List.length_cons] at count
    omega
  have moved : ((stream rest).take (p + chunk.length - (l.length + 2))).length =
      p + chunk.length - (l.length + 2) := by
    rw [List.length_take]
    omega
  generalize htail : (stream rest).take (p + chunk.length - (l.length + 2)) = tail at *
  have whole : l.length + 2 + tail.length = p + chunk.length := by omega
  have shifted := shifted_buf buf (total.trans whole.symm)
  have size :=
    Input.received_size sync.toKept (show i.inbuf + chunk.length ≤ INPUT_BUFFER_SIZE + 2 by
    omega)
  refine ⟨⟨?_, rfl, Or.inr ⟨?_, rfl⟩⟩, ?_, ?_, idle, ?_, ?_, ?_⟩
  · exact (Input.shifted_size (by omega)).trans size
  · change (i.received chunk).inbuf - (l.length + 2) ≤ INPUT_BUFFER_SIZE
    omega
  · change (i.received chunk).inbuf - (l.length + 2) = _
    rw [total]
  · change (Input.shifted _ _).buf.take _ = _
    rw [shifted, ← moved, List.take_left, moved]
    exact htail.symm
  · rintro rfl
    simpa [stream] using enough
  · intro x hx hlt
    change (Input.shifted _ _).buf[x]? = some LF ↔ _
    rw [shifted, lf_shifted _ _ silent (by omega), whole, List.mem_cons, List.mem_filter,
      List.getElem?_drop]
    by_cases past : p + chunk.length ≤ x
    · have lies := sync.old x (by omega) hlt
      rw [Nat.add_sub_of_le past, lies]
      simp [past, and_comm]
    · simp [past]
  · intro x hx
    simp only [List.mem_cons, List.mem_filter] at hx
    rcases hx with rfl | ⟨hx, _⟩
    · omega
    · exact sync.low x hx

end Steps

/-- What `read` returns here: some bytes, and no more than asked for. -/
def Read (i : Input) (call : Call) : Prop :=
  0 < call.bytes.length ∧ i.Sized call.bytes

instance (i : Input) (call : Call) : Decidable (Read i call) :=
  inferInstanceAs (Decidable (_ ∧ _))

section Calls

variable {i j : Input} {call : Call} {command : Option CString} {rest : List Call}

theorem handleIn_error {e : Input.Stop} (h : i.handle call.bytes = .error e) :
    i.handleIn call.block call.bytes = .error e := by
  rw [Input.handleIn, h]

theorem handleIn_idle (h : i.handle call.bytes = .ok (j, none)) :
    i.handleIn call.block call.bytes = .ok (j, none) := by
  rw [Input.handleIn, h]

theorem handleIn_command {c : CString} (h : i.handle call.bytes = .ok (j, some c)) :
    i.handleIn call.block call.bytes =
      if c.length < call.block then .ok (j, some c) else .error .overrun := by
  rw [Input.handleIn, h]

theorem outputs_error {e : Input.Stop} (rest : List Call)
    (h : i.handleIn call.block call.bytes = .error e) : outputs i (call :: rest) = .error e := by
  simp [outputs, h]

/-- The calls agree with what is expected when the first does and the later ones do. -/
theorem outputs_ok {now : List CString} {then' : List (List CString)}
    (h : i.handleIn call.block call.bytes = .ok (j, command)) :
    (∃ commands, outputs i (call :: rest) = .ok commands ∧
        commands.map Option.toList = now :: then') ↔
      command.toList = now ∧
        ∃ commands, outputs j rest = .ok commands ∧ commands.map Option.toList = then' := by
  simp only [outputs, h]
  cases outputs j rest with
  | error e => simp [Except.map]
  | ok commands => simp [Except.map]

theorem step_ok (h : i.handleIn call.block call.bytes = .ok (j, command)) :
    step i call = .ok j := by
  rw [step, h]
  rfl

end Calls

/-- The induction over the calls: in step with the stream, they execute the lines as expected
exactly on the reads that the buffer frames. -/
theorem Sync.framed_iff {i : Input} {stale : List Nat} {lines : List CString} {p : Nat}
    {calls : List Call} (sync : Sync i stale lines p) (clean : ∀ l ∈ lines, Clean l)
    (sent : (calls.map Call.bytes).flatten = (stream lines).drop p)
    (read : Along step Read i calls) :
    (∃ commands, outputs i calls = .ok commands ∧
        commands.map Option.toList = expected lines p (calls.map Call.bytes)) ↔
      Framable stale lines p calls := by
  induction calls generalizing i stale lines p with
  | nil => simp [outputs, expected, Framable]
  | cons call rest ih =>
    have pos := read.1.1
    rw [List.map_cons, List.flatten_cons] at sent
    have left : (rest.map Call.bytes).flatten = (stream lines).drop (p + call.bytes.length) := by
      rw [← List.drop_drop, ← sent, List.drop_left]
    simp only [List.map_cons, expected, Framable]
    obtain ⟨together, bytes, within⟩ := finish_spec lines (p + call.bytes.length)
    cases done : (finish lines (p + call.bytes.length)).1 with
    | nil =>
      obtain ⟨stays, idle⟩ := finish_none done
      simp only [stays]
      have spot := sync.stale_iff clean pos sent idle
      by_cases old : i.Stale call.bytes
      · obtain ⟨l, hl, hn, hm⟩ := spot.mp old
        rw [outputs_error rest (handleIn_error (sync.stale_step clean old))]
        constructor
        · rintro ⟨commands, h, _⟩
          cases h
        · rintro ⟨h, _⟩
          exact absurd hm (h l hl hn)
      · obtain ⟨hrun, sync'⟩ := sync.idle_step clean pos sent idle old
        have ran := handleIn_idle hrun
        rw [outputs_ok ran, ih sync' clean left (read.2 _ (step_ok ran))]
        have fresh : ∀ l ∈ lines.head?, p + call.bytes.length = l.length + 1 →
            p + call.bytes.length ∉ stale := fun l hl hn hm => old (spot.mpr ⟨l, hl, hn, hm⟩)
        exact ⟨fun h => ⟨fresh, h.2⟩, fun h => ⟨rfl, h.2⟩⟩
    | cons l more =>
      obtain ⟨later, rfl, long, hmore⟩ := finish_first done
      rw [finish_next long]
      cases more with
      | nil =>
        obtain ⟨stays, idle⟩ := finish_none hmore
        simp only [stays]
        by_cases small : p + call.bytes.length ≤ INPUT_BUFFER_SIZE - 2
        · have hrun := handleIn_command (sync.line_step clean sent long small)
          by_cases room : l.length < call.block
          · rw [if_pos room] at hrun
            have sync' := sync.line_sync clean sent long small idle
            have left' : (rest.map Call.bytes).flatten =
                (stream later).drop (p + call.bytes.length - (l.length + 2)) := by
              obtain ⟨m, hm⟩ := Nat.exists_eq_add_of_le long
              rw [left, hm, Nat.add_sub_cancel_left, stream_cons, List.drop_append]
              simp [Nat.add_assoc, Nat.add_comm 2 m]
            rw [outputs_ok hrun, ih sync' (fun k hk => clean k (List.mem_cons_of_mem l hk)) left'
              (read.2 _ (step_ok hrun))]
            exact ⟨fun h => ⟨small, room, h.2⟩, fun h => ⟨rfl, h.2.2⟩⟩
          · rw [if_neg room] at hrun
            rw [outputs_error rest hrun]
            constructor
            · rintro ⟨commands, h, _⟩
              cases h
            · exact fun h => absurd h.2.1 room
        · have hrun := handleIn_idle (sync.unseen clean (Nat.lt_of_not_le small))
          rw [outputs_ok hrun]
          constructor
          · rintro ⟨h, _⟩
            cases h
          · exact fun h => absurd h.1 small
      | cons k more =>
        simp only [iff_false]
        cases hrun : i.handleIn call.block call.bytes with
        | error e =>
          rw [outputs_error rest hrun]
          rintro ⟨commands, h, _⟩
          cases h
        | ok r =>
          rw [outputs_ok hrun]
          rintro ⟨h, _⟩
          have two := congrArg List.length h
          cases hr : r.2 <;> simp [hr] at two

theorem reduceOption_eq_flatten (commands : List (Option CString)) :
    commands.reduceOption = (commands.map Option.toList).flatten := by
  induction commands with
  | nil => rfl
  | cons command rest ih =>
    cases command with
    | none => simpa using ih
    | some c => simpa [List.reduceOption_cons_of_some] using ih

/-- Each call executes the lines it finishes, none lost, joined, changed or delayed, exactly when
the reads are framed: one line at most in a read, seen by the search and copied to a block with
room for its NUL, and no CR in front of an old LF. -/
theorem framed_iff_framable (a b : Byte) (lines : List CString) (clean : ∀ l ∈ lines, Clean l)
    (calls : List Call) (sent : (calls.map Call.bytes).flatten = stream lines)
    (read : Along step Read (Input.start a b) calls) :
    Framed a b lines calls ↔ Framable [] lines 0 calls := by
  rw [← (sync_start a b lines).framed_iff clean (by simpa using sent) read]
  constructor
  · rintro ⟨commands, hrun, heq, _⟩
    exact ⟨commands, hrun, heq⟩
  · rintro ⟨commands, hrun, heq⟩
    refine ⟨commands, hrun, heq, ?_⟩
    have all : (expected lines 0 (calls.map Call.bytes)).flatten = lines := by
      apply expected_flatten
      · simp
      · rw [sent, Nat.zero_add]
    rw [reduceOption_eq_flatten, heq, all]

theorem framed_iff_framable_split :
    Framed 0 0 [text "Ann", text "S"] [⟨text "An", 24⟩, ⟨text "n\r", 24⟩, ⟨text "\nS\r\n", 24⟩] ↔
      Framable [] [text "Ann", text "S"] 0
        [⟨text "An", 24⟩, ⟨text "n\r", 24⟩, ⟨text "\nS\r\n", 24⟩] :=
  framed_iff_framable 0 0 [text "Ann", text "S"] (by decide)
    [⟨text "An", 24⟩, ⟨text "n\r", 24⟩, ⟨text "\nS\r\n", 24⟩] (by decide) (by decide)

/-- Two lines in one read: the second is left in the buffer. -/
theorem two_lines_one_read : ¬ ∀ (a b : Byte) (lines : List CString), (∀ l ∈ lines, Clean l) →
    ∀ calls : List Call, (calls.map Call.bytes).flatten = stream lines →
      Along step Read (Input.start a b) calls → Framed a b lines calls := by
  intro always
  obtain ⟨commands, hrun, heq, _⟩ := always 0 0 [text "next", text "next"] (by decide)
    [⟨text "next\r\nnext\r\n", 24⟩] (by decide) (by decide)
  have ran : outputs (Input.start 0 0) [⟨text "next\r\nnext\r\n", 24⟩] =
      .ok [some (text "next")] := by
    decide
  obtain rfl := Except.ok.inj (ran.symm.trans hrun)
  exact absurd heq (by decide)

end LineFraming
