import CSC209.A4.LineFraming
import CSC209.Blocks
import CSC209.HaltingRuns

/-!
# The pieces of the random client

`write_random_pieces` sends a message so many times over, in pieces whose sizes
come from `rand`. A piece goes on where the last one stopped, by an index into
the message that is taken modulo its length. `write` is given each piece; what
it returns is not looked at. `rand` returns any numbers that are not negative.
-/

namespace RandClient

open CStrings HaltingRuns StreamIO Blocks

def MESSAGE : CString := text "A stitch in time\r\n"
def TIMES : Int := 5
def MINCHARS : Nat := 3
def MAXCHARS : Nat := 7

/-- `pieces` lists what was given to `write`. -/
structure Sender where
  piece : List Byte
  currentByte : Int
  pieces : List (List Byte)
  deriving DecidableEq, Repr

section Source

/-- There is no `int` for the remainder of a division by zero. -/
def rem (a b : Int) : Except Fault Int := if b = 0 then .error .overflow else int (a.tmod b)

/-- A size that is too large for an `int` is wrapped around. -/
def intOfSize (n : Nat) : Int := Int.bmod n (2 ^ 32)

def pieceByte (message : List Byte) (messageLen currentByte : Int) (i : Nat) :
    Except Fault Byte := do
  peek message (← rem (← int (currentByte + i)) messageLen)

/-- The loop over the bytes of a piece. -/
def fillPiece (message : List Byte) (messageLen currentByte pieceSize : Int) (piece : List Byte) :
    Except Fault (List Byte) :=
  (List.range pieceSize.toNat).foldlM
    (fun piece (i : Nat) => do poke piece i (← pieceByte message messageLen currentByte i)) piece

/-- The bytes that `write` takes from the array. -/
def write (piece : List Byte) (pieceSize : Int) : Except Fault (List Byte) :=
  if 0 ≤ pieceSize ∧ pieceSize ≤ piece.length then .ok (piece.take pieceSize.toNat)
  else .error (.outside piece.length)

/-- One turn of the loop, for one result of `rand`. -/
def writePiece (message : List Byte) (messageLen totalBytes : Int) (rand : Nat) (s : Sender) :
    Except Fault Sender := do
  let pieceSize ← int ((rand : Int).tmod (MAXCHARS - MINCHARS + 1) + MINCHARS)
  let bytesLeft ← int (totalBytes - s.currentByte)
  let pieceSize := if bytesLeft < pieceSize then bytesLeft else pieceSize
  let piece ← fillPiece message messageLen s.currentByte pieceSize s.piece
  let given ← write piece pieceSize
  .ok ⟨piece, ← int (s.currentByte + pieceSize), s.pieces ++ [given]⟩

/-- The loop, for so many turns at most; `k` counts the calls of `rand`. -/
def writePieces (message : List Byte) (messageLen totalBytes : Int) (rand : Nat → Nat) :
    Nat → Nat → Sender → Except Fault (Option Sender)
  | 0, _, _ => .ok none
  | fuel + 1, k, s =>
    if s.currentByte < totalBytes then do
      let s ← writePiece message messageLen totalBytes (rand k) s
      writePieces message messageLen totalBytes rand fuel (k + 1) s
    else .ok (some s)

/-- What is given to `write`, if the loop ends within so many turns. -/
def writeRandomPieces (fill : Nat → Byte) (rand : Nat → Nat) (fuel : Nat) (message : CString)
    (times : Int) :
    Except Fault (Option (List (List Byte))) := do
  let message := message ++ [NUL]
  let messageLen := intOfSize (← strlen message)
  let totalBytes ← int (times * messageLen)
  let sent ← writePieces message messageLen totalBytes rand fuel 0 ⟨malloc fill MAXCHARS, 0, []⟩
  .ok (sent.map Sender.pieces)

end Source

section Repetitions

/-- The message so many times over. -/
def repeated (n : Nat) (message : List Byte) : List Byte := (List.replicate n message).flatten

variable {message : List Byte} {n k : Nat}

@[simp] theorem length_repeated (n : Nat) (message : List Byte) :
    (repeated n message).length = n * message.length := by
  simp [repeated]

/-- Every byte of the repetition is found in the message by the remainder of its index. -/
theorem getElem?_repeated (inside : k < n * message.length) :
    (repeated n message)[k]? = message[k % message.length]? := by
  induction n generalizing k with
  | zero => simp at inside
  | succ n ih =>
    rw [repeated, List.replicate_succ, List.flatten_cons]
    by_cases first : k < message.length
    · rw [List.getElem?_append_left first, Nat.mod_eq_of_lt first]
    · have past : message.length ≤ k := Nat.le_of_not_lt first
      rw [Nat.succ_mul] at inside
      rw [List.getElem?_append_right past, Nat.mod_eq_sub_mod past]
      exact ih (by omega)

/-- A line that is sent with its CRLF makes the stream that the buffered server reads. -/
theorem repeated_line (n : Nat) (line : CString) :
    repeated n (line ++ [CR, LF]) = LineFraming.stream (List.replicate n line) := by
  rw [repeated, LineFraming.stream, List.flatMap_def, List.map_replicate]

end Repetitions

section Pieces

variable {message piece : List Byte} {n c size : Nat} {s : Sender}

/-- The sender is at the end of what it has written, and that is the start of the whole text. -/
structure Cut (whole : List Byte) (s : Sender) : Prop where
  array : s.piece.length = MAXCHARS
  place : s.currentByte = s.pieces.flatten.length
  sent : s.pieces.flatten <+: whole
  sized : ∀ p ∈ s.pieces, 1 ≤ p.length ∧ p.length ≤ MAXCHARS

theorem rem_ofNat {k m : Nat} (some_byte : 0 < m) (fits : IsInt k) :
    rem k m = .ok (k % m : Nat) := by
  have low : k % m ≤ k := Nat.mod_le k m
  rw [rem, if_neg (by omega), Int.tmod_eq_emod_of_nonneg (Int.natCast_nonneg k), ← Int.natCast_emod]
  exact int_eq (by rw [IsInt] at fits ⊢; omega)

theorem pieceByte_spec {i : Nat} {b : Byte} (fits : IsInt (repeated n message).length)
    (here : (repeated n message)[c + i]? = some b) :
    pieceByte (message ++ [NUL]) message.length c i = .ok b := by
  obtain ⟨inside, _⟩ := List.getElem?_eq_some_iff.mp here
  have index : IsInt (c + i : Nat) := by
    rw [IsInt] at fits ⊢
    omega
  rw [length_repeated] at inside
  rw [getElem?_repeated inside] at here
  have some_byte : 0 < message.length := Nat.pos_of_mul_pos_left (Nat.zero_lt_of_lt inside)
  have low : (c + i) % message.length < message.length := Nat.mod_lt _ some_byte
  have byte : peek (message ++ [NUL]) ((c + i) % message.length : Nat) = .ok b :=
    peek_ofNat (by rw [List.getElem?_append_left low, here])
  rw [pieceByte, ← Int.natCast_add, int_eq index]
  simp only [bind, Except.bind, rem_ofNat some_byte index, byte]

/-- The first cells of the array are filled with what follows in the text. -/
theorem fillPiece_spec {front rest : List Byte} (size : Nat)
    (fits : IsInt (repeated n message).length)
    (whole : front ++ rest = repeated n message) (short : size ≤ rest.length)
    (room : size ≤ piece.length) :
    ∃ piece', fillPiece (message ++ [NUL]) message.length front.length size piece = .ok piece' ∧
      piece'.length = piece.length ∧ piece'.take size = rest.take size := by
  refine foldlM_range
    (fun k (p : List Byte) => p.length = piece.length ∧ p.take k = rest.take k) size
    ⟨rfl, rfl⟩ ?_
  rintro k hk p ⟨array, filled⟩
  have next : rest[k]? = some rest[k] := List.getElem?_eq_getElem (by omega)
  have here : (repeated n message)[front.length + k]? = some rest[k] := by
    rw [← whole, List.getElem?_append_right (Nat.le_add_right _ _), Nat.add_sub_cancel_left, next]
  refine ⟨p.set k rest[k], ?_, by rw [List.length_set, array], ?_⟩
  · rw [pieceByte_spec fits here]
    exact poke_ofNat (by omega) _
  · rw [List.take_add_one, List.take_add_one, List.take_set_of_le le_rfl, filled, next,
      List.getElem?_set_self (by omega)]

theorem write_spec (room : size ≤ piece.length) : write piece size = .ok (piece.take size) := by
  rw [write, if_pos (by omega), Int.toNat_natCast]

/-- The size that one result of `rand` gives. -/
def drawn (rand : Nat) : Nat := rand % (MAXCHARS - MINCHARS + 1) + MINCHARS

theorem drawn_bounds (rand : Nat) : MINCHARS ≤ drawn rand ∧ drawn rand ≤ MAXCHARS := by
  simp only [drawn, MINCHARS, MAXCHARS]
  omega

theorem drawn_eq (rand : Nat) :
    int ((rand : Int).tmod (MAXCHARS - MINCHARS + 1) + MINCHARS) = .ok (drawn rand) := by
  have value : (rand : Int).tmod (MAXCHARS - MINCHARS + 1) + MINCHARS = drawn rand := by
    rw [Int.tmod_eq_emod_of_nonneg (Int.natCast_nonneg rand)]
    simp only [drawn, MAXCHARS, MINCHARS]
    omega
  have bounds := drawn_bounds rand
  rw [MAXCHARS] at bounds
  rw [value]
  exact int_eq (by rw [IsInt]; omega)

/-- A turn writes the next piece of the text, which is not empty and fits the array. -/
theorem writePiece_spec (rand : Nat) (fits : IsInt (repeated n message).length)
    (cut : Cut (repeated n message) s) (more : s.currentByte < (repeated n message).length) :
    ∃ s', writePiece (message ++ [NUL]) message.length (repeated n message).length rand s = .ok s' ∧
      Cut (repeated n message) s' ∧ s.currentByte < s'.currentByte := by
  obtain ⟨rest, whole⟩ := cut.sent
  have total : s.pieces.flatten.length + rest.length = (repeated n message).length := by
    rw [← whole, List.length_append]
  have ints := fits
  rw [IsInt] at ints
  have left : int ((repeated n message).length - s.currentByte) = .ok rest.length := by
    rw [cut.place,
      show ((repeated n message).length : Int) - s.pieces.flatten.length = rest.length by omega]
    exact int_eq (by rw [IsInt]; omega)
  have bounds := drawn_bounds rand
  have low : 1 ≤ MINCHARS := by decide
  have place := cut.place
  obtain ⟨size, least⟩ : ∃ size, size = min rest.length (drawn rand) := ⟨_, rfl⟩
  have pieceSize :
      (if (rest.length : Int) < drawn rand then (rest.length : Int) else drawn rand) = size := by
    split <;> omega
  have some_byte : 1 ≤ size := by omega
  have room : size ≤ MAXCHARS := by omega
  obtain ⟨piece', filled, array, bytes⟩ :=
    fillPiece_spec size fits whole (by omega) (cut.array ▸ room)
  have given : write piece' size = .ok (rest.take size) := by
    rw [write_spec (array ▸ cut.array ▸ room), bytes]
  have next : int (s.currentByte + size) = .ok (s.currentByte + size) :=
    int_eq (by rw [IsInt]; omega)
  rw [← place] at filled
  refine ⟨⟨piece', s.currentByte + size, s.pieces ++ [rest.take size]⟩, ?_,
    ⟨array.trans cut.array, ?_, ?_, ?_⟩, ?_⟩
  · rw [writePiece, drawn_eq, left]
    simp only [bind, Except.bind, pieceSize, filled, given, next]
  · simp only [place, List.flatten_append, List.length_append, List.flatten_singleton,
      List.length_take]
    omega
  · refine ⟨rest.drop size, ?_⟩
    rw [List.flatten_append, List.flatten_singleton, List.append_assoc,
      List.take_append_drop, whole]
  · intro p hp
    rcases List.mem_append.mp hp with old | new
    · exact cut.sized p old
    · obtain rfl := List.mem_singleton.mp new
      rw [List.length_take]
      omega
  · show s.currentByte < s.currentByte + size
    omega

/-- The loop ends, and has then written the whole text. A message that is sent no times may have
any length. -/
theorem writePieces_spec (messageLen : Int) (rand : Nat → Nat)
    (fits : IsInt (repeated n message).length)
    (size : 0 < n → messageLen = message.length) (cut : Cut (repeated n message) s) (k : Nat) :
    ∃ s', s'.pieces.flatten = repeated n message ∧
      (∀ p ∈ s'.pieces, 1 ≤ p.length ∧ p.length ≤ MAXCHARS) ∧
      ∀ fuel : Nat, ((repeated n message).length : Int) - s.currentByte < fuel →
        writePieces (message ++ [NUL]) messageLen (repeated n message).length rand fuel k s =
          .ok (some s') := by
  have place := cut.place
  have within := cut.sent.length_le
  induction left : ((repeated n message).length - s.currentByte).toNat using
    Nat.strongRecOn generalizing s k with
  | ind left ih =>
    by_cases more : s.currentByte < (repeated n message).length
    · obtain rfl : messageLen = message.length := by
        apply size
        rw [length_repeated] at more
        exact Nat.pos_of_mul_pos_right (show 0 < n * message.length by omega)
      obtain ⟨t, turn, cut', onward⟩ := writePiece_spec (rand k) fits cut more
      obtain ⟨s', whole, sized, run⟩ :=
        ih _ (by omega) cut' (k + 1) cut'.place cut'.sent.length_le rfl
      refine ⟨s', whole, sized, fun fuel enough => ?_⟩
      obtain ⟨fuel, rfl⟩ : ∃ f, fuel = f + 1 := ⟨fuel - 1, by omega⟩
      rw [writePieces, if_pos more, turn]
      exact run fuel (by omega)
    · have whole : s.pieces.flatten = repeated n message := cut.sent.eq_of_length (by omega)
      refine ⟨s, whole, cut.sized, fun fuel enough => ?_⟩
      obtain ⟨fuel, rfl⟩ : ∃ f, fuel = f + 1 := ⟨fuel - 1, by omega⟩
      rw [writePieces, if_neg more]

theorem intOfSize_eq (small : n < 2 ^ 31) : intOfSize n = n :=
  Int.bmod_eq_of_le (by omega) (by omega)

/-- The number of bytes does not depend on how a length is wrapped that is not an `int`. -/
theorem totalBytes_eq (fits : IsInt (repeated n message).length) :
    int (n * intOfSize message.length) = .ok (repeated n message).length ∧
      (0 < n → intOfSize message.length = message.length) := by
  rw [length_repeated] at fits ⊢
  rcases Nat.eq_zero_or_pos n with rfl | repeats
  · rw [Int.natCast_zero, Int.zero_mul, Nat.zero_mul]
    exact ⟨int_eq (by decide), fun h => absurd h (Nat.lt_irrefl 0)⟩
  · have le := Nat.le_mul_of_pos_left message.length repeats
    have small : message.length < 2 ^ 31 := by
      rw [IsInt] at fits
      omega
    rw [intOfSize_eq small, ← Int.natCast_mul]
    exact ⟨int_eq fits, fun _ => rfl⟩

/-- Whatever `rand` returns, the pieces are the message so many times over. -/
theorem pieces_exact (fill : Nat → Byte) (rand : Nat → Nat) (message : CString) (times : Int)
    (clean : NUL ∉ message) (sign : 0 ≤ times) (fits : IsInt (times * message.length)) :
    ∃ pieces, (∀ fuel : Nat, times * message.length < fuel →
        writeRandomPieces fill rand fuel message times = .ok (some pieces)) ∧
      (∀ p ∈ pieces, 1 ≤ p.length ∧ p.length ≤ MAXCHARS) ∧
      pieces.flatten = repeated times.toNat message := by
  obtain ⟨n, rfl⟩ := Int.eq_ofNat_of_zero_le sign
  have size : (n : Int) * message.length = (repeated n message).length := by
    rw [length_repeated, Int.natCast_mul]
  rw [Int.toNat_natCast]
  rw [size] at fits ⊢
  obtain ⟨total, messageLen⟩ := totalBytes_eq fits
  have start : Cut (repeated n message) ⟨malloc fill MAXCHARS, 0, []⟩ :=
    ⟨length_malloc fill MAXCHARS, rfl, List.nil_prefix, by simp⟩
  obtain ⟨s, whole, sized, run⟩ :=
    writePieces_spec (intOfSize message.length) rand fits messageLen start 0
  refine ⟨s.pieces, fun fuel enough => ?_, sized, whole⟩
  have sent := run fuel (by simpa using enough)
  exact bind_ok_iff.mpr ⟨_, strlen_append_nul clean [],
    bind_ok_iff.mpr ⟨_, total, bind_ok_iff.mpr ⟨_, sent, rfl⟩⟩⟩

theorem pieces_exact_stitch :
    NUL ∉ MESSAGE ∧ 0 ≤ TIMES ∧ IsInt (TIMES * MESSAGE.length) ∧
      ∃ pieces, (∀ fuel : Nat, TIMES * MESSAGE.length < fuel →
          writeRandomPieces (fun _ => NUL) id fuel MESSAGE TIMES = .ok (some pieces)) ∧
        (∀ p ∈ pieces, 1 ≤ p.length ∧ p.length ≤ MAXCHARS) ∧
        pieces.flatten = repeated TIMES.toNat MESSAGE :=
  ⟨by decide, by decide, by decide, pieces_exact _ _ _ _ (by decide) (by decide) (by decide)⟩

/-- The second piece is cut short. -/
example : writeRandomPieces (fun _ => NUL) id 3 (text "ab") 3 =
      .ok (some [text "aba", text "bab"]) := by decide +kernel

end Pieces

end RandClient
