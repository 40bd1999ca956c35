import CSC209.StreamIO

/-!
# Blocks of memory

A block is the list of its cells, and an index into it may be any integer.
Reading or writing outside the block is a fault, and so are following a null
pointer and a result that is too large for an `int`. A loop that reads a block
from its start to its end is a fold over the cells. Nothing is fixed about
what the cells of a new block hold. The functions of `string.h` look for the
NUL of a string in its block, and write only inside the block.
-/

namespace Blocks

open CStrings StreamIO

universe u v
variable {α : Type u} {σ : Type u} {block front : List α} {i : Int} {k : Nat} {a : α}

inductive Fault where
  | outside (i : Int)
  | null
  | overflow
  deriving DecidableEq, Repr

def peek (block : List α) (i : Int) : Except Fault α :=
  if 0 ≤ i then
    match block[i.toNat]? with
    | some a => .ok a
    | none => .error (.outside i)
  else .error (.outside i)

def poke (block : List α) (i : Int) (a : α) : Except Fault (List α) :=
  if 0 ≤ i ∧ i < block.length then .ok (block.set i.toNat a) else .error (.outside i)

/-- An `int` with this value. -/
def int (v : Int) : Except Fault Int := if IsInt v then .ok v else .error .overflow

theorem int_eq {v : Int} (fits : IsInt v) : int v = .ok v := if_pos fits

section Cells

theorem peek_ofNat (h : block[k]? = some a) : peek block k = .ok a := by
  simp [peek, h]

theorem peek_outside (h : ¬ (0 ≤ i ∧ i < block.length)) : peek block i = .error (.outside i) := by
  by_cases sign : 0 ≤ i
  · have past : block[i.toNat]? = none := List.getElem?_eq_none (by omega)
    simp [peek, sign, past]
  · simp [peek, sign]

theorem poke_ofNat (h : k < block.length) (a : α) : poke block k a = .ok (block.set k a) := by
  simp [poke, h]

theorem poke_outside (h : ¬ (0 ≤ i ∧ i < block.length)) (a : α) :
    poke block i a = .error (.outside i) := by
  rw [poke, if_neg h]

/-- What can be read lies inside the block. -/
theorem peek_inside (read : peek block i = .ok a) : 0 ≤ i ∧ i < block.length := by
  by_contra outside
  rw [peek_outside outside] at read
  cases read

end Cells

section Loops

/-- A loop that collects the results of its turns. -/
theorem mapM_eq {β : Type u} {f : α → Except Fault β} {g : α → β}
    (each : ∀ a ∈ block, f a = .ok (g a)) :
    block.mapM f = .ok (block.map g) := by
  induction block with
  | nil => rfl
  | cons a rest ih =>
    obtain ⟨here, later⟩ := List.forall_mem_cons.mp each
    rw [List.mapM_cons, here, ih later]
    rfl

/-- Such a loop goes through only if every turn does. -/
theorem mapM_turn {β : Type u} {f : α → Except Fault β} {results : List β}
    (run : block.mapM f = .ok results) :
    ∀ a ∈ block, ∃ b, f a = .ok b := by
  induction block generalizing results with
  | nil => simp
  | cons a rest ih =>
    rw [List.mapM_cons] at run
    cases here : f a with
    | error e => simp [here, bind, Except.bind] at run
    | ok b =>
      cases later : rest.mapM f with
      | error e => simp [here, later, bind, Except.bind] at run
      | ok bs => exact List.forall_mem_cons.mpr ⟨⟨b, here⟩, ih later⟩

/-- What is known of the first result is all that the second step needs. -/
theorem bind_spec {β : Type u} {x : Except Fault α} {f : α → Except Fault β} {P : α → Prop}
    {Q : β → Prop} (first : ∃ a, x = .ok a ∧ P a) (next : ∀ a, P a → ∃ b, f a = .ok b ∧ Q b) :
    ∃ b, x >>= f = .ok b ∧ Q b := by
  obtain ⟨a, rfl, ha⟩ := first
  exact next a ha

theorem foldlM_congr {f g : σ → α → Except Fault σ}
    (same : ∀ a ∈ block, ∀ s, f s a = g s a) (s : σ) :
    block.foldlM f s = block.foldlM g s := by
  induction block generalizing s with
  | nil => rfl
  | cons a rest ih =>
    rw [List.foldlM_cons, List.foldlM_cons, same a List.mem_cons_self]
    exact bind_congr fun t => ih (fun b hb => same b (List.mem_cons_of_mem a hb)) t

/-- The loop over the cells behind the first ones. -/
theorem foldlM_peek_from (front block : List α) (body : σ → α → Except Fault σ) (s : σ) :
    (List.range' front.length block.length).foldlM
    (fun s (i : Nat) => do body s (← peek (front ++ block) i)) s =
      block.foldlM body s := by
  induction block generalizing front s with
  | nil => rfl
  | cons a rest ih =>
    have here : peek (front ++ a :: rest) front.length = .ok a := peek_ofNat (by simp)
    have later := ih (front ++ [a])
    simp only [List.length_append, List.length_singleton, List.append_assoc, List.singleton_append]
      at later
    simp only [List.length_cons, List.range'_succ, List.foldlM_cons, here]
    refine bind_congr fun t => ?_
    exact later t

theorem foldlM_peek (block : List α) (body : σ → α → Except Fault σ) (s : σ) :
    (List.range block.length).foldlM
    (fun s (i : Nat) => do body s (← peek block i)) s = block.foldlM body s := by
  rw [List.range_eq_range']
  exact foldlM_peek_from [] block body s

/-- What every turn keeps that does not end the run holds of the result. -/
theorem foldlM_keeps {ι : Type v} {items : List ι} {body : σ → ι → Except Fault σ} {s t : σ}
    {P : σ → Prop} (keeps : ∀ s x t, P s → body s x = .ok t → P t) (base : P s)
    (run : items.foldlM body s = .ok t) : P t := by
  induction items generalizing s with
  | nil => exact Except.ok.inj run ▸ base
  | cons x rest ih =>
    rw [List.foldlM_cons] at run
    cases first : body s x with
    | error f => simp [first, bind, Except.bind] at run
    | ok u => exact ih (keeps s x u base first) (by simpa [first, bind, Except.bind] using run)

theorem length_of_poke {block' : List α} (h : poke block i a = .ok block') :
    block'.length = block.length := by
  rw [poke] at h
  split at h
  · rw [← Except.ok.inj h, List.length_set]
  · cases h

/-- A loop inside a loop is one loop. -/
theorem foldlM_flatten (rows : List (List α)) (body : σ → α → Except Fault σ) (s : σ) :
    rows.foldlM (fun s row => row.foldlM body s) s = rows.flatten.foldlM body s := by
  induction rows generalizing s with
  | nil => rfl
  | cons row rows ih =>
    rw [List.foldlM_cons, List.flatten_cons, List.foldlM_append]
    exact bind_congr fun t => ih t

/-- What every turn of a counted loop keeps holds after the last one. -/
theorem foldlM_range' {body : σ → Nat → Except Fault σ} {s : σ} (P : Nat → σ → Prop)
    (start n step : Nat) (base : P 0 s)
    (turn : ∀ k < n, ∀ s, P k s → ∃ t, body s (start + step * k) = .ok t ∧ P (k + 1) t) :
    ∃ t, (List.range' start n step).foldlM body s = .ok t ∧ P n t := by
  induction n with
  | zero => exact ⟨s, rfl, base⟩
  | succ n ih =>
    obtain ⟨t, run, holds⟩ := ih fun k hk => turn k (Nat.lt_succ_of_lt hk)
    obtain ⟨u, last, holds'⟩ := turn n (Nat.lt_succ_self n) t holds
    refine ⟨u, ?_, holds'⟩
    rw [List.range'_concat, List.foldlM_append, run]
    simp [bind, Except.bind, last, pure, Except.pure]

theorem foldlM_range {body : σ → Nat → Except Fault σ} {s : σ} (P : Nat → σ → Prop) (n : Nat)
    (base : P 0 s) (turn : ∀ k < n, ∀ s, P k s → ∃ t, body s k = .ok t ∧ P (k + 1) t) :
    ∃ t, (List.range n).foldlM body s = .ok t ∧ P n t := by
  rw [List.range_eq_range']
  exact foldlM_range' P 0 n 1 base (by simpa using turn)

end Loops

section Strings

/-- A new block, whose cells hold whatever was there before. -/
def malloc (fill : Nat → α) (size : Nat) : List α := (List.range size).map fill

@[simp] theorem length_malloc (fill : Nat → α) (size : Nat) : (malloc fill size).length = size := by
  simp [malloc]

def strlen (block : List Byte) : Except Fault Nat :=
  if NUL ∈ block then .ok (cstr block).length else .error (.outside block.length)

theorem strlen_append_nul {s : CString} (clean : NUL ∉ s) (rest : List Byte) :
    strlen (s ++ NUL :: rest) = .ok s.length := by
  rw [strlen, if_pos (by simp), cstr_append_nul s rest clean]

theorem strlen_unterminated {block : List Byte} (none : NUL ∉ block) :
    strlen block = .error (.outside block.length) := if_neg none

/-- A copy to the cells from `k` on. -/
def place (block : List Byte) (k : Nat) (bytes : List Byte) : Except Fault (List Byte) :=
  if k + bytes.length ≤ block.length then
    .ok (block.take k ++ bytes ++ block.drop (k + bytes.length))
  else .error (.outside block.length)

def strcpy (block : List Byte) (s : CString) : Except Fault (List Byte) :=
  place block 0 (s ++ [NUL])

/-- Exactly `n` bytes are written; a string that is longer is left without its NUL. -/
def strncpy (block : List Byte) (s : CString) (n : Nat) : Except Fault (List Byte) :=
  place block 0 (s.take n ++ List.replicate (n - s.length) NUL)

/-- At most `n` bytes of the string are appended, and a NUL behind them. -/
def strncat (block : List Byte) (s : CString) (n : Nat) : Except Fault (List Byte) := do
  place block (← strlen block) (s.take n ++ [NUL])

def strcat (block : List Byte) (s : CString) : Except Fault (List Byte) := do
  place block (← strlen block) (s ++ [NUL])

/-- The block has this size and holds this string. -/
def Stores (size : Nat) (s : CString) (block : List Byte) : Prop :=
  block.length = size ∧ NUL ∉ s ∧ ∃ rest, block = s ++ NUL :: rest

variable {size : Nat} {s t : CString}

theorem Stores.cstr_eq {block : List Byte} (h : Stores size s block) : cstr block = s := by
  obtain ⟨_, clean, rest, rfl⟩ := h
  exact cstr_append_nul s rest clean

theorem Stores.nul_mem {block : List Byte} (h : Stores size s block) : NUL ∈ block := by
  obtain ⟨_, _, rest, rfl⟩ := h
  simp

theorem Stores.strlen_eq {block : List Byte} (h : Stores size s block) :
    strlen block = .ok s.length := by
  rw [strlen, if_pos h.nul_mem, h.cstr_eq]

theorem Stores.take_length {block : List Byte} (h : Stores size s block) :
    block.take s.length = s := by
  obtain ⟨_, _, rest, rfl⟩ := h
  exact List.take_left

theorem Stores.short {block : List Byte} (h : Stores size s block) : s.length < size := by
  obtain ⟨rfl, _, rest, rfl⟩ := h
  simp

theorem Stores.set_nul {block : List Byte} (h : Stores size s block) {k : Nat} (low : s.length ≤ k)
    (high : k < size) :
    ∃ b, poke block k NUL = .ok b ∧ Stores size s b := by
  obtain ⟨rfl, clean, rest, rfl⟩ := h
  refine ⟨_, poke_ofNat high NUL, List.length_set, clean, ?_⟩
  rw [List.set_append_right _ _ low]
  cases h : k - s.length with
  | zero => exact ⟨rest, rfl⟩
  | succ j => exact ⟨rest.set j NUL, rfl⟩

theorem clean_cstr (block : List Byte) : NUL ∉ cstr block :=
  fun h => by simpa using List.mem_takeWhile_imp h

theorem stores_cstr {block : List Byte} (nul : NUL ∈ block) :
    Stores block.length (cstr block) block := by
  obtain ⟨front, rest, rfl, clean⟩ := List.eq_append_cons_of_mem nul
  exact ⟨rfl, clean_cstr _, rest, by rw [cstr_append_nul front rest clean]⟩

/-- A string and its NUL are put behind the first cells. -/
theorem place_stores {front old : List Byte} (clean : NUL ∉ front ++ s)
    (room : s.length < old.length) :
    ∃ b, place (front ++ old) front.length (s ++ [NUL]) = .ok b ∧
      Stores (front ++ old).length (front ++ s) b := by
  refine ⟨_, if_pos ?_, ?_, clean, old.drop (s.length + 1), ?_⟩
  · simp only [List.length_append, List.length_singleton]
    omega
  · simp only [List.length_append, List.length_take, List.length_singleton, List.length_drop]
    omega
  · rw [List.take_left', ← List.drop_drop, List.drop_left']
    · simp
    · rfl
    · rfl

theorem place_full {block : List Byte} {k : Nat} (full : block.length ≤ k + s.length) :
    place block k (s ++ [NUL]) = .error (.outside block.length) := by
  rw [place, if_neg]
  rw [List.length_append, List.length_singleton]
  omega

theorem strcpy_stores {block : List Byte} (clean : NUL ∉ s) (room : s.length < block.length) :
    ∃ b, strcpy block s = .ok b ∧ Stores block.length s b := by
  exact @place_stores s [] block clean room

/-- A string that fits is copied with NULs to the end of the block. -/
theorem strncpy_stores {block : List Byte} (clean : NUL ∉ s) (room : s.length < block.length) :
    ∃ b, strncpy block s block.length = .ok b ∧ Stores block.length s b := by
  obtain ⟨k, more⟩ : ∃ k, block.length - s.length = k + 1 := ⟨block.length - s.length - 1, by omega⟩
  refine ⟨_, if_pos ?_, ?_, clean, List.replicate k NUL, ?_⟩
  · simp only [List.length_append, List.length_take, List.length_replicate]
    omega
  · simp only [List.length_append, List.length_take, List.length_replicate, List.length_drop]
    omega
  · have whole : s.take block.length = s := List.take_of_length_le room.le
    have size : 0 + (s ++ NUL :: List.replicate k NUL).length = block.length := by
      simp only [List.length_append, List.length_cons, List.length_replicate]
      omega
    rw [whole, more, List.replicate_succ, List.take_zero, List.nil_append,
      List.drop_eq_nil_of_le size.ge, List.append_nil]

/-- A string too long for the block leaves it without a NUL. -/
theorem strncpy_unterminated {block : List Byte} (clean : NUL ∉ s)
    (long : block.length ≤ s.length) :
    ∃ b, strncpy block s block.length = .ok b ∧ NUL ∉ b := by
  have filled : 0 + (s.take block.length ++ List.replicate (block.length - s.length) NUL).length =
    block.length := by
    simp only [List.length_append, List.length_take, List.length_replicate]
    omega
  refine ⟨_, if_pos filled.le, ?_⟩
  rw [List.take_zero, List.nil_append, List.drop_eq_nil_of_le filled.ge, List.append_nil,
    Nat.sub_eq_zero_of_le long, List.replicate_zero, List.append_nil]
  exact fun h => clean (List.mem_of_mem_take h)

theorem strcat_stores {block : List Byte} (h : Stores size s block) (clean : NUL ∉ t)
    (room : s.length + t.length < size) : ∃ b, strcat block t = .ok b ∧ Stores size (s ++ t) b := by
  rw [strcat, h.strlen_eq]
  obtain ⟨rfl, first, rest, rfl⟩ := h
  refine place_stores (by simpa using ⟨first, clean⟩) ?_
  simp only [List.length_append, List.length_cons] at room ⊢
  omega

theorem strcat_full {block : List Byte} (h : Stores size s block)
    (full : size ≤ s.length + t.length) :
    strcat block t = .error (.outside size) := by
  rw [strcat, h.strlen_eq, ← h.1]
  exact place_full (h.1 ▸ full)

theorem strncat_eq (block : List Byte) (t : CString) (n : Nat) :
    strncat block t n = strcat block (t.take n) := rfl

theorem foldlM_strcat_stores {block : List Byte} {pieces : List CString} (h : Stores size s block)
    (clean : ∀ t ∈ pieces, NUL ∉ t) (room : s.length + pieces.flatten.length < size) :
    ∃ b, pieces.foldlM strcat block = .ok b ∧ Stores size (s ++ pieces.flatten) b := by
  induction pieces generalizing s block with
  | nil => exact ⟨block, rfl, by simpa using h⟩
  | cons t rest ih =>
    rw [List.flatten_cons, List.length_append] at room
    obtain ⟨b, first, stores⟩ := strcat_stores h (clean t List.mem_cons_self) (by omega)
    have fits : (s ++ t).length + rest.flatten.length < size := by
      rw [List.length_append]
      omega
    rw [List.foldlM_cons, first, List.flatten_cons, ← List.append_assoc]
    exact ih stores (fun u hu => clean u (List.mem_cons_of_mem t hu)) fits

/-- Pieces have been appended only behind a string, and only with room for all of them. -/
theorem foldlM_strcat_room {block b : List Byte} {pieces : List CString}
    (clean : ∀ t ∈ pieces, NUL ∉ t)
    (some_piece : pieces ≠ []) (run : pieces.foldlM strcat block = .ok b) :
    NUL ∈ block ∧ (cstr block).length + pieces.flatten.length < block.length := by
  induction pieces generalizing block with
  | nil => exact absurd rfl some_piece
  | cons t rest ih =>
    have nul : NUL ∈ block := by
      by_contra none
      rw [List.foldlM_cons, strcat, strlen_unterminated none] at run
      cases run
    have stores := stores_cstr nul
    have fits : (cstr block).length + t.length < block.length := by
      by_contra full
      rw [List.foldlM_cons, strcat_full stores (by omega)] at run
      cases run
    obtain ⟨b₁, first, stores₁⟩ := strcat_stores stores (clean t List.mem_cons_self) fits
    refine ⟨nul, ?_⟩
    rw [List.flatten_cons, List.length_append]
    cases rest with
    | nil => simpa using fits
    | cons u rest =>
      rw [List.foldlM_cons, first] at run
      have later :=
        (ih (fun v hv => clean v (List.mem_cons_of_mem t hv)) (List.cons_ne_nil u rest) run).2
      rw [stores₁.cstr_eq, stores₁.1, List.length_append] at later
      omega

end Strings

end Blocks
