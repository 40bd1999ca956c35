import CSC209.A3.Punc
import CSC209.Blocks

/-!
# The loops of the word normalisation

`remove_punc` on blocks of memory, with every index checked: the word is the
string and its NUL, the result a new block of the same size. The indices are
integers without bounds; the indexer calls it for pieces of lines that are at
most `MAXLINE` bytes long.
-/

namespace PuncLoops

open CStrings Blocks Punc

variable {word result front rest : List Byte} {b : Byte} {len i j : Nat}

section Loops

/-- Punctuation or white space, what the last loop overwrites. -/
def isEnd (b : Byte) : Bool := ispunct b || isspace b

def skipLoop (word : List Byte) (len i : Nat) : Except Fault Nat :=
  if i < len then do
    let c ← peek word i
    if ispunct c then skipLoop word len (i + 1) else .ok i
  else .ok i
termination_by len - i

/-- The loop ends at the latest when it reads behind the word. -/
def copyLoop (word result : List Byte) (i j : Nat) : Except Fault (List Byte × Nat) :=
  if i ≤ word.length then do
    let c ← peek word i
    if c ≠ NUL then do
      let result ← poke result j (tolower c)
      copyLoop word result (i + 1) (j + 1)
    else .ok (result, j)
  else .error (.outside i)
termination_by word.length + 1 - i

def trimLoop (result : List Byte) (i : Int) : Except Fault (List Byte) :=
  if 0 ≤ i then do
    let c ← peek result i
    if isEnd c then do
      let result ← poke result i NUL
      trimLoop result (i - 1)
    else .ok result
  else .ok result
termination_by (i + 1).toNat

def removePunc (fill : Nat → Byte) (word : List Byte) : Except Fault (List Byte) := do
  let len ← strlen word
  let result := malloc fill (len + 1)
  let i ← skipLoop word len 0
  let (result, j) ← copyLoop word result i 0
  let result ← poke result j NUL
  let last ← strlen result
  trimLoop result (last - 1)

/-- The string that a block holds. -/
def string (block : List Byte) : Except Fault CString := do
  let _ ← strlen block
  return cstr block

/-- The word that the indexer goes on with. -/
def normalised (fill : Nat → Byte) (word : CString) : Except Fault CString :=
  removePunc fill (word ++ [NUL]) >>= string

end Loops

section Bytes

theorem forall_byte {P : Byte → Prop} (all : ∀ n : Fin 256, P (UInt8.ofFin n)) (b : Byte) :
    P b := all b.toFin

theorem eq_nul_of_tolower : ∀ b : Byte, tolower b = NUL → b = NUL := forall_byte (by decide +kernel)

@[simp] theorem ispunct_tolower : ∀ b : Byte, ispunct (tolower b) = ispunct b :=
  forall_byte (by decide +kernel)

@[simp] theorem isspace_tolower : ∀ b : Byte, isspace (tolower b) = isspace b :=
  forall_byte (by decide +kernel)

@[simp] theorem tolower_tolower : ∀ b : Byte, tolower (tolower b) = tolower b :=
  forall_byte (by decide +kernel)

end Bytes

section Runs

theorem skipLoop_eq (front rest : List Byte) :
    skipLoop (front ++ rest ++ [NUL]) (front.length + rest.length) front.length =
      .ok (front.length + (rest.takeWhile ispunct).length) := by
  induction rest generalizing front with
  | nil =>
    rw [skipLoop, if_neg (by simp)]
    rfl
  | cons b rest ih =>
    have here : peek (front ++ b :: rest ++ [NUL]) front.length = .ok b := peek_ofNat (by simp)
    have later := ih (front ++ [b])
    simp only [List.append_assoc, List.singleton_append, List.length_append, List.length_singleton]
      at later
    rw [skipLoop, if_pos (by simp), here]
    by_cases punct : ispunct b
    · simpa [punct, bind, Except.bind, Nat.add_assoc, Nat.add_comm 1] using later
    · simp [punct, bind, Except.bind]

/-- The copy goes on behind what is copied, and stops at the NUL. -/
theorem copyLoop_eq (front rest copied free : List Byte) (clean : NUL ∉ rest)
    (room : rest.length ≤ free.length) :
    copyLoop (front ++ rest ++ [NUL]) (copied ++ free) front.length copied.length =
      .ok (copied ++ rest.map tolower ++ free.drop rest.length, copied.length + rest.length) := by
  induction rest generalizing front copied free with
  | nil =>
    have here : peek (front ++ [] ++ [NUL]) front.length = .ok NUL := peek_ofNat (by simp)
    rw [copyLoop, if_pos (by simp), here]
    simp [bind, Except.bind]
  | cons b rest ih =>
    obtain ⟨some_byte, clean⟩ := not_or.mp (mt List.mem_cons.mpr clean)
    obtain ⟨x, free, rfl⟩ :=
      List.exists_cons_of_length_pos (Nat.lt_of_lt_of_le (Nat.succ_pos _) room)
    have here : peek (front ++ b :: rest ++ [NUL]) front.length = .ok b := peek_ofNat (by simp)
    have put : poke (copied ++ x :: free) copied.length (tolower b) =
      .ok (copied ++ tolower b :: free) := by
      rw [poke_ofNat (by simp), List.set_append_right _ _ le_rfl, Nat.sub_self, List.set_cons_zero]
    have later := ih (front ++ [b]) (copied ++ [tolower b]) free clean (Nat.le_of_succ_le_succ room)
    simp only [List.append_assoc, List.singleton_append, List.length_append, List.length_singleton]
      at later
    rw [copyLoop, if_pos (by simp), here]
    simp only [bind, Except.bind, ne_eq, Ne.symm some_byte, not_false_eq_true, if_true, put]
    simpa [Nat.add_assoc, Nat.add_comm 1] using later

/-- What is cut off is overwritten with NULs, the rest stands as it is. -/
theorem trimLoop_eq (kept tail : List Byte) :
    ∃ tail', trimLoop (kept ++ NUL :: tail) (kept.length - 1) =
      .ok (kept.rdropWhile isEnd ++ NUL :: tail') := by
  induction kept using List.reverseRecOn generalizing tail with
  | nil => exact ⟨tail, by rw [trimLoop, if_neg (by simp)]; rfl⟩
  | append_singleton kept b ih =>
    have last : ((kept ++ [b]).length : Int) - 1 = kept.length := by simp
    have here : peek (kept ++ [b] ++ NUL :: tail) kept.length = .ok b := peek_ofNat (by simp)
    have put :
        poke (kept ++ [b] ++ NUL :: tail) kept.length NUL = .ok (kept ++ NUL :: NUL :: tail) := by
      rw [poke_ofNat (by simp), List.append_assoc, List.set_append_right _ _ le_rfl, Nat.sub_self,
        List.singleton_append, List.set_cons_zero]
    rw [trimLoop, last, if_pos (Int.natCast_nonneg _), here]
    by_cases ends : isEnd b
    · rw [List.rdropWhile_concat_pos _ _ _ ends]
      simp only [bind, Except.bind, if_pos ends, put]
      exact ih (NUL :: tail)
    · rw [List.rdropWhile_concat_neg _ _ _ ends]
      exact ⟨tail, by simp [bind, Except.bind, ends]⟩

/-- The function stays in its blocks and leaves the word of `Punc.removePunc`. -/
theorem removePunc_ok (fill : Nat → Byte) {w : CString} (clean : NUL ∉ w) :
    ∃ tail, removePunc fill (w ++ [NUL]) = .ok (Punc.removePunc w ++ NUL :: tail) := by
  let kept := w.dropWhile ispunct
  have fewer : kept.length ≤ w.length := (List.dropWhile_sublist _).length_le
  have noNul : NUL ∉ kept := fun h => clean ((List.dropWhile_sublist _).mem h)
  have skipped : skipLoop (w ++ [NUL]) w.length 0 = .ok (w.takeWhile ispunct).length := by
    simpa using skipLoop_eq [] w
  obtain ⟨x, later, free⟩ :
      ∃ x later, (malloc fill (w.length + 1)).drop kept.length = x :: later := by
    apply List.exists_cons_of_length_pos
    rw [List.length_drop, length_malloc]
    exact Nat.sub_pos_of_lt (Nat.lt_succ_of_le fewer)
  have copied : copyLoop (w ++ [NUL]) (malloc fill (w.length + 1)) (w.takeWhile ispunct).length 0 =
      .ok (kept.map tolower ++ x :: later, (kept.map tolower).length) := by
    have run := copyLoop_eq (w.takeWhile ispunct) kept [] (malloc fill (w.length + 1)) noNul
      (by rw [length_malloc]; exact Nat.le_succ_of_le fewer)
    rw [List.takeWhile_append_dropWhile, free] at run
    simpa using run
  have ended : poke (kept.map tolower ++ x :: later) (kept.map tolower).length NUL =
      .ok (kept.map tolower ++ NUL :: later) := by
    rw [poke_ofNat (by simp), List.set_append_right _ _ le_rfl, Nat.sub_self, List.set_cons_zero]
  have measured : strlen (kept.map tolower ++ NUL :: later) = .ok (kept.map tolower).length := by
    refine strlen_append_nul (fun h => ?_) later
    obtain ⟨b, hb, nul⟩ := List.mem_map.mp h
    exact noNul (eq_nul_of_tolower b nul ▸ hb)
  obtain ⟨tail, trimmed⟩ := trimLoop_eq (kept.map tolower) later
  refine ⟨tail, ?_⟩
  simp only [removePunc, strlen_append_nul clean, bind, Except.bind, skipped, copied,
    ended, measured]
  exact trimmed

end Runs

section Words

theorem rdropWhile_map {p : Byte → Bool} {f : Byte → Byte} (same : ∀ b, p (f b) = p b)
    (l : List Byte) :
    (l.map f).rdropWhile p = (l.rdropWhile p).map f := by
  have cut : p ∘ f = p := funext same
  rw [List.rdropWhile, List.rdropWhile, ← List.map_reverse, List.dropWhile_map, cut,
    List.map_reverse]

theorem rdropWhile_append_of_pos {p : Byte → Bool} {q : List Byte} (all : ∀ b ∈ q, p b)
    (l : List Byte) :
    (l ++ q).rdropWhile p = l.rdropWhile p := by
  rw [List.rdropWhile, List.reverse_append,
    List.dropWhile_append_of_pos fun b hb => all b (List.mem_reverse.mp hb), List.rdropWhile]

theorem isEnd_tolower (b : Byte) : isEnd (tolower b) = isEnd b := by simp [isEnd]

/-- The part of the word between the two ends, in lower case. -/
theorem removePunc_eq_map (w : CString) :
    Punc.removePunc w = ((w.dropWhile ispunct).rdropWhile isEnd).map tolower :=
  rdropWhile_map isEnd_tolower _

theorem clean_removePunc {w : CString} (clean : NUL ∉ w) : NUL ∉ Punc.removePunc w := by
  rw [removePunc_eq_map]
  intro h
  obtain ⟨b, hb, nul⟩ := List.mem_map.mp h
  exact clean (eq_nul_of_tolower b nul ▸ (List.dropWhile_sublist _).mem
      ((List.rdropWhile_prefix _ _).subset hb))

/-- What is left begins with no punctuation, and so does every part of it from its start. -/
theorem dropWhile_prefix {p : Byte → Bool} {l l' : List Byte} (part : l' <+: l.dropWhile p) :
    l'.dropWhile p = l' := by
  obtain ⟨rest, whole⟩ := part
  cases l' with
  | nil => rfl
  | cons b l' =>
    have first := List.dropWhile_idempotent p l
    rw [← whole, List.cons_append] at first
    refine List.dropWhile_cons_of_neg fun hb => ?_
    rw [List.dropWhile_cons_of_pos hb] at first
    have := congrArg List.length first
    have := (List.dropWhile_sublist (p := p) (l := l' ++ rest)).length_le
    simp only [List.length_cons] at *
    omega

theorem removePunc_removePunc (w : CString) :
    Punc.removePunc (Punc.removePunc w) = Punc.removePunc w := by
  have cut : ispunct ∘ tolower = ispunct := funext ispunct_tolower
  have low : tolower ∘ tolower = tolower := funext tolower_tolower
  rw [removePunc_eq_map (Punc.removePunc w), removePunc_eq_map w, List.dropWhile_map, cut,
    dropWhile_prefix (List.rdropWhile_prefix _ _), rdropWhile_map isEnd_tolower,
      List.rdropWhile_idempotent, List.map_map, low]

theorem removePunc_pad {p q : List Byte} (before : ∀ b ∈ p, ispunct b) (after : ∀ b ∈ q, ispunct b)
    (w : CString) :
    Punc.removePunc (p ++ w ++ q) = Punc.removePunc w := by
  have ends : ∀ b ∈ q, isEnd b := fun b hb => by simp [isEnd, after b hb]
  rw [removePunc_eq_map, removePunc_eq_map, List.append_assoc, List.dropWhile_append_of_pos before,
    List.dropWhile_append]
  split
  · rename_i nothing
    rw [List.dropWhile_eq_nil_iff.mpr after, List.isEmpty_iff.mp nothing]
  · rw [rdropWhile_append_of_pos ends]

end Words

section Results

theorem normalised_ok (fill : Nat → Byte) {w : CString} (clean : NUL ∉ w) :
    normalised fill w = .ok (Punc.removePunc w) := by
  obtain ⟨tail, run⟩ := removePunc_ok fill clean
  have word := clean_removePunc clean
  simp only [normalised, run, string, strlen_append_nul word, bind, Except.bind, pure, Except.pure,
    cstr_append_nul _ _ word]

/-- What the function gives for a word, for its own result, and for the word between punctuation. -/
theorem normalised_word (fill fill' : Nat → Byte) (w p q : CString) (clean : NUL ∉ w)
    (before : ∀ b ∈ p, ispunct b) (after : ∀ b ∈ q, ispunct b) :
    normalised fill w =
        .ok (((w.dropWhile ispunct).rdropWhile fun b => ispunct b || isspace b).map tolower) ∧
      (normalised fill w >>= normalised fill') = normalised fill w ∧
      normalised fill' (p ++ w ++ q) = normalised fill w := by
  have whole : NUL ∉ p ++ w ++ q := by
    simp only [List.mem_append, not_or]
    exact ⟨⟨fun h => absurd (before _ h) (by decide), clean⟩,
      fun h => absurd (after _ h) (by decide)⟩
  rw [normalised_ok fill clean, normalised_ok fill' whole, removePunc_pad before after]
  refine ⟨congrArg Except.ok (removePunc_eq_map w), ?_, rfl⟩
  show normalised fill' (Punc.removePunc w) = _
  rw [normalised_ok fill' (clean_removePunc clean), removePunc_removePunc]

theorem normalised_word_quoted :
    let w := text "Don't! "
    normalised (fun _ => 7) w =
        .ok (((w.dropWhile ispunct).rdropWhile fun b => ispunct b || isspace b).map tolower) ∧
      (normalised (fun _ => 7) w >>= normalised fun k => UInt8.ofNat k) =
        normalised (fun _ => 7) w ∧
      normalised (fun k => UInt8.ofNat k) (text "\"(" ++ w ++ text "?!") =
        normalised (fun _ => 7) w :=
  normalised_word _ _ (text "Don't! ") (text "\"(") (text "?!") (by decide) (by decide +kernel)
    (by decide +kernel)

end Results

end PuncLoops
