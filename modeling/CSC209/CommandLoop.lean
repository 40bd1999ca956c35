import CSC209.StreamIO

/-!
# A loop over command lines

A line is cut into words by `strtok` and its words are collected in an array
of a fixed length; a line with more words is refused as a whole. A processor
takes the words and a state to a reply and a next state, and certain replies
end the loop. Neither the separators nor the processor are fixed here.
-/

namespace CommandLoop

open CStrings StreamIO

universe u v w x y z
variable {isDelim : Byte → Bool} {s rest line word : CString} {argv : List CString}
  {max size fuel : Nat}

section Words

/-- The next word, and the string behind the separator that ends it. -/
def strtok (isDelim : Byte → Bool) (s : CString) : Option (CString × CString) :=
  match s.dropWhile isDelim with
  | [] => none
  | b :: rest =>
      some ((b :: rest).takeWhile (! isDelim ·), ((b :: rest).dropWhile (! isDelim ·)).tail)

/-- The loop that fills the array, or nothing if there is a word too many. -/
def argumentsFrom (isDelim : Byte → Bool) (max : Nat) :
    Nat → CString → List CString → Option (List CString)
  | 0, _, argv => some argv
  | fuel + 1, s, argv =>
    match strtok isDelim s with
    | none => some argv
    | some (word, rest) =>
      if max ≤ argv.length then none else argumentsFrom isDelim max fuel rest (argv ++ [word])

/-- Every turn takes a byte, so the length of the line is fuel enough. -/
def arguments (isDelim : Byte → Bool) (max : Nat) (s : CString) : Option (List CString) :=
  argumentsFrom isDelim max s.length s []

/-- The words between separators. -/
def words (isDelim : Byte → Bool) (s : CString) : List CString :=
  (s.splitOnP isDelim).filter (· ≠ [])

theorem words_delims (delims : ∀ b ∈ line, isDelim b = true) (s : CString) :
    words isDelim (line ++ s) = words isDelim s := by
  induction line with
  | nil => rfl
  | cons b line ih =>
    obtain ⟨first, later⟩ := List.forall_mem_cons.mp delims
    rw [List.cons_append, ← ih later]
    simp [words, List.splitOnP_cons_eq_if_modifyHead, first]

/-- A word is cut off in front of a separator, or at the end. -/
theorem words_word (some_byte : word ≠ []) (inside : ∀ b ∈ word, isDelim b = false)
    (ends : rest = [] ∨ ∃ b more, rest = b :: more ∧ isDelim b = true) :
    words isDelim (word ++ rest) = word :: words isDelim rest.tail := by
  rcases ends with rfl | ⟨b, more, rfl, delim⟩
  · simp [words, List.splitOnP_eq_singleton inside, some_byte]
  · simp [words, List.splitOnP_append_cons_of_forall_mem inside b delim, some_byte]

theorem strtok_none (h : strtok isDelim s = none) : words isDelim s = [] := by
  have delims : ∀ b ∈ s, isDelim b = true := by
    unfold strtok at h
    split at h
    · next all => exact List.dropWhile_eq_nil_iff.mp all
    · cases h
  simpa [words] using words_delims delims []

theorem strtok_some (h : strtok isDelim s = some (word, rest)) :
    words isDelim s = word :: words isDelim rest ∧ rest.length < s.length := by
  unfold strtok at h
  split at h
  · cases h
  · next b more first =>
    obtain ⟨rfl, rfl⟩ := Prod.mk.inj (Option.some.inj h)
    have start : isDelim b = false := by
      have := List.head?_dropWhile_not isDelim s
      simpa [first] using this
    have skipped : words isDelim s = words isDelim (b :: more) := by
      conv_lhs => rw [← List.takeWhile_append_dropWhile (p := isDelim) (l := s), first]
      exact words_delims (fun _ mem => List.mem_takeWhile_imp mem) _
    have parts :
        (b :: more).takeWhile (! isDelim ·) ++ (b :: more).dropWhile (! isDelim ·) = b :: more :=
      List.takeWhile_append_dropWhile
    have ends : (b :: more).dropWhile (! isDelim ·) = [] ∨
        ∃ c tail, (b :: more).dropWhile (! isDelim ·) = c :: tail ∧ isDelim c = true := by
      cases behind : (b :: more).dropWhile (! isDelim ·) with
      | nil => exact .inl rfl
      | cons c tail =>
        have := List.head?_dropWhile_not (! isDelim ·) (b :: more)
        exact .inr ⟨c, tail, rfl, by simpa [behind] using this⟩
    constructor
    · have inside : ∀ c ∈ (b :: more).takeWhile (! isDelim ·), isDelim c = false := fun c mem => by
        simpa using List.mem_takeWhile_imp mem
      have cut := words_word (by simp [start]) inside ends
      rw [skipped]
      rwa [parts] at cut
    · have shorter : (b :: more).length ≤ s.length :=
        first ▸ (List.dropWhile_sublist isDelim).length_le
      have behind := (List.dropWhile_sublist (! isDelim ·) (l := more)).length_le
      rw [List.dropWhile_cons_of_pos (by simp [start]), List.length_tail]
      simp only [List.length_cons] at shorter
      omega

theorem argumentsFrom_eq (enough : s.length ≤ fuel) (room : argv.length ≤ max) :
    argumentsFrom isDelim max fuel s argv =
      if argv.length + (words isDelim s).length ≤ max then
        some (argv ++ words isDelim s) else none := by
  induction fuel generalizing s argv with
  | zero =>
    obtain rfl : s = [] := List.eq_nil_of_length_eq_zero (Nat.le_zero.mp enough)
    simp [argumentsFrom, words, room]
  | succ fuel ih =>
    rw [argumentsFrom]
    cases next : strtok isDelim s with
    | none => simp [strtok_none next, room]
    | some r =>
      obtain ⟨word, rest⟩ := r
      obtain ⟨first, shorter⟩ := strtok_some next
      rw [first, List.length_cons]
      by_cases full : max ≤ argv.length
      · have beyond : ¬ argv.length + ((words isDelim rest).length + 1) ≤ max := by omega
        simp only [if_pos full, if_neg beyond]
      · have room' : (argv ++ [word]).length ≤ max := by
          rw [List.length_append, List.length_singleton]
          omega
        simp only [if_neg full, ih (Nat.lt_succ_iff.mp (Nat.lt_of_lt_of_le shorter enough)) room']
        simp [Nat.add_assoc, Nat.add_comm 1]

/-- The array holds the words of the line, if it has room for them. -/
theorem arguments_eq (s : CString) :
    arguments isDelim max s =
      if (words isDelim s).length ≤ max then some (words isDelim s) else none := by
  have all : argumentsFrom isDelim max s.length s [] = _ :=
    argumentsFrom_eq (Nat.le_refl s.length) (Nat.zero_le max)
  simpa [arguments] using all

end Words

section Typing

variable {commands : List (List CString)} {blank : Byte}

/-- A command as it is typed. -/
def typed (blank : Byte) (argv : List CString) : List Byte := [blank].intercalate argv ++ [LF]

/-- A word that is typed as it is: no separator, no newline and no NUL in it. -/
def Plain (isDelim : Byte → Bool) (word : CString) : Prop :=
  word ≠ [] ∧ NUL ∉ word ∧ ∀ b ∈ word, isDelim b = false

instance (isDelim : Byte → Bool) (word : CString) : Decidable (Plain isDelim word) :=
  inferInstanceAs (Decidable (_ ∧ _ ∧ _))

theorem words_typed (delim : isDelim blank = true) (newline : isDelim LF = true)
    (plain : ∀ word ∈ argv, Plain isDelim word) :
    words isDelim (typed blank argv) = argv := by
  induction argv with
  | nil => simp [typed, words, List.splitOnP_cons_eq_if_modifyHead, newline]
  | cons word argv ih =>
    obtain ⟨⟨some_byte, _, inside⟩, later⟩ := List.forall_mem_cons.mp plain
    cases argv with
    | nil =>
      have cut := words_word some_byte inside (.inr ⟨LF, [], rfl, newline⟩)
      simpa [typed, words] using cut
    | cons next argv =>
      have split :
          typed blank (word :: next :: argv) = word ++ blank :: typed blank (next :: argv) := by
        simp [typed]
      rw [split, words_word some_byte inside (.inr ⟨blank, _, rfl, delim⟩),
        List.tail_cons, ih later]

theorem mem_typed {b : Byte} (mem : b ∈ [blank].intercalate argv) :
    b = blank ∨ ∃ word ∈ argv, b ∈ word := by
  induction argv with
  | nil => cases mem
  | cons word argv ih =>
    cases argv with
    | nil => exact .inr ⟨word, List.mem_cons_self, by simpa using mem⟩
    | cons next argv =>
      rw [List.intercalate_cons_cons, List.mem_append, List.mem_append] at mem
      rcases mem with (here | here) | later
      · exact .inr ⟨word, List.mem_cons_self, here⟩
      · exact .inl (List.mem_singleton.mp here)
      · rcases ih later with blank | ⟨w, there, here⟩
        · exact .inl blank
        · exact .inr ⟨w, List.mem_cons_of_mem word there, here⟩

/-- What is typed is what is read: one line for each command, with its words. -/
theorem lines_typed (delim : isDelim blank = true) (newline : isDelim LF = true)
    (notNul : blank ≠ NUL)
    (notNewline : blank ≠ LF) (plain : ∀ argv ∈ commands, ∀ word ∈ argv, Plain isDelim word)
    (fits : ∀ argv ∈ commands, (typed blank argv).length < size) :
    (lines size (commands.flatMap (typed blank))).map
    (fun line => words isDelim (cstr line)) = commands := by
  have split : commands.flatMap (typed blank) =
    (commands.map ([blank].intercalate ·)).flatMap (· ++ [LF]) := by
    rw [List.flatMap_map]
    rfl
  have noNewline : ∀ line ∈ commands.map ([blank].intercalate ·), LF ∉ line := by
    intro line mem there
    obtain ⟨argv, typed, rfl⟩ := List.mem_map.mp mem
    rcases mem_typed there with same | ⟨word, known, inside⟩
    · exact notNewline same.symm
    · have := (plain argv typed word known).2.2 LF inside
      rw [newline] at this
      cases this
  have short : ∀ line ∈ commands.map ([blank].intercalate ·), line.length + 1 < size := by
    intro line mem
    obtain ⟨argv, typed, rfl⟩ := List.mem_map.mp mem
    simpa [CommandLoop.typed] using fits argv typed
  rw [split, lines_of_newlines noNewline short, List.map_map, List.map_map]
  refine (List.map_congr_left fun argv typed => ?_).trans (List.map_id commands)
  have clean : NUL ∉ CommandLoop.typed blank argv := by
    intro there
    rcases List.mem_append.mp there with there | there
    · rcases mem_typed there with same | ⟨word, known, inside⟩
      · exact notNul same.symm
      · exact (plain argv typed word known).2.1 inside
    · exact absurd (List.mem_singleton.mp there) (by decide)
  have whole : cstr ([blank].intercalate argv ++ [LF]) = CommandLoop.typed blank argv :=
    cstr_eq_self clean
  simp only [Function.comp_apply, id_eq]
  rw [whole, words_typed delim newline (plain argv typed)]

end Typing

section Loop

variable {σ : Type u} {ε : Type v} {ρ : Type w}

/-- What the processor replies, or that there are too many words. -/
inductive Shown (ρ : Type w) where
  | tooMany
  | reply (r : ρ)
  deriving DecidableEq, Repr

/-- Rows that belong together: too many words in both, or such replies. -/
inductive Shown.Matches {ρ : Type w} {ρ' : Type z} (Q : ρ → ρ' → Prop) :
  Shown ρ → Shown ρ' → Prop where
  | tooMany : Matches Q .tooMany .tooMany
  | reply {r : ρ} {r' : ρ'} : Q r r' → Matches Q (.reply r) (.reply r')

/-- A processor, and the replies that end the loop. -/
structure Interpreter (σ : Type u) (ε : Type v) (ρ : Type w) where
  process : List CString → σ → Except ε (ρ × σ)
  quits : ρ → Bool

namespace Interpreter

variable (i : Interpreter σ ε ρ)

/-- The commands one by one, where nothing stands for too many words; an empty line is passed
over. -/
def obey : List (Option (List CString)) → σ → Except ε (List (Shown ρ) × σ)
  | [], s => .ok ([], s)
  | none :: later, s =>
    match obey later s with
    | .error e => .error e
    | .ok (shown, t) => .ok (.tooMany :: shown, t)
  | some [] :: later, s => obey later s
  | some argv :: later, s =>
    match i.process argv s with
    | .error e => .error e
    | .ok (r, t) =>
      if i.quits r then .ok ([.reply r], t)
      else
        match obey later t with
        | .error e => .error e
        | .ok (shown, u) => .ok (.reply r :: shown, u)

/-- The loop over the lines of a stream. -/
def main (isDelim : Byte → Bool) (max size : Nat) (stdin : List Byte) :
    σ → Except ε (List (Shown ρ) × σ) :=
  i.obey ((lines size stdin).map fun line => arguments isDelim max (cstr line))

variable {i}

/-- What the first line does: it is passed over, or processed, and the loop goes on or ends. -/
theorem obey_cons {argv : Option (List CString)} {later : List (Option (List CString))} {s t : σ}
    {shown : List (Shown ρ)} (h : i.obey (argv :: later) s = .ok (shown, t)) :
    ((argv = none ∨ argv = some []) ∧ ∃ more, i.obey later s = .ok (more, t)) ∨
      ∃ words r m, argv = some words ∧ words ≠ [] ∧ i.process words s = .ok (r, m) ∧
        (i.quits r = true ∧ m = t ∨ i.quits r = false ∧ ∃ more, i.obey later m = .ok (more, t)) :=
  by
  match argv with
  | none =>
    rw [obey] at h
    cases rest : i.obey later s with
    | error e => simp [rest] at h
    | ok p =>
      obtain ⟨_, rfl⟩ : Shown.tooMany :: p.1 = shown ∧ p.2 = t := by simpa [rest] using h
      exact .inl ⟨.inl rfl, p.1, rfl⟩
  | some [] => exact .inl ⟨.inr rfl, shown, h⟩
  | some (word :: words) =>
    rw [obey] at h
    · cases made : i.process (word :: words) s with
      | error e => simp [made] at h
      | ok p =>
        obtain ⟨r, m⟩ := p
        by_cases quits : i.quits r = true
        · obtain ⟨_, rfl⟩ : [Shown.reply r] = shown ∧ m = t := by simpa [made, quits] using h
          exact .inr ⟨_, r, m, rfl, List.cons_ne_nil _ _, made, .inl ⟨quits, rfl⟩⟩
        · cases rest : i.obey later m with
          | error e => simp [made, quits, rest] at h
          | ok p =>
            obtain ⟨_, rfl⟩ : Shown.reply r :: p.1 = shown ∧ p.2 = t := by
              simpa [made, quits, rest] using h
            exact .inr ⟨_, r, m, rfl, List.cons_ne_nil _ _, made,
              .inr ⟨by simpa using quits, p.1, rest⟩⟩
    · exact fun none => List.cons_ne_nil _ _ none

/-- The loop obeys the words of the lines. -/
theorem main_eq (i : Interpreter σ ε ρ) (max size : Nat) (stdin : List Byte) :
    i.main isDelim max size stdin =
      i.obey (((lines size stdin).map fun line => words isDelim (cstr line)).map fun argv =>
      if argv.length ≤ max then some argv else none) := by
  rw [main, List.map_map]
  exact congrArg i.obey (List.map_congr_left fun line _ => arguments_eq (cstr line))

/-- A command that is processed, and what comes after it. -/
theorem obey_ok_iff {words : List CString} {later : List (Option (List CString))} {r : ρ} {s m : σ}
    (nonempty : words ≠ []) (first : i.process words s = .ok (r, m)) (goes_on : i.quits r = false) :
    (∃ shown t, i.obey (some words :: later) s = .ok (shown, t)) ↔ ∃ shown t, i.obey later m = .ok
    (shown, t) := by
  match words, nonempty with
  | word :: words, _ =>
    rw [obey, first]
    · simp only [goes_on]
      cases i.obey later m with
      | error e => simp
      | ok p => exact iff_of_true ⟨_, _, rfl⟩ ⟨p.1, p.2, rfl⟩
    · exact fun none => List.cons_ne_nil _ _ none

/-- The same outcome, in related states. -/
def Alike {τ : Type x} {α : Type w} (R : σ → τ → Prop) : Except ε (α × σ) → Except ε (α × τ) → Prop
  | .ok (a, s), .ok (b, t) => a = b ∧ R s t
  | .error e, .error f => e = f
  | _, _ => False

theorem Alike.ok_iff {τ : Type x} {α : Type w} {R : σ → τ → Prop} {f : Except ε (α × σ)}
    {g : Except ε (α × τ)} (h : Alike R f g) : (∃ a s, f = .ok (a, s)) ↔ ∃ a t, g = .ok (a, t) := by
  match f, g, h with
  | .ok f, .ok g, _ => exact iff_of_true ⟨f.1, f.2, rfl⟩ ⟨g.1, g.2, rfl⟩
  | .error e, .error e', _ => simp

/-- The loop comes to a command that is bad in the state before it. -/
def Meets (i : Interpreter σ ε ρ) (bad : σ → List CString → Prop) :
    List (Option (List CString)) → σ → Prop
  | [], _ => False
  | none :: later, s => Meets i bad later s
  | some [] :: later, s => Meets i bad later s
  | some argv :: later, s =>
    bad s argv ∨
      match i.process argv s with
      | .error _ => False
      | .ok (r, t) => i.quits r = false ∧ Meets i bad later t

instance Meets.decidable (bad : σ → List CString → Prop) [∀ s argv, Decidable (bad s argv)] :
    (commands : List (Option (List CString))) → (s : σ) → Decidable (i.Meets bad commands s)
  | [], _ => isFalse id
  | none :: later, s => Meets.decidable bad later s
  | some [] :: later, s => Meets.decidable bad later s
  | some (word :: words) :: later, s =>
    match made : i.process (word :: words) s with
    | .error e => decidable_of_iff (bad s (word :: words)) (by simp [Meets, made])
    | .ok (r, t) =>
      have := Meets.decidable bad later t
      decidable_of_iff (bad s (word :: words) ∨ i.quits r = false ∧
          i.Meets bad later t) (by simp [Meets, made])

/-- Interpreters that process every command alike, up to commands that are bad for the first and
stop it with one and the same fault: they show the same replies, unless a bad command is met. -/
theorem obey_alike {τ : Type x} {j : Interpreter τ ε ρ} {R : σ → τ → Prop}
    {bad : σ → List CString → Prop} {fault : ε} (quits : i.quits = j.quits)
    (stops : ∀ argv s t, R s t → bad s argv → i.process argv s = .error fault)
    (each : ∀ argv s t, R s t → ¬ bad s argv → Alike R (i.process argv s) (j.process argv t))
    (commands : List (Option (List CString))) {s : σ} {t : τ} (related : R s t) :
    (i.Meets bad commands s ∧ i.obey commands s = .error fault) ∨
      (¬ i.Meets bad commands s ∧ Alike R (i.obey commands s) (j.obey commands t)) := by
  induction commands generalizing s t with
  | nil => exact .inr ⟨id, rfl, related⟩
  | cons argv later ih =>
    match argv with
    | none =>
      rcases ih related with ⟨met, stopped⟩ | ⟨unmet, rest⟩
      · exact .inl ⟨met, by rw [obey, stopped]⟩
      · refine .inr ⟨unmet, ?_⟩
        rw [obey, obey]
        match i.obey later s, j.obey later t, rest with
        | .ok _, .ok _, ⟨same, related⟩ => exact ⟨congrArg _ same, related⟩
        | .error _, .error _, same => exact same
    | some [] => exact ih related
    | some (word :: words) =>
      have nonempty : word :: words ≠ [] := List.cons_ne_nil _ _
      by_cases fails : bad s (word :: words)
      · refine .inl ⟨.inl fails, ?_⟩
        rw [obey, stops _ s t related fails]
        exact nonempty
      have first := each (word :: words) s t related fails
      rw [obey, obey, Meets]
      · match i.process (word :: words) s, j.process (word :: words) t, first with
        | .error _, .error _, same => exact .inr ⟨by simp [fails], same⟩
        | .ok (r, m), .ok (_, n), ⟨rfl, related⟩ =>
          have rest := ih related
          rw [← quits]
          by_cases last : i.quits r = true
          · refine .inr ⟨by simp [fails, last], ?_⟩
            simp only [last, if_true]
            exact ⟨rfl, related⟩
          · rcases rest with ⟨met, stopped⟩ | ⟨unmet, rest⟩
            · exact .inl ⟨.inr ⟨by simpa using last, met⟩, by simp [last, stopped]⟩
            · refine .inr ⟨by simp [fails, unmet], ?_⟩
              simp only [last]
              match i.obey later m, j.obey later n, rest with
              | .ok _, .ok _, ⟨same, related⟩ => exact ⟨congrArg _ same, related⟩
              | .error _, .error _, same => exact same
      · exact nonempty
      · exact nonempty
      · exact nonempty

/-- Interpreters whose replies belong together command by command, and neither of which quits,
show rows that belong together, where neither meets a command that is bad for it. -/
theorem obey_matches {ε' : Type y} {τ : Type x} {ρ' : Type z} {j : Interpreter τ ε' ρ'}
    {R : σ → τ → Prop} {Q : ρ → ρ' → Prop}
    {bad : σ → List CString → Prop} {bad' : τ → List CString → Prop}
    {commands : List (Option (List CString))} {s : σ} {t : τ}
    (each : ∀ argv, some argv ∈ commands → argv ≠ [] → ∀ s t, R s t → ¬ bad s argv → ¬ bad' t argv →
      ∃ r s' r' t', i.process argv s = .ok (r, s') ∧ j.process argv t = .ok (r', t') ∧
        i.quits r = false ∧
        j.quits r' = false ∧ Q r r' ∧ R s' t')
    (related : R s t) (unmet : ¬ i.Meets bad commands s) (unmet' : ¬ j.Meets bad' commands t) :
    ∃ shown s' shown' t', i.obey commands s = .ok (shown, s') ∧
      j.obey commands t = .ok (shown', t') ∧
      List.Forall₂ (Shown.Matches Q) shown shown' ∧ R s' t' := by
  induction commands generalizing s t with
  | nil => exact ⟨[], s, [], t, rfl, rfl, .nil, related⟩
  | cons argv later ih =>
    have behind := fun (s : σ) (t : τ) (related : R s t) =>
      ih (s := s) (t := t) (fun argv mem => each argv (List.mem_cons_of_mem _ mem)) related
    match argv with
    | none =>
      obtain ⟨shown, s', shown', t', here, there, rows, related⟩ := behind _ _ related unmet unmet'
      exact ⟨.tooMany :: shown, s', .tooMany :: shown', t', by rw [obey, here], by rw [obey, there],
        .cons .tooMany rows, related⟩
    | some [] => exact behind s t related unmet unmet'
    | some (word :: words) =>
      have good : ¬ bad s (word :: words) := fun fails => unmet (.inl fails)
      have good' : ¬ bad' t (word :: words) := fun fails => unmet' (.inl fails)
      obtain ⟨r, m, r', n, first, first', stays, stays', fits, related⟩ :=
        each (word :: words) List.mem_cons_self (List.cons_ne_nil _ _) s t related good good'
      have later_unmet : ¬ i.Meets bad later m :=
        fun met => unmet (.inr (by simp [first, stays, met]))
      have later_unmet' : ¬ j.Meets bad' later n :=
        fun met => unmet' (.inr (by simp [first', stays', met]))
      obtain ⟨shown, s', shown', t', here, there, rows, related⟩ :=
        behind _ _ related later_unmet later_unmet'
      have go_on : i.obey (some (word :: words) :: later) s = .ok (.reply r :: shown, s') := by
        simp [obey, first, stays, here]
      have go_on' : j.obey (some (word :: words) :: later) t = .ok (.reply r' :: shown', t') := by
        simp [obey, first', stays', there]
      exact ⟨_, s', _, t', go_on, go_on', .cons (.reply fits) rows, related⟩

end Interpreter

end Loop

end CommandLoop
