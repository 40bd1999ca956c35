import CSC209.Blocks
import Mathlib.Data.List.Forall2
import Mathlib.Data.List.Nodup

/-!
# Checking a password

`checkpasswd` reads a user id and a password, one on each line, and writes the
first `MAX_PASSWORD` bytes of either buffer to a pipe, whatever stands behind
the line in it. `validate` reads the two chunks, takes the newlines off, joins
them with a colon, and looks for that string in the lines of the password
file. It overwrites the last character of a line whatever it is. The strings
fit their buffers with the limits that are given to `strncat`.
-/

namespace Validate

open CStrings StreamIO Blocks

/-- The buffers of `validate`. -/
def MAXLINE : Nat := 32

/-- The buffers of `checkpasswd`. -/
def LINE_SIZE : Nat := 256

def MAX_PASSWORD : Nat := 10

/-- `validate` writes in front of a line that begins with a NUL. -/
inductive Halt where
  | inFront
  deriving DecidableEq, Repr

section Program

/-- A buffer of `checkpasswd` that `fgets` has put a line in. -/
def buffer (fill : Nat → Byte) (line : List Byte) : List Byte :=
  line ++ NUL :: (malloc fill LINE_SIZE).drop (line.length + 1)

/-- What `checkpasswd` writes to the pipe, unless one of its two lines is missing. -/
def checkpasswd (fillUser fillPassword : Nat → Byte) (stdin : List Byte) : Option (List Byte) := do
  let (userId, rest) ← fgets LINE_SIZE stdin
  let (password, _) ← fgets LINE_SIZE rest
  let userId := buffer fillUser userId
  let password := buffer fillPassword password
  return userId.take MAX_PASSWORD ++ password.take MAX_PASSWORD ++ userId.take 32 ++
    password.take MAX_PASSWORD

/-- The string of a chunk, with the newline taken off if it is there. -/
def chunkString (chunk : List Byte) : CString := (cstr chunk).takeWhile (· ≠ LF)

/-- `strncmp` of two strings gives 0. -/
def sameStart (a b : CString) (n : Nat) : Bool := a.take n = b.take n

/-- The loop over the password file, with the exit status. -/
def checkLines (userid : CString) (userLength : Nat) : List (List Byte) → Except Halt Nat
  | [] => .ok 3
  | line :: rest =>
    match chop line with
    | none => .error .inFront
    | some line =>
      if userid = line then .ok 0
      else if sameStart userid line userLength then .ok 2
      else checkLines userid userLength rest

/-- What `validate` does with its two chunks; the password file may be missing. -/
def check (userid password : List Byte) : Option (List Byte) → Except Halt Nat
  | none => .ok 1
  | some file =>
    let userid := chunkString userid
    let userid := userid ++ (text ":").take (MAXLINE - userid.length - 1)
    let userLength := userid.length
    let userid := userid ++ (chunkString password).take (MAXLINE - userid.length - 1)
    checkLines userid userLength (lines (MAXLINE - 1) file)

def validate (stdin file : List Byte) : Except Halt Nat :=
  let userid := stdin.take MAX_PASSWORD
  let password := (stdin.drop MAX_PASSWORD).take MAX_PASSWORD
  if userid = [] ∨ password = [] then .ok 1 else check userid password (some file)

end Program

section Files

/-- A user and a password that are on one line of a password file. -/
structure Entry where
  user : CString
  password : CString
  plain : ∀ b ∈ user ++ password, b ≠ NUL ∧ b ≠ LF
  noColon : (58 : Byte) ∉ user
  short : (user ++ text ":" ++ password).length < 30
  deriving DecidableEq

def Entry.text (e : Entry) : CString := e.user ++ CStrings.text ":" ++ e.password

/-- A password file; `last` is on a line without a newline. -/
structure PassFile where
  entries : List Entry
  last : Option Entry
  deriving DecidableEq

def PassFile.all (f : PassFile) : List Entry := f.entries ++ f.last.toList

def PassFile.bytes (f : PassFile) : List Byte :=
  f.entries.flatMap (fun e => e.text ++ [LF]) ++ f.last.toList.flatMap Entry.text

/-- The lines without their last characters. -/
def PassFile.linesRead (f : PassFile) : List CString :=
  f.entries.map Entry.text ++ f.last.toList.map fun e => e.text.dropLast

/-- The user id and the password are entered on the first two lines. -/
structure Typed (user password stdin : List Byte) : Prop where
  clean : NUL ∉ stdin
  oneLine : LF ∉ user
  oneLine' : LF ∉ password
  lines : ∃ tail, stdin = user ++ LF :: tail ∧
    ((∃ rest, tail = password ++ LF :: rest) ∨ tail = password ∧ password ≠ [])

def PassFile.Knows (f : PassFile) (user : CString) : Prop := ∃ e ∈ f.all, e.user = user

def PassFile.Holds (f : PassFile) (user password : CString) : Prop :=
  ∃ e ∈ f.all, e.user = user ∧ e.password = password

/-- The exit status tells whether the file has the pair, only the user, or neither. -/
def Tells (f : PassFile) (user password : CString) (status : Nat) : Prop :=
  (status = 0 ↔ f.Holds user password) ∧ (status = 2 ↔ f.Knows user ∧ ¬ f.Holds user password) ∧
    (status = 3 ↔ ¬ f.Knows user)

/-- The user id that `validate` looks for. -/
def cutUser (user : CString) : CString := user.take MAX_PASSWORD

/-- The password that it looks for; behind a user id too long for its buffer `checkpasswd` takes the
rest of it for the password. -/
def cutPassword (user password : CString) : CString :=
  (if user.length < LINE_SIZE - 1 then password else user.drop (LINE_SIZE - 1)).take MAX_PASSWORD

def Begins (user line : CString) : Prop := user ++ text ":" <+: line

instance (user line : CString) : Decidable (Begins user line) :=
  inferInstanceAs (Decidable (_ <+: _))

/-- The users and passwords on the lines as they are read. The line without a newline loses the end
of its password, or its colon if there is no password. -/
def PassFile.shown (f : PassFile) : List (CString × CString) :=
  f.entries.map (fun e => (e.user, e.password)) ++ (f.last.toList.filter (·.password ≠ [])).map
    fun e => (e.user, e.password.dropLast)

/-- The password on the first line that shows the user. -/
def PassFile.shownFor (f : PassFile) (user : CString) : Option CString :=
  (f.shown.find? fun s => s.1 = user).map Prod.snd

/-- The inputs for which the exit status is wrong, one constructor for each way to get there: a
colon that is entered, a user id or a password that is cut after `MAX_PASSWORD` characters, a user
with several lines, and the last line without a newline. -/
inductive Failing (f : PassFile) (user password : CString) : Prop where
  | colon : 58 ∈ cutUser user → (∃ line ∈ f.linesRead, Begins (cutUser user) line) →
      Failing f user password
  | cutUserMissed : MAX_PASSWORD < user.length → f.Knows user →
      (∀ s ∈ f.shown, s.1 ≠ cutUser user) → Failing f user password
  | cutUserTaken : MAX_PASSWORD < user.length → ¬ f.Knows user →
      (∃ s ∈ f.shown, s.1 = cutUser user) → Failing f user password
  | cutUserAccepts : MAX_PASSWORD < user.length → f.Knows user → ¬ f.Holds user password →
      f.shownFor (cutUser user) = some (password.take MAX_PASSWORD) → Failing f user password
  | cutUserRefuses (other : CString) : MAX_PASSWORD < user.length → f.Holds user password →
      f.shownFor (cutUser user) = some other → other ≠ password.take MAX_PASSWORD →
      Failing f user password
  | cutPasswordAccepted (first : Entry) : user.length ≤ MAX_PASSWORD →
      MAX_PASSWORD < password.length → f.entries.find? (·.user = user) = some first →
      first.password = password.take MAX_PASSWORD → ¬ f.Holds user password →
      Failing f user password
  | cutPasswordRefused (first : Entry) : user.length ≤ MAX_PASSWORD →
      MAX_PASSWORD < password.length → f.entries.find? (·.user = user) = some first →
      first.password ≠ password.take MAX_PASSWORD → f.Holds user password →
      Failing f user password
  | laterLine (first : Entry) : user.length ≤ MAX_PASSWORD → password.length ≤ MAX_PASSWORD →
      f.entries.find? (·.user = user) = some first → first.password ≠ password →
      f.Holds user password → Failing f user password
  | colonLost (e : Entry) : user.length ≤ MAX_PASSWORD → (∀ d ∈ f.entries, d.user ≠ user) →
      f.last = some e → e.user = user → e.password = [] → Failing f user password
  | endRefused (e : Entry) : user.length ≤ MAX_PASSWORD → (∀ d ∈ f.entries, d.user ≠ user) →
      f.last = some e → e.user = user → e.password = password → password ≠ [] →
      password.length ≠ MAX_PASSWORD + 1 → Failing f user password
  | endAccepted (e : Entry) : user.length ≤ MAX_PASSWORD → (∀ d ∈ f.entries, d.user ≠ user) →
      f.last = some e → e.user = user → e.password ≠ [] → e.password ≠ password →
      e.password.dropLast = password.take MAX_PASSWORD → Failing f user password

/-- The line that decides is there and is the one looked for exactly when it should be. -/
def Clear (f : PassFile) (user password : CString) : Prop :=
  (f.Knows user ↔ ∃ line ∈ f.linesRead, Begins (cutUser user) line) ∧
    ∀ line, f.linesRead.find? (fun line => Begins (cutUser user) line) = some line →
      (line = cutUser user ++ text ":" ++ cutPassword user password ↔ f.Holds user password)

end Files

section Chunks

variable {fill fillUser fillPassword : Nat → Byte} {word line rest user password stdin : List Byte}

theorem length_buffer (short : line.length < LINE_SIZE) :
    (buffer fill line).length = LINE_SIZE := by
  rw [buffer, List.length_append, List.length_cons, List.length_drop, length_malloc]
  omega

theorem chunkString_buffer (clean : NUL ∉ line) :
    chunkString ((buffer fill line).take MAX_PASSWORD) =
      (line.takeWhile (· ≠ LF)).take MAX_PASSWORD := by
  rw [chunkString, cstr, ← List.take_takeWhile, ← List.take_takeWhile]
  exact congrArg (fun s => (s.takeWhile (· ≠ LF)).take MAX_PASSWORD) (cstr_append_nul line _ clean)

/-- What a buffer holds of a word that ends with the line or the input. -/
theorem fgets_word (noNewline : LF ∉ word) (ends : rest = [] ∨ ∃ more, rest = LF :: more)
    (some_byte : word ++ rest ≠ []) :
    ∃ line, fgets LINE_SIZE (word ++ rest) =
        some (line,
          if word.length < LINE_SIZE - 1 then rest.tail else word.drop (LINE_SIZE - 1) ++ rest) ∧
      line.length < LINE_SIZE ∧ (∀ b ∈ line, b ∈ word ++ rest) ∧
      (line.takeWhile (· ≠ LF)).take MAX_PASSWORD = word.take MAX_PASSWORD := by
  have plain : ∀ b ∈ word, decide (b ≠ LF) = true := fun b hb => by
    simpa using fun same : b = LF => noNewline (same ▸ hb)
  rw [fgets, if_neg some_byte, takeLine_word noNewline ends]
  by_cases fits : word.length < LINE_SIZE - 1
  · have last : (rest.take 1).takeWhile (· ≠ LF) = [] ∧ (rest.take 1).length ≤ 1 := by
      rcases ends with rfl | ⟨more, rfl⟩ <;> simp
    refine ⟨word ++ rest.take 1, by rw [if_pos fits, if_pos fits], ?_, fun b hb => ?_, ?_⟩
    · rw [List.length_append]
      omega
    · exact List.mem_append.mpr ((List.mem_append.mp hb).imp_right List.mem_of_mem_take)
    · rw [List.takeWhile_append_of_pos plain, last.1, List.append_nil]
  · refine ⟨word.take (LINE_SIZE - 1), by rw [if_neg fits, if_neg fits], ?_, fun b hb => ?_, ?_⟩
    · rw [List.length_take]
      have : LINE_SIZE = 256 := rfl
      omega
    · exact List.mem_append_left _ (List.mem_of_mem_take hb)
    · rw [List.takeWhile_eq_self_iff.mpr fun b hb => plain b (List.mem_of_mem_take hb),
        List.take_take]
      rfl

/-- What is left for the second `fgets`: the second line, or the end of the first. -/
theorem Typed.left {tail : List Byte} (typed : Typed user password stdin)
    (first : stdin = user ++ LF :: tail)
    (form : (∃ rest, tail = password ++ LF :: rest) ∨ tail = password ∧ password ≠ []) :
    ∃ word rest, (if user.length < LINE_SIZE - 1 then tail else user.drop (LINE_SIZE - 1) ++
      LF :: tail) = word ++ rest ∧
      LF ∉ word ∧ (rest = [] ∨ ∃ more, rest = LF :: more) ∧ word ++ rest ≠ [] ∧ NUL ∉ word ++ rest ∧
      word.take MAX_PASSWORD = cutPassword user password := by
  have clean := typed.clean
  rw [first, List.mem_append, List.mem_cons, not_or, not_or] at clean
  by_cases fits : user.length < LINE_SIZE - 1
  · rw [if_pos fits, cutPassword, if_pos fits]
    rcases form with ⟨rest, rfl⟩ | ⟨rfl, some_byte⟩
    · exact ⟨password, LF :: rest, rfl, typed.oneLine', .inr ⟨rest, rfl⟩, by simp, clean.2.2, rfl⟩
    · exact ⟨tail, [], by simp, typed.oneLine', .inl rfl, by simpa using some_byte,
        by simpa using clean.2.2, rfl⟩
  · rw [if_neg fits, cutPassword, if_neg fits]
    refine ⟨user.drop (LINE_SIZE - 1), LF :: tail, rfl,
      fun h => typed.oneLine (List.mem_of_mem_drop h), .inr ⟨tail, rfl⟩, by simp, ?_, rfl⟩
    simp only [List.mem_append, List.mem_cons, not_or]
    exact ⟨fun h => clean.1 (List.mem_of_mem_drop h), clean.2⟩

/-- The two chunks, and what the user id and the password are in them. -/
theorem checkpasswd_eq (fillUser fillPassword : Nat → Byte) (typed : Typed user password stdin) :
    ∃ first second more, checkpasswd fillUser fillPassword stdin = some (first ++ second ++ more) ∧
      first.length = MAX_PASSWORD ∧ second.length = MAX_PASSWORD ∧
      chunkString first = cutUser user ∧
      chunkString second = cutPassword user password := by
  obtain ⟨tail, whole, form⟩ := typed.lines
  obtain ⟨word, rest, left, noNewline, ends, some_byte, clean, cut⟩ := typed.left whole form
  obtain ⟨line, taken, short, part, uncut⟩ := fgets_word typed.oneLine (.inr ⟨tail, rfl⟩) (by simp)
  obtain ⟨line', taken', short', part', uncut'⟩ := fgets_word noNewline ends some_byte
  rw [← whole] at taken part
  rw [List.tail_cons, left] at taken
  have clean_line : NUL ∉ line := fun h => typed.clean (part NUL h)
  have clean_line' : NUL ∉ line' := fun h => clean (part' NUL h)
  have size : min MAX_PASSWORD LINE_SIZE = MAX_PASSWORD := rfl
  refine ⟨(buffer fillUser line).take MAX_PASSWORD, (buffer fillPassword line').take MAX_PASSWORD,
    (buffer fillUser line).take 32 ++ (buffer fillPassword line').take MAX_PASSWORD, ?_,
      ?_, ?_, ?_, ?_⟩
  · simp only [checkpasswd, taken, taken', bind, Option.bind, pure, List.append_assoc]
  · rw [List.length_take, length_buffer short, size]
  · rw [List.length_take, length_buffer short', size]
  · rw [chunkString_buffer clean_line, uncut, cutUser]
  · rw [chunkString_buffer clean_line', uncut', cut]

end Chunks

section Lookup

variable {u p : CString} {chunks : List (List Byte)} {ls : List CString}

theorem sameStart_iff (u p line : CString) :
    sameStart (u ++ text ":" ++ p) line (u ++ text ":").length ↔ Begins u line := by
  rw [sameStart, decide_eq_true_iff, List.take_left', Begins, List.prefix_iff_eq_take]
  rfl

/-- The first line that begins with the user id decides. -/
theorem checkLines_eq (u p : CString) (read : List.Forall₂ (fun c l => chop c = some l) chunks ls) :
    checkLines (u ++ text ":" ++ p) (u ++ text ":").length chunks =
      match ls.find? fun line => Begins u line with
      | none => .ok 3
      | some line => .ok (if line = u ++ text ":" ++ p then 0 else 2) := by
  induction read with
  | nil => rfl
  | @cons c l chunks ls chopped _ ih =>
    rw [checkLines, chopped]
    by_cases begins : Begins u l
    · rw [List.find?_cons_of_pos (by simpa using begins)]
      by_cases same : u ++ text ":" ++ p = l
      · simp [same]
      · simp only [if_neg same, if_pos ((sameStart_iff u p l).mpr begins), if_neg (Ne.symm same)]
    · have other : u ++ text ":" ++ p ≠ l := by
        rintro rfl
        exact begins (List.prefix_append _ _)
      rw [List.find?_cons_of_neg (by simpa using begins), ← ih]
      simp only [if_neg other, if_neg (mt (sameStart_iff u p l).mp begins)]

theorem find_begins_eq_none :
    (ls.find? fun line => Begins u line) = none ↔ ¬ ∃ line ∈ ls, Begins u line := by
  simp [List.find?_eq_none]

end Lookup

section Shown

variable {f : PassFile} {user password u : CString}

theorem takeWhile_colon (noColon : (58 : Byte) ∉ user) (rest : CString) :
    (user ++ text ":" ++ rest).takeWhile (· ≠ 58) = user := by
  have plain : ∀ b ∈ user, decide (b ≠ 58) = true := by
    intro b hb
    simpa using fun same : b = 58 => noColon (same ▸ hb)
  rw [List.append_assoc, List.takeWhile_append_of_pos plain]
  exact List.append_nil user

/-- A user without a colon is found by its prefix. -/
theorem begins_line_iff (noColon : (58 : Byte) ∉ u) (noColon' : (58 : Byte) ∉ user)
    (rest : CString) :
    Begins u (user ++ text ":" ++ rest) ↔ user = u := by
  constructor
  · rintro ⟨rest', same⟩
    have cut := congrArg (List.takeWhile (· ≠ 58)) same
    rw [takeWhile_colon noColon, takeWhile_colon noColon'] at cut
    exact cut.symm
  · rintro rfl
    exact ⟨rest, rfl⟩

theorem colon_of_begins {line : CString} (begins : Begins u line) : (58 : Byte) ∈ line := by
  apply begins.subset
  simp [text]

/-- The lines that show a user, and the one that has lost its colon. -/
theorem linesRead_eq (f : PassFile) :
    f.linesRead = f.shown.map (fun s => s.1 ++ text ":" ++ s.2) ++
      (f.last.toList.filter (·.password = [])).map Entry.user := by
  have entries : f.entries.map Entry.text =
      (f.entries.map fun e => (e.user, e.password)).map fun s => s.1 ++ text ":" ++ s.2 := by
    rw [List.map_map]
    exact List.map_congr_left fun e _ => rfl
  rw [PassFile.linesRead, PassFile.shown, List.map_append, List.append_assoc, ← entries,
    List.append_cancel_left_eq]
  cases f.last with
  | none => rfl
  | some e =>
    by_cases empty : e.password = []
    · simp [Entry.text, empty, text]
    · simp [Entry.text, empty, List.dropLast_append_of_ne_nil, List.dropLast_cons_of_ne_nil, text]

theorem shown_noColon {s : CString × CString} (member : s ∈ f.shown) : (58 : Byte) ∉ s.1 := by
  rw [PassFile.shown, List.mem_append, List.mem_map, List.mem_map] at member
  rcases member with ⟨e, _, rfl⟩ | ⟨e, _, rfl⟩
  · exact e.noColon
  · exact e.noColon

/-- The search by prefix is a search for the user. -/
theorem find_shown (noColon : (58 : Byte) ∉ u) {pairs : List (CString × CString)}
    (plain : ∀ s ∈ pairs, (58 : Byte) ∉ s.1) :
    (pairs.map fun s => s.1 ++ text ":" ++ s.2).find? (fun line => Begins u line) =
      (pairs.find? fun s => s.1 = u).map fun s => u ++ text ":" ++ s.2 := by
  induction pairs with
  | nil => rfl
  | cons s pairs ih =>
    have here := begins_line_iff noColon (plain s List.mem_cons_self) s.2
    rw [List.map_cons]
    by_cases same : s.1 = u
    · rw [List.find?_cons_of_pos (by simpa using here.mpr same),
        List.find?_cons_of_pos (by simpa using same), Option.map_some, same]
    · rw [List.find?_cons_of_neg (by simpa using mt here.mp same),
        List.find?_cons_of_neg (by simpa using same)]
      exact ih fun t ht => plain t (List.mem_cons_of_mem _ ht)

theorem find_begins (f : PassFile) (noColon : (58 : Byte) ∉ u) :
    f.linesRead.find? (fun line => Begins u line) =
      (f.shownFor u).map fun p => u ++ text ":" ++ p := by
  have lost : ((f.last.toList.filter (·.password = [])).map Entry.user).find?
      (fun line => Begins u line) = none := by
    rw [List.find?_eq_none]
    intro line hl
    obtain ⟨e, _, rfl⟩ := List.mem_map.mp hl
    simpa using fun begins : Begins u e.user => e.noColon (colon_of_begins begins)
  rw [linesRead_eq, List.find?_append, lost, Option.or_none,
    find_shown noColon fun s hs => shown_noColon hs, PassFile.shownFor, Option.map_map]
  rfl

theorem shownFor_eq_none_iff : f.shownFor u = none ↔ ∀ s ∈ f.shown, s.1 ≠ u := by
  simp [PassFile.shownFor, List.find?_eq_none]

/-- Without a colon in the user id the password on the first line that shows it decides. -/
theorem clear_iff_shown (noColon : (58 : Byte) ∉ cutUser user) :
    Clear f user password ↔ (f.Knows user ↔ (f.shownFor (cutUser user)).isSome) ∧
      ∀ p, f.shownFor (cutUser user) = some p →
        (p = cutPassword user password ↔ f.Holds user password) := by
  have somebody : (∃ line ∈ f.linesRead, Begins (cutUser user) line) ↔
      (f.shownFor (cutUser user)).isSome := by
    rw [← Option.isSome_map, ← find_begins f noColon, List.find?_isSome]
    simp
  rw [Clear, somebody, find_begins f noColon]
  apply and_congr_right
  intro _
  simp only [Option.map_eq_some_iff, forall_exists_index, and_imp]
  constructor
  · intro each p found
    rw [← each _ p found rfl, List.append_cancel_left_eq]
  · rintro each _ p found rfl
    rw [List.append_cancel_left_eq, each p found]

end Shown

section Kinds

variable {f : PassFile} {user password : CString} {first e : Entry}

theorem known_of_pair (pair : f.Holds user password) : f.Knows user :=
  pair.imp fun _ h => ⟨h.1, h.2.1⟩

theorem noColon_of_known (known : f.Knows user) : (58 : Byte) ∉ user := by
  obtain ⟨e, _, rfl⟩ := known
  exact e.noColon

theorem noColon_cut_of_known (known : f.Knows user) : (58 : Byte) ∉ cutUser user :=
  fun colon => noColon_of_known known (List.mem_of_mem_take colon)

/-- A user of the file fits the first buffer, so that the password is not taken from behind it. -/
theorem cutPassword_of_known (known : f.Knows user) :
    cutPassword user password = password.take MAX_PASSWORD := by
  obtain ⟨e, _, rfl⟩ := known
  have short := e.short
  simp only [List.length_append] at short
  have fits : e.user.length < LINE_SIZE - 1 := by
    rw [LINE_SIZE]
    omega
  rw [cutPassword, if_pos fits]

theorem cutUser_of_short (short : user.length ≤ MAX_PASSWORD) : cutUser user = user :=
  List.take_of_length_le short

theorem known_of_first (found : f.entries.find? (·.user = user) = some first) : f.Knows user := by
  refine ⟨first, List.mem_append_left _ (List.mem_of_find?_eq_some found), ?_⟩
  simpa using List.find?_some found

theorem holds_of_first (found : f.entries.find? (·.user = user) = some first)
    (same : first.password = password) : f.Holds user password := by
  refine ⟨first, List.mem_append_left _ (List.mem_of_find?_eq_some found), ?_, same⟩
  simpa using List.find?_some found

/-- The first line of the user is shown whatever stands on the last line. -/
theorem shownFor_of_first (found : f.entries.find? (·.user = user) = some first) :
    f.shownFor user = some first.password := by
  have entries : (f.entries.map fun e => (e.user, e.password)).find? (fun s => s.1 = user) =
      some (first.user, first.password) := by
    rw [List.find?_map]
    exact congrArg (Option.map fun e : Entry => (e.user, e.password)) found
  rw [PassFile.shownFor, PassFile.shown, List.find?_append, entries]
  rfl

theorem find_eq_none (absent : ∀ d ∈ f.entries, d.user ≠ user) :
    f.entries.find? (·.user = user) = none := by
  simpa [List.find?_eq_none] using absent

/-- A user that is on no line with a newline is shown by the last one, if at all. -/
theorem shownFor_of_absent (absent : ∀ d ∈ f.entries, d.user ≠ user) :
    f.shownFor user = ((f.last.toList.filter (·.password ≠ [])).find? (·.user = user)).map
      fun e => e.password.dropLast := by
  have entries :
      (f.entries.map fun e => (e.user, e.password)).find? (fun s => s.1 = user) = none := by
    rw [List.find?_map]
    exact congrArg (Option.map fun e : Entry => (e.user, e.password)) (find_eq_none absent)
  rw [PassFile.shownFor, PassFile.shown, List.find?_append, entries, Option.none_or, List.find?_map,
    Option.map_map]
  rfl

theorem known_of_last (last : f.last = some e) (same : e.user = user) : f.Knows user :=
  ⟨e, by simp [PassFile.all, last], same⟩

theorem shownFor_of_last (absent : ∀ d ∈ f.entries, d.user ≠ user) (last : f.last = some e)
    (same : e.user = user) :
    f.shownFor user = if e.password = [] then none else some e.password.dropLast := by
  rw [shownFor_of_absent absent, last]
  by_cases empty : e.password = []
  · simp [empty]
  · simp [empty, same]

/-- With no other line of the user the pair is the one on the last line. -/
theorem holds_iff_of_last (absent : ∀ d ∈ f.entries, d.user ≠ user) (last : f.last = some e)
    (same : e.user = user) : f.Holds user password ↔ e.password = password := by
  constructor
  · rintro ⟨d, hd, isUser, isPassword⟩
    rw [PassFile.all, last, List.mem_append] at hd
    rcases hd with hd | hd
    · exact absurd isUser (absent d hd)
    · rw [Option.toList_some, List.mem_singleton] at hd
      exact hd ▸ isPassword
  · exact fun isPassword => ⟨e, by simp [PassFile.all, last], same, isPassword⟩

/-- Cutting off the last character and cutting behind `MAX_PASSWORD` differ but for one length. -/
theorem dropLast_eq_take_iff (some_byte : password ≠ []) :
    password.dropLast = password.take MAX_PASSWORD ↔ password.length = MAX_PASSWORD + 1 := by
  have positive := List.length_pos_iff.mpr some_byte
  rw [List.dropLast_eq_take, List.take_eq_take_iff]
  omega

/-- What the password on the deciding line has to be when the user is in the file. -/
theorem clear_of_shown {p : CString} (known : f.Knows user)
    (shown : f.shownFor (cutUser user) = some p)
    (right : p = password.take MAX_PASSWORD ↔ f.Holds user password) : Clear f user password := by
  rw [clear_iff_shown (noColon_cut_of_known known), shown]
  constructor
  · exact iff_of_true known rfl
  · rintro _ ⟨⟩
    rw [cutPassword_of_known known]
    exact right

theorem right_of_clear {p : CString} (known : f.Knows user)
    (shown : f.shownFor (cutUser user) = some p) (clear : Clear f user password) :
    p = password.take MAX_PASSWORD ↔ f.Holds user password := by
  rw [clear_iff_shown (noColon_cut_of_known known)] at clear
  rw [← cutPassword_of_known known]
  exact clear.2 p shown

theorem clear_of_unknown (noColon : (58 : Byte) ∉ cutUser user) (unknown : ¬ f.Knows user)
    (unshown : f.shownFor (cutUser user) = none) : Clear f user password := by
  rw [clear_iff_shown noColon, unshown]
  constructor
  · exact iff_of_false unknown Bool.false_ne_true
  · rintro _ ⟨⟩

theorem shown_of_clear (known : f.Knows user) (clear : Clear f user password) :
    f.shownFor (cutUser user) ≠ none := by
  rw [clear_iff_shown (noColon_cut_of_known known)] at clear
  exact Option.isSome_iff_ne_none.mp (clear.1.mp known)

theorem not_clear_of_failing (failing : Failing f user password) : ¬ Clear f user password := by
  intro clear
  cases failing with
  | colon colon begins => exact noColon_cut_of_known (clear.1.mpr begins) colon
  | cutUserMissed _ known nobody =>
    exact shown_of_clear known clear (shownFor_eq_none_iff.mpr nobody)
  | cutUserTaken _ unknown shown =>
    obtain ⟨s, hs, same⟩ := shown
    rw [clear_iff_shown (same ▸ shown_noColon hs)] at clear
    apply unknown
    apply clear.1.mpr
    rw [Option.isSome_iff_ne_none]
    exact fun nobody => shownFor_eq_none_iff.mp nobody s hs same
  | cutUserAccepts _ known wrong shown =>
    exact wrong ((right_of_clear known shown clear).mp rfl)
  | cutUserRefuses _ _ pair shown other =>
    exact other ((right_of_clear (known_of_pair pair) shown clear).mpr pair)
  | cutPasswordAccepted first short _ found same wrong =>
    rw [← cutUser_of_short short] at found
    have shown := shownFor_of_first found
    rw [cutUser_of_short short] at found
    exact wrong ((right_of_clear (known_of_first found) shown clear).mp same)
  | cutPasswordRefused first short _ found other pair =>
    rw [← cutUser_of_short short] at found
    exact other ((right_of_clear (known_of_pair pair) (shownFor_of_first found) clear).mpr pair)
  | laterLine first short short' found other pair =>
    rw [← cutUser_of_short short] at found
    have same := (right_of_clear (known_of_pair pair) (shownFor_of_first found) clear).mpr pair
    exact other (same.trans (List.take_of_length_le short'))
  | colonLost e short absent last same empty =>
    have shown := shownFor_of_last absent last same
    rw [if_pos empty, ← cutUser_of_short short] at shown
    exact shown_of_clear (known_of_last last same) clear shown
  | endRefused e short absent last same isPassword some_byte other =>
    have shown := shownFor_of_last absent last same
    have pair := (holds_iff_of_last absent last same).mpr isPassword
    rw [isPassword, if_neg some_byte, ← cutUser_of_short short] at shown
    have cut := (right_of_clear (known_of_pair pair) shown clear).mpr pair
    exact other ((dropLast_eq_take_iff some_byte).mp cut)
  | endAccepted e short absent last same some_byte wrong cut =>
    have shown := shownFor_of_last absent last same
    rw [if_neg some_byte, ← cutUser_of_short short] at shown
    have pair := (right_of_clear (known_of_last last same) shown clear).mp cut
    exact wrong ((holds_iff_of_last absent last same).mp pair)

/-- A user id that is cut is judged by the lines of the user it is cut to. -/
theorem clear_of_cut (noColon : (58 : Byte) ∉ cutUser user) (long : MAX_PASSWORD < user.length)
    (fine : ¬ Failing f user password) : Clear f user password := by
  cases shown : f.shownFor (cutUser user) with
  | none =>
    apply clear_of_unknown noColon _ shown
    exact fun known => fine (.cutUserMissed long known (shownFor_eq_none_iff.mp shown))
  | some p =>
    have somebody : ∃ s ∈ f.shown, s.1 = cutUser user := by
      by_contra nobody
      push Not at nobody
      rw [shownFor_eq_none_iff.mpr nobody] at shown
      cases shown
    have known : f.Knows user := by
      by_contra unknown
      exact fine (.cutUserTaken long unknown somebody)
    apply clear_of_shown known shown
    constructor
    · rintro rfl
      by_contra wrong
      exact fine (.cutUserAccepts long known wrong shown)
    · intro pair
      by_contra other
      exact fine (.cutUserRefuses p long pair shown other)

/-- The first of the lines of the user decides. -/
theorem clear_of_first (short : user.length ≤ MAX_PASSWORD)
    (found : f.entries.find? (·.user = user) = some first) (fine : ¬ Failing f user password) :
    Clear f user password := by
  have shown := shownFor_of_first found
  rw [← cutUser_of_short short] at shown
  apply clear_of_shown (known_of_first found) shown
  by_cases short' : password.length ≤ MAX_PASSWORD
  · rw [List.take_of_length_le short']
    constructor
    · exact holds_of_first found
    · intro pair
      by_contra other
      exact fine (.laterLine first short short' found other pair)
  · have long := Nat.not_le.mp short'
    constructor
    · intro same
      by_contra wrong
      exact fine (.cutPasswordAccepted first short long found same wrong)
    · intro pair
      by_contra other
      exact fine (.cutPasswordRefused first short long found other pair)

/-- Without such a line the last line decides, with what it has lost. -/
theorem clear_of_absent (short : user.length ≤ MAX_PASSWORD) (noColon : (58 : Byte) ∉ cutUser user)
    (absent : ∀ d ∈ f.entries, d.user ≠ user) (fine : ¬ Failing f user password) :
    Clear f user password := by
  by_cases ends : ∃ e, f.last = some e ∧ e.user = user
  · obtain ⟨e, last, same⟩ := ends
    have shown := shownFor_of_last absent last same
    have some_byte : e.password ≠ [] :=
      fun empty => fine (.colonLost e short absent last same empty)
    rw [if_neg some_byte, ← cutUser_of_short short] at shown
    apply clear_of_shown (known_of_last last same) shown
    rw [holds_iff_of_last absent last same]
    constructor
    · intro cut
      by_contra wrong
      exact fine (.endAccepted e short absent last same some_byte wrong cut)
    · rintro rfl
      rw [dropLast_eq_take_iff some_byte]
      by_contra other
      exact fine (.endRefused e short absent last same rfl some_byte other)
  · apply clear_of_unknown noColon
    · rintro ⟨d, hd, same⟩
      rw [PassFile.all, List.mem_append, Option.mem_toList] at hd
      rcases hd with hd | hd
      · exact absent d hd same
      · exact ends ⟨d, hd, same⟩
    · rw [cutUser_of_short short, shownFor_of_absent absent, Option.map_eq_none_iff,
        List.find?_eq_none]
      intro e he
      rw [List.mem_filter, Option.mem_toList] at he
      simpa using fun same : e.user = user => ends ⟨e, he.1, same⟩

/-- The line that decides is the right one exactly when none of the failing kinds is there. -/
theorem clear_iff_not_failing : Clear f user password ↔ ¬ Failing f user password := by
  constructor
  · exact fun clear failing => not_clear_of_failing failing clear
  · intro fine
    by_cases colon : (58 : Byte) ∈ cutUser user
    · have nobody : ¬ ∃ line ∈ f.linesRead, Begins (cutUser user) line :=
        fun begins => fine (.colon colon begins)
      refine ⟨iff_of_false (fun known => noColon_cut_of_known known colon) nobody, ?_⟩
      rw [find_begins_eq_none.mpr nobody]
      rintro _ ⟨⟩
    · by_cases short : user.length ≤ MAX_PASSWORD
      · cases found : f.entries.find? (·.user = user) with
        | none =>
          apply clear_of_absent short colon _ fine
          simpa [List.find?_eq_none] using found
        | some first => exact clear_of_first short found fine
      · exact clear_of_cut colon (Nat.not_le.mp short) fine

end Kinds

section Results

variable {f : PassFile} {u p user password stdin : List Byte}

theorem Entry.text_ne_nil (e : Entry) : e.text ≠ [] := by simp [Entry.text, CStrings.text]

theorem Entry.clean_text (e : Entry) : NUL ∉ e.text ∧ LF ∉ e.text := by
  have colon : NUL ∉ CStrings.text ":" ∧ LF ∉ CStrings.text ":" := by decide
  have user : ∀ b ∈ e.user, b ≠ NUL ∧ b ≠ LF := fun b hb => e.plain b (List.mem_append_left _ hb)
  have password : ∀ b ∈ e.password, b ≠ NUL ∧ b ≠ LF :=
    fun b hb => e.plain b (List.mem_append_right _ hb)
  simp only [Entry.text, List.mem_append, not_or]
  exact ⟨⟨⟨fun h => (user _ h).1 rfl, colon.1⟩, fun h => (password _ h).1 rfl⟩,
    ⟨fun h => (user _ h).2 rfl, colon.2⟩, fun h => (password _ h).2 rfl⟩

theorem lines_bytes (f : PassFile) :
    lines (MAXLINE - 1) f.bytes = f.entries.map (fun e => e.text ++ [LF]) ++
      f.last.toList.map Entry.text := by
  have noNewline : ∀ l ∈ f.entries.map Entry.text, LF ∉ l := by
    intro l hl
    obtain ⟨e, _, rfl⟩ := List.mem_map.mp hl
    exact e.clean_text.2
  have fits : ∀ l ∈ f.entries.map Entry.text, l.length + 1 < MAXLINE - 1 := by
    intro l hl
    obtain ⟨e, _, rfl⟩ := List.mem_map.mp hl
    exact Nat.succ_lt_succ e.short
  have bytes : f.bytes = (f.entries.map Entry.text).flatMap (· ++ [LF]) ++
    f.last.toList.flatMap Entry.text := by
    rw [PassFile.bytes, List.flatMap_map]
  rw [bytes]
  cases h : f.last with
  | none =>
    have read :=
      lines_of_text noNewline fits (show LF ∉ [] by simp) (show [].length < MAXLINE - 1 by decide)
    simpa [Function.comp_def] using read
  | some e =>
    have read := lines_of_text noNewline fits e.clean_text.2 (e.short.trans (by decide))
    simpa [e.text_ne_nil, Function.comp_def] using read

theorem chop_lines (f : PassFile) :
    List.Forall₂ (fun c l => chop c = some l) (lines (MAXLINE - 1) f.bytes) f.linesRead := by
  rw [lines_bytes, PassFile.linesRead]
  apply List.rel_append
  · rw [List.forall₂_map_left_iff, List.forall₂_map_right_iff, List.forall₂_same]
    exact fun e _ => chop_newline e.clean_text.1
  · rw [List.forall₂_map_left_iff, List.forall₂_map_right_iff, List.forall₂_same]
    exact fun e _ => chop_of_clean e.clean_text.1 e.text_ne_nil

theorem length_cutUser (user : CString) : (cutUser user).length ≤ MAX_PASSWORD :=
  List.length_take_le _ _

theorem length_cutPassword (user password : CString) :
    (cutPassword user password).length ≤ MAX_PASSWORD :=
  List.length_take_le _ _

/-- The exit status for two chunks with these strings. -/
theorem validate_eq {first second : List Byte} (f : PassFile) (more : List Byte)
    (size : first.length = MAX_PASSWORD)
    (size' : second.length = MAX_PASSWORD) (isUser : chunkString first = u)
    (isPassword : chunkString second = p)
    (short : u.length ≤ MAX_PASSWORD) (short' : p.length ≤ MAX_PASSWORD) :
    validate (first ++ second ++ more) f.bytes =
      match f.linesRead.find? fun line => Begins u line with
      | none => .ok 3
      | some line => .ok (if line = u ++ text ":" ++ p then 0 else 2) := by
  have ten : MAX_PASSWORD = 10 := rfl
  have big : MAXLINE = 32 := rfl
  have one : (text ":").length = 1 := rfl
  have user : (first ++ second ++ more).take MAX_PASSWORD = first := by
    rw [List.append_assoc, List.take_left' size]
  have password : ((first ++ second ++ more).drop MAX_PASSWORD).take MAX_PASSWORD = second := by
    rw [List.append_assoc, List.drop_left' size, List.take_left' size']
  have colon : (text ":").take (MAXLINE - u.length - 1) = text ":" :=
    List.take_of_length_le (by omega)
  have whole : p.take (MAXLINE - (u ++ text ":").length - 1) = p := by
    apply List.take_of_length_le
    rw [List.length_append]
    omega
  have some_byte : ¬ (first = [] ∨ second = []) := by
    rw [← List.length_eq_zero_iff, ← List.length_eq_zero_iff]
    omega
  simp only [validate, user, password, if_neg some_byte, check, isUser, isPassword, colon, whole]
  exact checkLines_eq u p (chop_lines f)

theorem tells_found : Tells f user password 0 ↔ f.Holds user password := by
  constructor
  · exact fun tells => tells.1.mp rfl
  · intro pair
    exact ⟨iff_of_true rfl pair, iff_of_false (by decide) fun only => only.2 pair,
      iff_of_false (by decide) (not_not.mpr (known_of_pair pair))⟩

theorem tells_wrong : Tells f user password 2 ↔ f.Knows user ∧ ¬ f.Holds user password := by
  constructor
  · exact fun tells => tells.2.1.mp rfl
  · intro only
    exact ⟨iff_of_false (by decide) only.2, iff_of_true rfl only,
      iff_of_false (by decide) (not_not.mpr only.1)⟩

theorem tells_unknown : Tells f user password 3 ↔ ¬ f.Knows user := by
  constructor
  · exact fun tells => tells.2.2.mp rfl
  · intro absent
    exact ⟨iff_of_false (by decide) (mt known_of_pair absent),
      iff_of_false (by decide) fun only => absent only.1, iff_of_true rfl absent⟩

/-- The exit status tells what it should exactly when the line that decides is the right one. -/
theorem tells_iff (f : PassFile) (user password : CString) {status : Nat}
    (decided : (match f.linesRead.find? fun line => Begins (cutUser user) line with
      | none => .ok 3
      | some line =>
          .ok (if line = cutUser user ++ text ":" ++ cutPassword user password then 0 else 2)) =
        (.ok status : Except Halt Nat)) :
    Tells f user password status ↔ Clear f user password := by
  rw [Clear]
  cases first : f.linesRead.find? fun line => Begins (cutUser user) line with
  | none =>
    rw [first] at decided
    obtain rfl : 3 = status := Except.ok.inj decided
    have nobody := find_begins_eq_none.mp first
    rw [tells_unknown, iff_false_right nobody]
    exact ⟨fun absent => ⟨absent, fun line h => by cases h⟩, And.left⟩
  | some line =>
    rw [first] at decided
    change (Except.ok (if line = _ then 0 else 2) : Except Halt Nat) = _ at decided
    have somebody : ∃ line ∈ f.linesRead, Begins (cutUser user) line :=
      ⟨line, List.mem_of_find?_eq_some first, by simpa using List.find?_some first⟩
    rw [iff_true_right somebody]
    by_cases same : line = cutUser user ++ text ":" ++ cutPassword user password
    · rw [if_pos same] at decided
      obtain rfl := Except.ok.inj decided
      rw [tells_found]
      constructor
      · rintro pair
        refine ⟨known_of_pair pair, ?_⟩
        rintro _ ⟨⟩
        exact iff_of_true same pair
      · exact fun clear => (clear.2 line rfl).mp same
    · rw [if_neg same] at decided
      obtain rfl := Except.ok.inj decided
      rw [tells_wrong]
      constructor
      · rintro ⟨has, wrong⟩
        refine ⟨has, ?_⟩
        rintro _ ⟨⟩
        exact iff_of_false same wrong
      · exact fun clear => ⟨clear.1, mt (clear.2 line rfl).mpr same⟩

/-- The exit status for the user id and the password that are entered. -/
theorem status_iff (fillUser fillPassword : Nat → Byte) (f : PassFile)
    (user password stdin : List Byte) (typed : Typed user password stdin) :
    (∃ pipe status, checkpasswd fillUser fillPassword stdin = some pipe ∧
      validate pipe f.bytes = .ok status ∧
        Tells f user password status) ↔
      ¬ Failing f user password := by
  rw [← clear_iff_not_failing]
  obtain ⟨first, second, more, written, size, size', isUser, isPassword⟩ :=
    checkpasswd_eq fillUser fillPassword typed
  have decided := validate_eq f more size size' isUser isPassword (length_cutUser user)
    (length_cutPassword user password)
  obtain ⟨status, run⟩ : ∃ status, validate (first ++ second ++ more) f.bytes = .ok status := by
    rw [decided]
    split <;> exact ⟨_, rfl⟩
  have tells := tells_iff f user password (decided.symm.trans run)
  constructor
  · rintro ⟨pipe, status', written', run', tells'⟩
    obtain rfl := Option.some.inj (written.symm.trans written')
    obtain rfl := Except.ok.inj (run.symm.trans run')
    exact tells.mp tells'
  · exact fun clear => ⟨_, status, written, run, tells.mpr clear⟩

def monkeys : Entry := ⟨text "monkeys", text "eatcoconuts", by decide +kernel, by decide, by decide⟩

def fish : Entry := ⟨text "fish", text "swim", by decide +kernel, by decide, by decide⟩

theorem typed_lines {user password : CString} (clean : NUL ∉ user ++ LF :: (password ++ [LF]))
    (oneLine : LF ∉ user)
    (oneLine' : LF ∉ password) : Typed user password (user ++ LF :: (password ++ [LF])) :=
  ⟨clean, oneLine, oneLine', password ++ [LF], rfl, .inl ⟨[], rfl⟩⟩

theorem status_iff_fish :
    let stdin := text "fish" ++ LF :: (text "swim" ++ [LF])
    (∃ pipe status, checkpasswd (fun _ => 7) (fun _ => 7) stdin = some pipe ∧
        validate pipe (PassFile.bytes ⟨[fish, monkeys], none⟩) = .ok status ∧
        Tells ⟨[fish, monkeys], none⟩ (text "fish") (text "swim") status) ↔
      ¬ Failing ⟨[fish, monkeys], none⟩ (text "fish") (text "swim") :=
  status_iff _ _ _ _ _ _ (typed_lines (by decide) (by decide) (by decide))

/-- A line of the password file that comes with the program: its password is longer than a chunk,
so that the right one is refused. -/
theorem long_password_refused :
    ¬ ∀ (fillUser fillPassword : Nat → Byte) (f : PassFile) (user password stdin : List Byte),
      Typed user password stdin →
        ∃ pipe status, checkpasswd fillUser fillPassword stdin = some pipe ∧
          validate pipe f.bytes = .ok status ∧
          Tells f user password status := by
  intro always
  obtain ⟨pipe, status, written, run, tells⟩ :=
    always (fun _ => 7) (fun _ => 7) ⟨[monkeys], none⟩ (text "monkeys")
    (text "eatcoconuts") _ (typed_lines (by decide) (by decide) (by decide))
  have refused : (checkpasswd (fun _ => 7) (fun _ => 7)
      (text "monkeys" ++ LF :: (text "eatcoconuts" ++ [LF]))).map (fun pipe =>
        validate pipe (PassFile.bytes ⟨[monkeys], none⟩)) = some (.ok 2) := by decide +kernel
  rw [written, Option.map_some, run] at refused
  obtain rfl : status = 2 := by simpa using refused
  exact (tells.2.1.mp rfl).2 ⟨monkeys, by decide, rfl, rfl⟩

end Results

section Ordinary

variable {f : PassFile} {user password : CString}

/-- With ids and passwords that fit a chunk, distinct users and a newline on every line the exit
status is right. -/
theorem not_failing_of_distinct (short : user.length ≤ MAX_PASSWORD)
    (short' : password.length ≤ MAX_PASSWORD) (noColon : (58 : Byte) ∉ user)
    (ended : f.last = none) (distinct : (f.entries.map Entry.user).Nodup) :
    ¬ Failing f user password := by
  have all : f.all = f.entries := by simp [PassFile.all, ended]
  intro failing
  cases failing with
  | colon colon _ => exact noColon (List.mem_of_mem_take colon)
  | cutUserMissed long => exact absurd short (Nat.not_le.mpr long)
  | cutUserTaken long => exact absurd short (Nat.not_le.mpr long)
  | cutUserAccepts long => exact absurd short (Nat.not_le.mpr long)
  | cutUserRefuses _ long => exact absurd short (Nat.not_le.mpr long)
  | cutPasswordAccepted _ _ long => exact absurd short' (Nat.not_le.mpr long)
  | cutPasswordRefused _ _ long => exact absurd short' (Nat.not_le.mpr long)
  | laterLine first _ _ found other pair =>
    obtain ⟨e, he, isUser, isPassword⟩ := pair
    rw [all] at he
    have firstUser : first.user = user := by simpa using List.find?_some found
    have same := List.inj_on_of_nodup_map distinct (List.mem_of_find?_eq_some found) he
      (firstUser.trans isUser.symm)
    exact other (same ▸ isPassword)
  | colonLost e _ _ last => simp [ended] at last
  | endRefused e _ _ last => simp [ended] at last
  | endAccepted e _ _ last => simp [ended] at last

end Ordinary

end Validate
