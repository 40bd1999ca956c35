import CSC209.HaltingRuns
import CSC209.Lab8.Validate

/-!
# The two processes of a password check

`checkpasswd` puts the two chunks into a pipe before it forks. The child makes
the pipe its standard input and becomes `validate`, if that can be executed;
otherwise it returns 0. The parent writes the user id and the password once
more, which nobody reads, and waits. A write to a pipe that has no reader left
kills the parent. The processes take their steps in any order.
-/

namespace PasswordChecks

open CStrings StreamIO HaltingRuns Validate

def SUCCESS : CString := text "Password verified\n"
def INVALID : CString := text "Invalid password\n"
def NO_USER : CString := text "No such user\n"

/-- How many bytes a pipe holds, whether `./validate` can be executed, and the password file, if it
can be opened. -/
structure Host where
  room : Nat
  found : Bool
  file : Option (List Byte)
  deriving DecidableEq, Repr

/-- What the parent does next. -/
inductive Parent where
  | closesRead
  | writesUser
  | writesPassword
  | closesWrite
  | waits
  | exited
  | killed
  deriving DecidableEq, Repr

/-- What the child does next. `closesRead` and `returns` are behind an `execl` that has failed. -/
inductive Child where
  | closesWrite
  | execs
  | readsUser
  | readsPassword (userid : List Byte)
  | checks (userid password : List Byte)
  | closesRead
  | returns
  | exited (status : Nat)
  deriving DecidableEq, Repr

structure State where
  pipe : List Byte
  parent : Parent
  child : Child
  screen : List CString
  deriving DecidableEq, Repr

inductive Turn where
  | parent
  | child
  deriving DecidableEq, Repr

/-- A process that has to wait, or is no more; `validate` leaves its memory. -/
inductive Stop where
  | blocked
  | undefined
  deriving DecidableEq, Repr

section Program

/-- What stands in the two buffers when the pipe is made. -/
def readUser (fillUser fillPassword : Nat → Byte) (stdin : List Byte) :
    Option (List Byte × List Byte) := do
  let (userId, rest) ← fgets LINE_SIZE stdin
  let (password, _) ← fgets LINE_SIZE rest
  return (buffer fillUser userId, buffer fillPassword password)

/-- The two processes behind the fork. -/
def forked (userId password : List Byte) : State where
  pipe := userId.take MAX_PASSWORD ++ password.take MAX_PASSWORD
  parent := .closesRead
  child := .closesWrite
  screen := []

def message (status : Nat) : List CString :=
  if status = 0 then [SUCCESS]
  else if status = 2 then [INVALID]
  else if status = 3 then [NO_USER]
  else []

variable (host : Host) (userId password : List Byte)

/-- The standard input of the child is the read end up to its exit. -/
def Child.reader : Child → Bool
  | .exited _ => false
  | _ => true

def Parent.writer : Parent → Bool
  | .waits => false
  | .exited => false
  | .killed => false
  | _ => true

namespace State

variable (s : State)

def write (bytes : List Byte) (next : Parent) : Except Stop State :=
  if s.child.reader = false then .ok { s with parent := .killed }
  else if s.pipe.length + bytes.length ≤ host.room then
    .ok { s with pipe := s.pipe ++ bytes, parent := next }
  else .error .blocked

/-- A read of one chunk. At the end of the pipe it returns 0, and `validate` exits. -/
def read (next : List Byte → Child) : Except Stop State :=
  if s.pipe = [] then
    if s.parent.writer then .error .blocked else .ok { s with child := .exited 1 }
  else .ok { s with pipe := s.pipe.drop MAX_PASSWORD, child := next (s.pipe.take MAX_PASSWORD) }

def parentStep : Except Stop State :=
  match s.parent with
  | .closesRead => .ok { s with parent := .writesUser }
  | .writesUser => s.write host (userId.take 32) .writesPassword
  | .writesPassword => s.write host (password.take MAX_PASSWORD) .closesWrite
  | .closesWrite => .ok { s with parent := .waits }
  | .waits =>
    match s.child with
    | .exited status => .ok { s with parent := .exited, screen := s.screen ++ message status }
    | _ => .error .blocked
  | .exited => .error .blocked
  | .killed => .error .blocked

def childStep : Except Stop State :=
  match s.child with
  | .closesWrite => .ok { s with child := .execs }
  | .execs => .ok { s with child := if host.found then .readsUser else .closesRead }
  | .readsUser => s.read .readsPassword
  | .readsPassword userid => s.read (.checks userid)
  | .checks userid password =>
    match check userid password host.file with
    | .ok status => .ok { s with child := .exited status }
    | .error _ => .error .undefined
  | .closesRead => .ok { s with child := .returns }
  | .returns => .ok { s with child := .exited 0 }
  | .exited _ => .error .blocked

def step : Turn → Except Stop State
  | .parent => s.parentStep host userId password
  | .child => s.childStep host

end State

/-- Neither process can move. -/
def Stuck (s : State) : Prop := ∀ turn t, s.step host userId password turn ≠ .ok t

/-- What a check of the two chunks is to come to. -/
def Host.answer : Except Halt Nat :=
  if host.found then
    match host.file with
    | none => .ok 1
    | some file => validate (userId.take MAX_PASSWORD ++ password.take MAX_PASSWORD) file
  else .ok 0

end Program

section Checks

variable {host : Host} {first second more file : List Byte} {status : Nat} {s t : State}
  {turn : Turn} {userId password : List Byte}

/-- What the child has read, and what it is about to read. -/
def Reads (host : Host) (first second : List Byte) (status : Nat) (pipe : List Byte) : Child → Prop
  | .closesWrite => ∃ more, pipe = first ++ (second ++ more)
  | .execs => ∃ more, pipe = first ++ (second ++ more)
  | .readsUser => host.found = true ∧ ∃ more, pipe = first ++ (second ++ more)
  | .readsPassword userid => host.found = true ∧ userid = first ∧ ∃ more, pipe = second ++ more
  | .checks userid password => host.found = true ∧ userid = first ∧ password = second
  | .closesRead => host.found = false
  | .returns => host.found = false
  | .exited n => n = status

/-- Whatever else is written, the child reads the two chunks that were in the pipe before the
fork. -/
structure Inv (host : Host) (first second : List Byte) (status : Nat) (s : State) : Prop where
  child : Reads host first second status s.pipe s.child
  screen : s.screen = if s.parent = .exited then message status else []
  waited : s.parent = .exited → s.child = .exited status

theorem check_eq (size : first.length = MAX_PASSWORD) (size' : second.length = MAX_PASSWORD)
    (file : List Byte) :
    validate (first ++ second) file = check first second (some file) := by
  have user : (first ++ second).take MAX_PASSWORD = first := List.take_left' size
  have password : ((first ++ second).drop MAX_PASSWORD).take MAX_PASSWORD = second := by
    rw [List.drop_left' size, List.take_of_length_le size'.le]
  have some_byte : ¬ (first = [] ∨ second = []) := by
    rw [← List.length_eq_zero_iff, ← List.length_eq_zero_iff, size, size']
    decide
  simp only [validate, user, password, if_neg some_byte, check]

/-- A write behind what is to be read does not change it. -/
theorem Reads.append {pipe : List Byte} {child : Child}
    (h : Reads host first second status pipe child) (bytes : List Byte) :
    Reads host first second status (pipe ++ bytes) child := by
  cases child with
  | closesWrite | execs =>
    obtain ⟨more, rfl⟩ := h
    exact ⟨more ++ bytes, by simp⟩
  | readsUser =>
    obtain ⟨found, more, rfl⟩ := h
    exact ⟨found, more ++ bytes, by simp⟩
  | readsPassword userid =>
    obtain ⟨found, same, more, rfl⟩ := h
    exact ⟨found, same, more ++ bytes, by simp⟩
  | checks _ _ | closesRead | returns | exited _ => exact h

/-- How many steps a process may still take. -/
def Parent.left : Parent → Nat
  | .closesRead => 5
  | .writesUser => 4
  | .writesPassword => 3
  | .closesWrite => 2
  | .waits => 1
  | .exited => 0
  | .killed => 0

def Child.left : Child → Nat
  | .closesWrite => 5
  | .execs => 4
  | .readsUser => 3
  | .readsPassword _ => 2
  | .checks _ _ => 1
  | .closesRead => 2
  | .returns => 1
  | .exited _ => 0

def State.left (s : State) : Nat := s.parent.left + s.child.left

/-- What a write can do. -/
theorem write_cases {bytes : List Byte} {next : Parent} (h : s.write host bytes next = .ok t) :
    (s.child.reader = false ∧ t = { s with parent := .killed }) ∨
      t = { s with pipe := s.pipe ++ bytes, parent := next } := by
  rw [State.write] at h
  split at h
  · rename_i gone
    exact .inl ⟨gone, (Except.ok.inj h).symm⟩
  · split at h
    · exact .inr (Except.ok.inj h).symm
    · cases h

theorem write_room {bytes : List Byte} {next : Parent} (reader : s.child.reader = true)
    (fits : s.pipe.length + bytes.length ≤ host.room) :
    s.write host bytes next = .ok { s with pipe := s.pipe ++ bytes, parent := next } := by
  rw [State.write, if_neg (by simp [reader]), if_pos fits]

/-- What the parent can do: nothing to the child, to the pipe no more than to add to it, and
always with fewer steps left. -/
theorem parentStep_cases (h : s.parentStep host userId password = .ok t) :
    (s.parent = .waits ∧ ∃ n, s.child = .exited n ∧
        t = { s with parent := .exited, screen := s.screen ++ message n }) ∨
      (s.parent ≠ .exited ∧ ∃ bytes next, next ≠ .exited ∧ next.left < s.parent.left ∧
        t = { s with pipe := s.pipe ++ bytes, parent := next }) := by
  rw [State.parentStep] at h
  have written {bytes : List Byte} {next : Parent} (ne : next ≠ .exited)
    (lower : next.left < s.parent.left) (h : s.write host bytes next = .ok t) :
      ∃ bytes next, next ≠ .exited ∧ next.left < s.parent.left ∧
        t = { s with pipe := s.pipe ++ bytes, parent := next } := by
    obtain ⟨_, rfl⟩ | rfl := write_cases h
    · exact ⟨[], .killed, by decide, Nat.zero_lt_of_lt lower, by simp⟩
    · exact ⟨bytes, next, ne, lower, rfl⟩
  cases now : s.parent with
  | closesRead =>
    rw [now] at h
    obtain rfl := Except.ok.inj h
    exact .inr ⟨by decide, [], .writesUser, by decide, by decide, by simp⟩
  | closesWrite =>
    rw [now] at h
    obtain rfl := Except.ok.inj h
    exact .inr ⟨by decide, [], .waits, by decide, by decide, by simp⟩
  | writesUser | writesPassword =>
    rw [now] at h
    exact .inr ⟨by decide, now ▸ written (by decide) (by rw [now]; decide) h⟩
  | waits =>
    rw [now] at h
    cases child : s.child with
    | exited n =>
      rw [child] at h
      exact .inl ⟨rfl, n, rfl, (Except.ok.inj h).symm⟩
    | _ =>
      rw [child] at h
      cases h
  | exited | killed =>
    rw [now] at h
    cases h

theorem Inv.parent (inv : Inv host first second status s)
    (h : s.parentStep host userId password = .ok t) :
    Inv host first second status t := by
  obtain ⟨waits, n, child, rfl⟩ | ⟨going, bytes, next, ne, _, rfl⟩ := parentStep_cases h
  · have reads := inv.child
    rw [child] at reads
    obtain rfl : n = status := reads
    refine ⟨inv.child, ?_, fun _ => child⟩
    have blank := inv.screen
    rw [waits] at blank
    simpa using blank
  · refine ⟨inv.child.append bytes, ?_, fun exited => absurd exited ne⟩
    have blank := inv.screen
    rw [if_neg going] at blank
    rw [if_neg ne]
    exact blank

/-- A read takes a whole chunk where one is ahead. -/
theorem read_eq {chunk : List Byte} {next : List Byte → Child} (size : chunk.length = MAX_PASSWORD)
    (ahead : s.pipe = chunk ++ more) :
    s.read next = .ok { s with pipe := more, child := next chunk } := by
  have some_byte : s.pipe ≠ [] := by
    rintro empty
    rw [ahead, List.append_eq_nil_iff] at empty
    rw [empty.1] at size
    cases size
  rw [State.read, if_neg some_byte, ahead, List.drop_left' size, List.take_left' size]

/-- As long as it has not exited, the child can move, and it reads what it is to read. -/
theorem Inv.child_moves (inv : Inv host first second status s) (size : first.length = MAX_PASSWORD)
    (size' : second.length = MAX_PASSWORD)
    (answer : host.found = true → check first second host.file = .ok status)
    (unfound : host.found = false → status = 0) :
    s.child = .exited status ∨ ∃ t, s.childStep host = .ok t ∧ Inv host first second status t := by
  have reads := inv.child
  have waits (live : s.child ≠ .exited status) : s.parent ≠ .exited :=
    fun exited => live (inv.waited exited)
  have keeps {pipe : List Byte} {child : Child} (live : s.child ≠ .exited status)
      (reads : Reads host first second status pipe child) :
      Inv host first second status { s with pipe := pipe, child := child } :=
    ⟨reads, inv.screen, fun exited => absurd exited (waits live)⟩
  rw [State.childStep]
  cases now : s.child with
  | exited n =>
    rw [now] at reads
    exact .inl (congrArg Child.exited reads)
  | closesWrite =>
    rw [now] at reads
    exact .inr ⟨_, rfl, keeps (by simp [now]) reads⟩
  | execs =>
    rw [now] at reads
    refine .inr ⟨_, rfl, keeps (by simp [now]) ?_⟩
    cases found : host.found with
    | true => exact ⟨found, reads⟩
    | false => exact found
  | readsUser =>
    rw [now] at reads
    obtain ⟨found, more, ahead⟩ := reads
    exact .inr ⟨_, read_eq size ahead, keeps (by simp [now]) ⟨found, rfl, more, rfl⟩⟩
  | readsPassword userid =>
    rw [now] at reads
    obtain ⟨found, rfl, more, ahead⟩ := reads
    exact .inr ⟨_, read_eq size' ahead, keeps (by simp [now]) ⟨found, rfl, rfl⟩⟩
  | checks userid password =>
    rw [now] at reads
    obtain ⟨found, rfl, rfl⟩ := reads
    refine .inr ⟨{ s with child := .exited status }, ?_, keeps (by simp [now]) rfl⟩
    simp only [answer found]
  | closesRead =>
    rw [now] at reads
    exact .inr ⟨_, rfl, keeps (by simp [now]) reads⟩
  | returns =>
    rw [now] at reads
    exact .inr ⟨_, rfl, keeps (by simp [now]) (unfound reads).symm⟩

/-- Once the child has exited the parent can move, up to its own end. -/
theorem parent_moves (host : Host) (userId password : List Byte) {n : Nat}
    (gone : s.child = .exited n) :
    s.parent = .exited ∨ s.parent = .killed ∨ ∃ t, s.parentStep host userId password = .ok t := by
  have reader : s.child.reader = false := by rw [gone, Child.reader]
  rw [State.parentStep]
  cases now : s.parent with
  | exited => exact .inl rfl
  | killed => exact .inr (.inl rfl)
  | closesRead | closesWrite => exact .inr (.inr ⟨_, rfl⟩)
  | writesUser | writesPassword => exact .inr (.inr ⟨_, if_pos reader⟩)
  | waits =>
    refine .inr (.inr ⟨{ s with parent := .exited, screen := s.screen ++ message n }, ?_⟩)
    simp only [gone]

theorem read_left {next : List Byte → Child} {n : Nat} (most : ∀ chunk, (next chunk).left ≤ n)
    (h : s.read next = .ok t) : t.parent = s.parent ∧ t.child.left ≤ n := by
  rw [State.read] at h
  split at h
  · split at h
    · cases h
    · obtain rfl := Except.ok.inj h
      exact ⟨rfl, Nat.zero_le n⟩
  · obtain rfl := Except.ok.inj h
    exact ⟨rfl, most _⟩

theorem parentStep_lowers (h : s.parentStep host userId password = .ok t) :
    t.child = s.child ∧ t.parent.left < s.parent.left := by
  obtain ⟨waits, n, child, rfl⟩ | ⟨_, bytes, next, _, lower, rfl⟩ := parentStep_cases h
  · exact ⟨rfl, waits ▸ Nat.zero_lt_one⟩
  · exact ⟨rfl, lower⟩

theorem childStep_lowers (h : s.childStep host = .ok t) :
    t.parent = s.parent ∧ t.child.left < s.child.left := by
  rw [State.childStep] at h
  cases now : s.child with
  | closesWrite | closesRead | returns =>
    rw [now] at h
    obtain rfl := Except.ok.inj h
    exact ⟨rfl, by simp [Child.left]⟩
  | execs =>
    rw [now] at h
    obtain rfl := Except.ok.inj h
    refine ⟨rfl, ?_⟩
    cases host.found <;> simp [Child.left]
  | readsUser =>
    rw [now] at h
    have left := read_left (fun _ => le_rfl) h
    exact ⟨left.1, left.2.trans_lt (by simp [Child.left])⟩
  | readsPassword userid =>
    rw [now] at h
    have left := read_left (fun _ => le_rfl) h
    exact ⟨left.1, left.2.trans_lt (by simp [Child.left])⟩
  | checks userid password =>
    rw [now] at h
    simp only at h
    split at h
    · obtain rfl := Except.ok.inj h
      exact ⟨rfl, by simp [Child.left]⟩
    · cases h
  | exited n =>
    rw [now] at h
    cases h

theorem step_lowers (h : s.step host userId password turn = .ok t) : t.left < s.left := by
  cases turn with
  | parent =>
    have lowers := parentStep_lowers h
    rw [State.left, State.left, lowers.1]
    exact Nat.add_lt_add_right lowers.2 _
  | child =>
    have lowers := childStep_lowers h
    rw [State.left, State.left, lowers.1]
    exact Nat.add_lt_add_left lowers.2 _

end Checks

section Runs

variable {host : Host} {userId password : List Byte} {status : Nat} {s t : State}
  {schedule : List Turn}

/-- Both processes are gone, and the verdict is printed if the parent has not been killed. -/
def Over (status : Nat) (s : State) : Prop :=
  s.child = .exited status ∧
    (s.parent = .exited ∧ s.screen = message status ∨ s.parent = .killed ∧ s.screen = [])

/-- The processes end in every order of their steps, with the verdict or without it, and either
can come. -/
structure Settles (host : Host) (userId password : List Byte) (status : Nat) : Prop where
  ends :
  ∀ schedule t, run (State.step host userId password) (forked userId password) schedule = .ok t →
    schedule.length ≤ 10 ∧ (Stuck host userId password t ↔ Over status t)
  told :
  ∃ schedule t, run (State.step host userId password) (forked userId password) schedule = .ok t ∧
    Over status t ∧ t.parent = .exited
  lost :
  ∃ schedule t, run (State.step host userId password) (forked userId password) schedule = .ok t ∧
    Over status t ∧ t.parent = .killed

/-- What the check of the two chunks in the pipe comes to. -/
structure Checked (host : Host) (userId password : List Byte) (status : Nat) : Prop where
  size : (userId.take MAX_PASSWORD).length = MAX_PASSWORD
  size' : (password.take MAX_PASSWORD).length = MAX_PASSWORD
  answer : host.answer userId password = .ok status

theorem Checked.check (checked : Checked host userId password status) (found : host.found = true) :
    check (userId.take MAX_PASSWORD) (password.take MAX_PASSWORD) host.file = .ok status := by
  have answer := checked.answer
  rw [Host.answer, if_pos found] at answer
  cases file : host.file with
  | none =>
    rw [file] at answer
    exact answer
  | some file' =>
    rw [file] at answer
    rw [← check_eq checked.size checked.size']
    exact answer

theorem Checked.unfound (checked : Checked host userId password status)
    (found : host.found = false) : status = 0 := by
  have answer := checked.answer
  rw [Host.answer, if_neg (by simp [found])] at answer
  exact (Except.ok.inj answer).symm

/-- The bytes that go to the pipe, those behind the fork included. -/
theorem checkpasswd_readUser (fillUser fillPassword : Nat → Byte) (stdin : List Byte) :
    checkpasswd fillUser fillPassword stdin = (readUser fillUser fillPassword stdin).map fun b =>
      (forked b.1 b.2).pipe ++ b.1.take 32 ++ b.2.take MAX_PASSWORD := by
  rw [checkpasswd, readUser]
  cases fgets LINE_SIZE stdin with
  | none => rfl
  | some one =>
    cases second : fgets LINE_SIZE one.2 with
    | none => simp [second]
    | some two => simp [second, forked]

theorem readUser_sizes {fillUser fillPassword : Nat → Byte} {stdin : List Byte}
    (read : readUser fillUser fillPassword stdin = some (userId, password)) :
    userId.length = LINE_SIZE ∧ password.length = LINE_SIZE := by
  rw [readUser] at read
  cases first : fgets LINE_SIZE stdin with
  | none => simp [first] at read
  | some one =>
    cases second : fgets LINE_SIZE one.2 with
    | none => simp [first, second] at read
    | some two =>
      have buffers : (buffer fillUser one.1, buffer fillPassword two.1) = (userId, password) := by
        simpa [first, second] using read
      obtain ⟨rfl, rfl⟩ := Prod.mk.inj buffers
      exact ⟨length_buffer (fgets_fits (by decide) first),
        length_buffer (fgets_fits (by decide) second)⟩

abbrev Holds (host : Host) (userId password : List Byte) (status : Nat) (s : State) : Prop :=
  Inv host (userId.take MAX_PASSWORD) (password.take MAX_PASSWORD) status s

theorem holds_forked : Holds host userId password status (forked userId password) where
  child := ⟨[], by simp [forked]⟩
  screen := rfl
  waited := fun exited => nomatch exited

theorem Checked.child_moves (checked : Checked host userId password status)
    (inv : Holds host userId password status s) :
    s.child = .exited status ∨ ∃ t, s.childStep host = .ok t ∧
    Holds host userId password status t :=
  inv.child_moves checked.size checked.size' checked.check checked.unfound

theorem Checked.keeps (checked : Checked host userId password status)
    (inv : Holds host userId password status s)
    {turn : Turn} (h : s.step host userId password turn = .ok t) :
    Holds host userId password status t := by
  cases turn with
  | parent => exact inv.parent h
  | child =>
    obtain gone | ⟨u, moved, inv'⟩ := checked.child_moves inv
    · change s.childStep host = .ok t at h
      rw [State.childStep, gone] at h
      cases h
    · obtain rfl := Except.ok.inj (moved.symm.trans h)
      exact inv'

theorem Checked.kept (checked : Checked host userId password status)
    (inv : Holds host userId password status s)
    (ran : run (State.step host userId password) s schedule = .ok t) :
    Holds host userId password status t := by
  induction schedule generalizing s with
  | nil =>
    obtain rfl := Except.ok.inj ran
    exact inv
  | cons turn rest ih =>
    obtain ⟨m, moved, onward⟩ := run_ok_cons ran
    exact ih (checked.keeps inv moved) onward

/-- Nobody can move exactly where both are gone. -/
theorem Checked.stuck_iff (checked : Checked host userId password status)
    (inv : Holds host userId password status s) :
    Stuck host userId password s ↔ Over status s := by
  constructor
  · intro stuck
    have gone : s.child = .exited status := by
      obtain gone | ⟨t, moved, _⟩ := checked.child_moves inv
      · exact gone
      · exact absurd moved (stuck .child t)
    refine ⟨gone, ?_⟩
    have screen := inv.screen
    obtain exited | killed | ⟨t, moved⟩ := parent_moves host userId password gone
    · rw [if_pos exited] at screen
      exact .inl ⟨exited, screen⟩
    · rw [if_neg (by simp [killed])] at screen
      exact .inr ⟨killed, screen⟩
    · exact absurd moved (stuck .parent t)
  · rintro ⟨gone, ends⟩ turn t
    cases turn with
    | parent =>
      rw [State.step, State.parentStep]
      obtain ⟨exited, _⟩ | ⟨killed, _⟩ := ends
      · rw [exited]
        exact nofun
      · rw [killed]
        exact nofun
    | child =>
      rw [State.step, State.childStep, gone]
      exact nofun

/-- The child can always go on alone up to its end. -/
theorem Checked.finishes (checked : Checked host userId password status)
    (inv : Holds host userId password status s) :
    ∃ schedule t, run (State.step host userId password) s schedule = .ok t ∧ t.parent = s.parent ∧
      t.child = .exited status := by
  induction left : s.child.left using Nat.strongRecOn generalizing s with
  | ind left ih =>
    obtain gone | ⟨m, moved, inv'⟩ := checked.child_moves inv
    · exact ⟨[], s, rfl, rfl, gone⟩
    · have lowers := childStep_lowers moved
      obtain ⟨schedule, t, ran, same, gone⟩ := ih _ (left ▸ lowers.2) inv' rfl
      refine ⟨.child :: schedule, t, ?_, same.trans lowers.1, gone⟩
      rw [run, State.step, moved]
      exact ran

/-- The parent may be through with its writes before the child begins. -/
theorem writes_first {pipe : List Byte} (chunks : pipe.length ≤ 20) (roomy : 62 ≤ host.room) :
    run (State.step host userId password) ⟨pipe, .closesRead, .closesWrite,
      []⟩ (List.replicate 4 .parent) =
      .ok ⟨pipe ++ userId.take 32 ++ password.take MAX_PASSWORD, .waits, .closesWrite, []⟩ := by
  have ten : (password.take MAX_PASSWORD).length ≤ 10 := List.length_take_le _ _
  have again : (userId.take 32).length ≤ 32 := List.length_take_le _ _
  have one :
      State.write host ⟨pipe, .writesUser, .closesWrite, []⟩ (userId.take 32) .writesPassword =
      .ok ⟨pipe ++ userId.take 32, .writesPassword, .closesWrite, []⟩ := write_room rfl (by
    change pipe.length + _ ≤ _
    omega)
  have two : State.write host ⟨pipe ++ userId.take 32, .writesPassword, .closesWrite,
    []⟩ (password.take MAX_PASSWORD)
      .closesWrite = .ok ⟨pipe ++ userId.take 32 ++ password.take MAX_PASSWORD, .closesWrite,
        .closesWrite, []⟩ :=
    write_room rfl (by
      rw [List.length_append]
      omega)
  simp only [List.replicate, run, State.step, State.parentStep, one, two]

/-- In every order of the steps both processes end, and the child has checked the two chunks that
were written first. The parent prints what the exit status says, or is killed by a write and
prints nothing. Where `./validate` cannot be executed the password counts as verified. -/
theorem verdicts (host : Host) (fillUser fillPassword : Nat → Byte)
    (stdin userId password : List Byte) (status : Nat)
    (read : readUser fillUser fillPassword stdin = some (userId, password)) (roomy : 62 ≤ host.room)
    (answer : host.answer userId password = .ok status) : Settles host userId password status := by
  obtain ⟨size, size'⟩ := readUser_sizes read
  have checked : Checked host userId password status := by
    refine ⟨?_, ?_, answer⟩
    · rw [List.length_take, size]
      rfl
    · rw [List.length_take, size']
      rfl
  have begun : Holds host userId password status (forked userId password) := holds_forked
  refine ⟨fun schedule t ran => ?_, ?_, ?_⟩
  · refine ⟨?_, checked.stuck_iff (checked.kept begun ran)⟩
    exact (Nat.le_add_right _ _).trans (length_le_of_run (fun _ _ _ => step_lowers) ran)
  · have chunks : (userId.take MAX_PASSWORD ++ password.take MAX_PASSWORD).length ≤ 20 := by
      rw [List.length_append, checked.size, checked.size']
      decide
    obtain ⟨s, written, waits⟩ : ∃ s, run (State.step host userId password) (forked userId password)
        (List.replicate 4 .parent) = .ok s ∧ s.parent = .waits :=
          ⟨_, writes_first chunks roomy, rfl⟩
    obtain ⟨schedule, t, ran, same, gone⟩ := checked.finishes (checked.kept begun written)
    have inv := checked.kept (checked.kept begun written) ran
    have screen := inv.screen
    rw [same, waits, if_neg (by decide)] at screen
    refine ⟨List.replicate 4 .parent ++ (schedule ++ [.parent]),
      { t with parent := .exited, screen := t.screen ++ message status }, ?_, ⟨gone,
        .inl ⟨rfl, by simp [screen]⟩⟩, rfl⟩
    rw [run_append, written]
    change run _ s (schedule ++ _) = _
    rw [run_append, ran]
    change run _ t _ = _
    simp only [run, State.step, State.parentStep, same, waits, gone]
  · obtain ⟨schedule, t, ran, same, gone⟩ := checked.finishes begun
    have inv := checked.kept begun ran
    have screen := inv.screen
    change t.parent = .closesRead at same
    rw [same, if_neg (by decide)] at screen
    refine ⟨schedule ++ [.parent, .parent], { t with parent := .killed }, ?_,
      ⟨gone, .inr ⟨rfl, screen⟩⟩, rfl⟩
    rw [run_append, ran]
    change run _ t _ = _
    simp [run, State.step, State.parentStep, same, State.write, gone, Child.reader]

theorem verdicts_fish : Settles ⟨4096, true, some (PassFile.bytes ⟨[fish, monkeys], none⟩)⟩
    (buffer (fun _ => 7) (text "fish\n")) (buffer (fun _ => 7) (text "swim\n")) 0 :=
  verdicts _ (fun _ => 7) (fun _ => 7) (text "fish\nswim\n") _ _ _ (by decide +kernel) (by decide)
    (by decide +kernel)

end Runs

end PasswordChecks
