import CSC209.Lab11.MessageEchoes

/-!
# A chat client and the server

`chat_client` sends what is typed, one read at a time, and waits for something
to come back before it reads again. The server echoes every message, without
its last byte; behind the first one, which is the name, it puts nothing in
front. An empty name is echoed by no byte at all, and one that fills the block
that `malloc` gives for it is not kept. The two take their steps in any order,
and a message is read in one piece. What the server does once the client has
closed its socket is not looked at.
-/

namespace Conversations

open CStrings HaltingRuns Blocks ChatServer MessageEchoes

/-- What the client prints. -/
inductive Output where
  | prompt
  | count (numRead : Nat)
  | received (text : CString)
  deriving DecidableEq, Repr

/-- What the client does next: it reads its standard input or its socket. -/
inductive Client where
  | types
  | awaits
  | closed
  deriving DecidableEq, Repr

/-- `typed` is what the reads of the standard input are still going to return, and `slot` the
server's entry for the connection. -/
structure Talk where
  typed : List (List Byte)
  client : Client
  isUsernameSet : Bool
  toServer : List Byte
  toClient : List Byte
  slot : Sockname
  screen : List Output
  deriving DecidableEq, Repr

/-- The memory of one call of `read_from`. -/
structure Memory where
  buf : List Byte
  storage : Storage
  size : buf.length = BUF_SIZE + 1

inductive Turn where
  | client
  | server (memory : Memory)

inductive Stop where
  | blocked
  | exited
  | fault (f : Fault)
  deriving DecidableEq, Repr

section Program

namespace Talk

variable (s : Talk)

/-- The prompt, the read and the write to the socket. -/
def types : Talk :=
  let screen := s.screen ++ if s.isUsernameSet then [] else [.prompt]
  match s.typed with
  | [] => { s with client := .closed, isUsernameSet := true, screen := screen ++ [.count 0] }
  | bytes :: later =>
    { s with
      typed := later
      client := .awaits
      isUsernameSet := true
      toServer := s.toServer ++ bytes
      screen := screen ++ [.count bytes.length] }

def awaits : Except Stop Talk :=
  if s.toClient = [] then .error .blocked
  else .ok { s with
    client := .types
    toClient := s.toClient.drop BUF_SIZE
    screen := s.screen ++ [.received (cstr (s.toClient.take BUF_SIZE))] }

/-- The call of `read_from` where `select` finds something to read. -/
def answers (memory : Memory) : Except Stop Talk :=
  if s.toServer = [] then .error .blocked
  else
    let event : Event := ⟨none, 0, some (s.toServer.take BUF_SIZE), memory.buf, true, true⟩
    match readFrom event memory.storage s.slot with
    | .error f => .error (.fault f)
    | .ok none => .error .exited
    | .ok (some (_, slot, wrote)) => .ok { s with
        toServer := s.toServer.drop BUF_SIZE
        toClient := s.toClient ++ wrote.getD []
        slot := slot }

def step : Turn → Except Stop Talk
  | .client =>
    match s.client with
    | .types => .ok s.types
    | .awaits => s.awaits
    | .closed => .error .blocked
  | .server memory => s.answers memory

end Talk

def start (lines : List (List Byte)) (slot : Sockname) : Talk :=
  ⟨lines, .types, false, [], [], slot, []⟩

end Program

section Transcripts

/-- The reply to a message that comes behind these. -/
def replyTo (past : List (List Byte)) (bytes : List Byte) : CString :=
  match past with
  | [] => message bytes
  | first :: _ => message first ++ text ": " ++ message bytes

def exchange (bytes : List Byte) (reply : CString) : List Output :=
  [.count bytes.length, .received reply]

/-- The lines that are typed, each with its own reply. -/
def transcript (lines : List (List Byte)) : List Output :=
  match lines with
  | [] => []
  | first :: later =>
    exchange first (message first) ++ later.flatMap fun bytes =>
      exchange bytes (replyTo [first] bytes)

/-- What is typed: no read returns more than it was asked for, and every reply fits the server's
buffer. -/
structure Typed (lines : List (List Byte)) : Prop where
  sized : ∀ bytes ∈ lines, 0 < bytes.length ∧ bytes.length ≤ BUF_SIZE
  fits : ∀ bytes ∈ lines.tail, (replyTo lines bytes).length ≤ BUF_SIZE

/-- The first message is an empty name. -/
def Unnamed (lines : List (List Byte)) : Prop := lines.head?.map message = some []

instance (lines : List (List Byte)) : Decidable (Unnamed lines) :=
  inferInstanceAs (Decidable (_ = _))

/-- The name has no room in the block that a call of `read_from` gets for it. -/
def Fills (lines : List (List Byte)) (memory : Memory) : Prop :=
  ∃ first ∈ lines.head?, ¬ HoldsName memory.storage (message first)

/-- The client waits for the echo of an empty name, or it has printed the reply to every line. -/
def Settled (lines : List (List Byte)) (s : Talk) : Prop :=
  if Unnamed lines then
    s.client = .awaits ∧ s.toServer = [] ∧
      s.screen = .prompt :: lines.head?.toList.map fun l => .count l.length
  else s.client = .closed ∧ s.screen = .prompt :: (transcript lines ++ [.count 0])

end Transcripts

section Steps

variable {lines past typed : List (List Byte)} {bytes : List Byte} {slot : Sockname} {s t : Talk}

/-- The name in the slot is the first message, if there has been one. -/
def Named (past : List (List Byte)) (slot : Sockname) : Prop :=
  slot.username.map Username.text = past.head?.map message

/-- How far the two have come; `past` are the lines that have been answered. -/
inductive Stage (lines : List (List Byte)) : Talk → Prop where
  | begins (slot : Sockname) (named : Named [] slot) : Stage lines (start lines slot)
  | types (past typed : List (List Byte)) (slot : Sockname) (split : lines = past ++ typed)
      (named : Named past slot) (heard : ¬ Unnamed lines) :
      Stage lines ⟨typed, .types, true, [], [], slot, .prompt :: transcript past⟩
  | asked (past : List (List Byte)) (bytes : List Byte) (typed : List (List Byte)) (slot : Sockname)
      (split : lines = past ++ bytes :: typed) (named : Named past slot)
      (heard : past ≠ [] → ¬ Unnamed lines) :
      Stage lines ⟨typed, .awaits, true, bytes, [], slot,
        .prompt :: (transcript past ++ [.count bytes.length])⟩
  | answered (past : List (List Byte)) (bytes : List Byte) (typed : List (List Byte))
      (slot : Sockname) (split : lines = past ++ bytes :: typed)
      (named : Named (past ++ [bytes]) slot) (heard : past ≠ [] → ¬ Unnamed lines) :
      Stage lines ⟨typed, .awaits, true, [], replyTo past bytes, slot,
        .prompt :: (transcript past ++ [.count bytes.length])⟩
  | closed (slot : Sockname) (heard : ¬ Unnamed lines) :
      Stage lines ⟨[], .closed, true, [], [], slot, .prompt :: (transcript lines ++ [.count 0])⟩

/-- How many steps are left. -/
def Talk.left (s : Talk) : Nat :=
  3 * s.typed.length +
    match s.client with
    | .types => 1
    | .awaits => if s.toServer = [] then 2 else 3
    | .closed => 0

theorem transcript_snoc (past : List (List Byte)) (bytes : List Byte) :
    transcript (past ++ [bytes]) = transcript past ++ exchange bytes (replyTo past bytes) := by
  cases past with
  | nil => simp [transcript, replyTo]
  | cons first later => simp [transcript, replyTo]

theorem message_fits (bytes : List Byte) : (message bytes).length ≤ bytes.length := by
  have cut : (message bytes).length ≤ bytes.dropLast.length := (List.takeWhile_sublist _).length_le
  rw [List.length_dropLast] at cut
  omega

theorem nul_message (bytes : List Byte) : NUL ∉ message bytes := by
  intro h
  simpa using List.mem_takeWhile_imp h

theorem replyTo_cons {first : List Byte} {later : List (List Byte)} (bytes : List Byte) :
    replyTo (first :: later) bytes = message first ++ text ": " ++ message bytes := rfl

/-- Every reply fits what the client reads at once. -/
theorem Typed.reply_fits (h : Typed lines) (split : lines = past ++ bytes :: typed) :
    (replyTo past bytes).length ≤ BUF_SIZE := by
  cases past with
  | nil =>
    have sized := h.sized bytes (by rw [split]; simp)
    exact (message_fits bytes).trans sized.2
  | cons first later =>
    have fits := h.fits bytes (by rw [split]; simp)
    rw [split, List.cons_append] at fits
    exact fits

theorem replyTo_eq_nil (split : lines = past ++ bytes :: typed)
    (heard : past ≠ [] → ¬ Unnamed lines) :
    replyTo past bytes = [] ↔ Unnamed lines := by
  cases past with
  | nil =>
    rw [Unnamed, split]
    simp [replyTo]
  | cons first later =>
    refine iff_of_false ?_ (heard (List.cons_ne_nil _ _))
    simp [replyTo, text]

/-- What is typed next. -/
theorem types_cons (slot : Sockname) (set : Bool) (screen : List Output) (bytes : List Byte)
    (later : List (List Byte)) :
    Talk.types ⟨bytes :: later, .types, set, [], [], slot, screen⟩ =
      ⟨later, .awaits, true, bytes, [], slot,
        (screen ++ if set then [] else [.prompt]) ++ [.count bytes.length]⟩ := rfl

theorem Named.unset (named : Named [] slot) : slot.username = none := by
  simpa [Named] using named

/-- A call of `read_from` on a whole message gives its reply, if a name has room. -/
theorem answers_eq (memory : Memory) (h : Typed lines) (split : lines = past ++ bytes :: typed)
    (named : Named past slot) (room : past = [] → HoldsName memory.storage (message bytes))
    (screen : List Output) :
    ∃ slot', Named (past ++ [bytes]) slot' ∧
      Talk.answers ⟨typed, .awaits, true, bytes, [], slot, screen⟩ memory =
        .ok ⟨typed, .awaits, true, [], replyTo past bytes, slot', screen⟩ := by
  obtain ⟨some_byte, short⟩ := h.sized bytes (by rw [split]; simp)
  obtain ⟨b, rest, rfl⟩ : ∃ b rest, bytes = b :: rest := List.exists_cons_of_length_pos some_byte
  have whole : (b :: rest).take BUF_SIZE = b :: rest := List.take_of_length_le short
  have nothing : (b :: rest).drop BUF_SIZE = [] := List.drop_eq_nil_of_le short
  obtain ⟨event, heq⟩ :
      ∃ event : Event, event = ⟨none, 0, some (b :: rest), memory.buf, true, true⟩ := ⟨_, rfl⟩
  have call : Reads event := by
    rw [heq]
    exact ⟨memory.size, b :: rest, rfl, short⟩
  have got : event.bytes = some (b :: rest) := by rw [heq]
  have written : event.written = true := by rw [heq]
  have allocated : event.allocated = true := by rw [heq]
  simp only [Talk.answers, if_neg (List.cons_ne_nil b rest), whole, nothing, ← heq]
  cases past with
  | nil =>
    rw [readFrom_first memory.storage call got named.unset, if_pos allocated, if_pos (room rfl)]
    exact ⟨{ slot with username := some ⟨message (b :: rest), slot.occupant⟩ }, rfl, by
      simp [outcome, written, replyTo]⟩
  | cons first later =>
    obtain ⟨name, set, same⟩ : ∃ name, slot.username = some name ∧ name.text = message first := by
      cases known : slot.username with
      | none => simp [Named, known] at named
      | some name => exact ⟨name, rfl, by simpa [Named, known] using named⟩
    have fits : name.text.length + 2 + (message (b :: rest)).length ≤ BUF_SIZE := by
      have fits := h.reply_fits split
      rw [replyTo_cons, List.length_append, List.length_append] at fits
      rw [same]
      exact fits
    rw [readFrom_later memory.storage call got set (by rw [same]; exact nul_message first) fits]
    refine ⟨slot, ?_, by simp [outcome, written, replyTo, same]⟩
    simp [Named, set, same]

/-- Without room for it, the name leaves its block. -/
theorem answers_full (memory : Memory) (h : Typed lines) (first : lines = bytes :: typed)
    (named : Named [] slot) (full : ¬ HoldsName memory.storage (message bytes))
    (screen : List Output) :
    ∃ f, Talk.answers ⟨typed, .awaits, true, bytes, [], slot, screen⟩ memory =
      .error (.fault f) := by
  obtain ⟨some_byte, short⟩ := h.sized bytes (by rw [first]; simp)
  obtain ⟨b, rest, rfl⟩ : ∃ b rest, bytes = b :: rest := List.exists_cons_of_length_pos some_byte
  have whole : (b :: rest).take BUF_SIZE = b :: rest := List.take_of_length_le short
  have call : Reads ⟨none, 0, some (b :: rest), memory.buf, true, true⟩ :=
    ⟨memory.size, b :: rest, rfl, short⟩
  have read := readFrom_first memory.storage call rfl named.unset
  rw [if_pos rfl, if_neg full] at read
  refine ⟨.outside (memory.storage.name (message (b :: rest)).length).length, ?_⟩
  simp only [Talk.answers, if_neg (List.cons_ne_nil b rest), whole, read]

/-- The client sends what is typed next, or closes its socket. -/
theorem types_stage (split : lines = past ++ typed) (named : Named past slot)
    (heard : past ≠ [] → ¬ Unnamed lines) (set : Bool) (screen : List Output)
    (shown : (screen ++ if set then [] else [.prompt]) = .prompt :: transcript past) :
    let s : Talk := ⟨typed, .types, set, [], [], slot, screen⟩
    Stage lines s.types ∧ s.types.left < s.left := by
  cases typed with
  | nil =>
    rw [List.append_nil] at split
    subst split
    refine ⟨?_, by simp [Talk.types, Talk.left]⟩
    have named' : ¬ Unnamed lines := by
      cases lines with
      | nil => simp [Unnamed]
      | cons first later => exact heard (List.cons_ne_nil _ _)
    simp only [Talk.types, shown]
    exact .closed slot named'
  | cons bytes later =>
    dsimp only
    rw [types_cons, shown]
    refine ⟨.asked past bytes later slot split named heard, ?_⟩
    simp only [Talk.left, List.length_cons]
    split <;> omega

/-- The client prints the reply, unless it is no byte at all. -/
theorem awaits_stage (h : Typed lines) (split : lines = past ++ bytes :: typed)
    (named : Named (past ++ [bytes]) slot) (heard : past ≠ [] → ¬ Unnamed lines) :
    let s : Talk := ⟨typed, .awaits, true, [], replyTo past bytes, slot,
      .prompt :: (transcript past ++ [.count bytes.length])⟩
    if Unnamed lines then s.awaits = .error .blocked
    else ∃ t, s.awaits = .ok t ∧ Stage lines t ∧ t.left < s.left := by
  have fits := h.reply_fits split
  have empty := replyTo_eq_nil split heard
  have clean : cstr (replyTo past bytes) = replyTo past bytes := by
    apply cstr_eq_self
    cases past with
    | nil => exact nul_message bytes
    | cons first later =>
      rw [replyTo_cons, List.mem_append, List.mem_append, not_or, not_or]
      exact ⟨⟨nul_message first, by decide⟩, nul_message bytes⟩
  by_cases unnamed : Unnamed lines
  · rw [if_pos unnamed]
    exact if_pos (empty.mpr unnamed)
  · rw [if_neg unnamed]
    refine
      ⟨⟨typed, .types, true, [], [], slot, .prompt :: transcript (past ++ [bytes])⟩, ?_, ?_, ?_⟩
    · simp only [Talk.awaits, if_neg (mt empty.mp unnamed), List.take_of_length_le fits,
        List.drop_eq_nil_of_le fits, clean, transcript_snoc, exchange]
      simp
    · exact .types (past ++ [bytes]) typed slot (by simp [split]) named unnamed
    · simp [Talk.left]

/-- The call of `read_from` gets a name, and has no room for it. -/
def Spills (lines : List (List Byte)) (s : Talk) (turn : Turn) : Prop :=
  ∃ memory, turn = .server memory ∧ s.slot.username = none ∧ Fills lines memory

/-- What a step can do: it goes on, it is not that party's turn, or the name leaves its block. -/
theorem Stage.step_cases (stage : Stage lines s) (h : Typed lines) (turn : Turn) :
    s.step turn = .error .blocked ∨ (∃ f, s.step turn = .error (.fault f) ∧ Spills lines s turn) ∨
      ∃ t, s.step turn = .ok t ∧ Stage lines t ∧ t.left < s.left := by
  cases turn with
  | client =>
    cases stage with
    | begins slot named =>
      have moved := types_stage (show lines = [] ++ lines from rfl) named
        (fun none => absurd rfl none) false [] rfl
      exact .inr (.inr ⟨_, rfl, moved⟩)
    | types past typed slot split named heard =>
      have moved := types_stage split named (fun _ => heard) true (.prompt :: transcript past)
        (List.append_nil _)
      exact .inr (.inr ⟨_, rfl, moved⟩)
    | asked past bytes typed slot split named heard => exact .inl rfl
    | answered past bytes typed slot split named heard =>
      have moved := awaits_stage h split named heard
      by_cases unnamed : Unnamed lines
      · rw [if_pos unnamed] at moved
        exact .inl moved
      · rw [if_neg unnamed] at moved
        exact .inr (.inr moved)
    | closed slot heard => exact .inl rfl
  | server memory =>
    cases stage with
    | asked past bytes typed slot split named heard =>
      have some_byte : bytes ≠ [] :=
        List.ne_nil_of_length_pos (h.sized bytes (by rw [split]; simp)).1
      by_cases room : past = [] → HoldsName memory.storage (message bytes)
      · obtain ⟨slot', named', answered⟩ := answers_eq memory h split named room
          (.prompt :: (transcript past ++ [.count bytes.length]))
        exact .inr (.inr ⟨_, answered, .answered past bytes typed slot' split named' heard,
          by simp [Talk.left, some_byte]⟩)
      · push Not at room
        obtain ⟨rfl, full⟩ := room
        obtain ⟨f, stuck⟩ := answers_full memory h split named full
          (.prompt :: (transcript [] ++ [.count bytes.length]))
        exact .inr (.inl ⟨f, stuck, memory, rfl, named.unset, bytes, by rw [split]; rfl, full⟩)
    | begins _ _ | types _ _ _ _ _ _ | answered _ _ _ _ _ _ _ | closed _ _ => exact .inl rfl

def anyMemory : Memory where
  buf := List.replicate (BUF_SIZE + 1) NUL
  storage := ⟨fun _ => NUL, fun n => List.replicate (n + 1) NUL⟩
  size := List.length_replicate

theorem holdsName_anyMemory (name : CString) : HoldsName anyMemory.storage name := by
  simp [HoldsName, anyMemory]

/-- Both parties are stuck. -/
def Stuck (s : Talk) : Prop := ∀ turn t, s.step turn ≠ .ok t

theorem Stage.stuck_iff (stage : Stage lines s) (h : Typed lines) : Stuck s ↔ Settled lines s := by
  cases stage with
  | begins slot named =>
    refine iff_of_false (fun stuck => stuck .client _ rfl) ?_
    rw [Settled]
    split <;> simp [start]
  | types past typed slot split named heard =>
    refine iff_of_false (fun stuck => stuck .client _ rfl) ?_
    rw [Settled]
    split <;> simp
  | asked past bytes typed slot split named heard =>
    obtain ⟨slot', _, answered⟩ := answers_eq anyMemory h split named
      (fun _ => holdsName_anyMemory _) (.prompt :: (transcript past ++ [.count bytes.length]))
    have some_byte : bytes ≠ [] := List.ne_nil_of_length_pos (h.sized bytes (by rw [split]; simp)).1
    refine iff_of_false (fun stuck => stuck (.server anyMemory) _ answered) ?_
    rw [Settled]
    split <;> simp [some_byte]
  | answered past bytes typed slot split named heard =>
    have moved := awaits_stage h split named heard
    rw [Settled]
    by_cases unnamed : Unnamed lines
    · rw [if_pos unnamed] at moved ⊢
      have first : past = [] := by
        by_contra more
        exact heard more unnamed
      subst first
      refine iff_of_true ?_ ⟨rfl, rfl, by rw [split]; rfl⟩
      rintro (_ | memory) t run
      · cases moved.symm.trans run
      · cases run
    · rw [if_neg unnamed] at moved ⊢
      obtain ⟨t, run, _⟩ := moved
      refine iff_of_false (fun stuck => stuck .client t run) ?_
      simp
  | closed slot heard =>
    rw [Settled, if_neg heard]
    refine iff_of_true ?_ ⟨rfl, rfl⟩
    rintro (_ | memory) t run <;> cases run

end Steps

section Runs

variable {lines : List (List Byte)} {s t : Talk} {schedule : List Turn}

/-- What a whole run keeps, and how long it is at most. -/
theorem Stage.run (stage : Stage lines s) (h : Typed lines)
    (ran : run Talk.step s schedule = .ok t) :
    Stage lines t ∧ schedule.length + t.left ≤ s.left := by
  induction schedule generalizing s with
  | nil =>
    obtain rfl := Except.ok.inj ran
    exact ⟨stage, by simp⟩
  | cons turn rest ih =>
    obtain ⟨m, moved, onward⟩ := run_ok_cons ran
    obtain blocked | ⟨f, stuck, _⟩ | ⟨m', moved', stage', lowers⟩ := stage.step_cases h turn
    · cases blocked.symm.trans moved
    · cases stuck.symm.trans moved
    · obtain rfl := Except.ok.inj (moved'.symm.trans moved)
      obtain ⟨ends, short⟩ := ih stage' onward
      refine ⟨ends, ?_⟩
      rw [List.length_cons]
      omega

def greetings : List (List Byte) := [text "ann\n", text "hi\n"]

/-- The slot is that of a connection that has just been accepted. -/
def accepted : Sockname := ⟨4, none, 0⟩

theorem typed_greetings : Typed greetings := ⟨by decide, by decide⟩

/-- An empty name is echoed by nothing. -/
example : run Talk.step (start [[LF], text "hi\n"] accepted) [.client, .server anyMemory] =
    .ok ⟨[text "hi\n"], .awaits, true, [], [], ⟨4, some ⟨[], 0⟩, 0⟩, [.prompt, .count 1]⟩ :=
  by decide +kernel

end Runs

end Conversations
