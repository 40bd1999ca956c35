import CSC209.Blocks
import CSC209.Lab11.ChatServer

/-!
# The buffers of an echoed message

`read_from` on blocks of memory: `buf`, into which a message is read, `user_buf`,
in which the reply is put together, and the block in which a name is kept. The
size of that block is the allocator's; it was asked for the length of the name,
without its NUL. The server's own step is `ChatServer.step`, with the messages
it reads recorded for each connection. It goes on where a NUL has been put in
front of `buf`, where nothing modelled lies. A run ends with the first message
that fills its block, since its NUL is put into the allocator's memory, which
can be written again.
-/

namespace MessageEchoes

open CStrings HaltingRuns Blocks ChatServer

/-- What `user_buf` holds before it is written, and the block that `malloc` gives for a size. -/
structure Storage where
  userBuf : Nat → Byte
  name : Nat → List Byte

section Source

/-- What `read` returns, and `buf` behind it. -/
def read (e : Event) : Int × List Byte :=
  match e.bytes with
  | none => (-1, e.buf)
  | some bytes => (bytes.length, bytes ++ e.buf.drop bytes.length)

/-- A pointer that is followed. -/
def follow (username : Option Username) : Except Fault CString :=
  match username with
  | none => .error .null
  | some name => .ok name.text

/-- The copies into `user_buf`. -/
def fillUserBuf (m : Storage) (username : CString) (buf : List Byte) :
    Except Fault (List Byte) := do
  let userBuf ← strcpy (malloc m.userBuf (BUF_SIZE + 1)) username
  let userBuf ← strcat userBuf (text ": ")
  strcat userBuf (buf.take (← strlen buf))

/-- What is returned, the slot, and what was given to `write`. -/
def outcome (e : Event) (u : Sockname) (wrote : CString) : Int × Sockname × Option CString :=
  if e.written then (0, u, some wrote) else (u.sockFd, { u with sockFd := -1 }, some wrote)

/-- A string is written, and the slot given up if it does not arrive whole. -/
def echo (e : Event) (u : Sockname) (block : List Byte) :
    Except Fault (Int × Sockname × Option CString) := do
  .ok (outcome e u (block.take (← strlen block)))

/-- There is no result where the program exits. -/
def readFrom (e : Event) (m : Storage) (u : Sockname) :
    Except Fault (Option (Int × Sockname × Option CString)) := do
  let (numRead, buf) := read e
  -- the NUL is written before the result of `read` is looked at
  let buf ← poke buf (numRead - 1) NUL
  if 0 < numRead ∧ u.username = none then do
    let length ← strlen buf
    if e.allocated then do
      let name ← strcpy (m.name length) (buf.take length)
      .ok (some (← echo e { u with username := some ⟨cstr name, u.occupant⟩ } buf))
    else .ok none
  else do
    let userBuf ← fillUserBuf m (← follow u.username) buf
    if numRead = 0 then .ok (some (u.sockFd, { u with sockFd := -1 }, none))
    else do .ok (some (← echo e u userBuf))

end Source

section Sessions

/-- The text of a message: its last byte gives way to the NUL. -/
def message (bytes : List Byte) : CString := cstr bytes.dropLast

/-- The server, and the messages that it has read, each with the number of its connection. -/
structure Chat where
  server : Server
  heard : List (Nat × CString)
  deriving DecidableEq, Repr

def Called (s : Server) (i : Fin MAX_CONNECTIONS) : Prop :=
  -1 < (s.usernames.get i).sockFd ∧ (s.usernames.get i).sockFd ∈ s.listenFds

instance (s : Server) (i : Fin MAX_CONNECTIONS) : Decidable (Called s i) :=
  inferInstanceAs (Decidable (_ ∧ _))

def said (e : Event) (u : Sockname) : List (Nat × CString) :=
  match e.bytes with
  | some (b :: bytes) => [(u.occupant, message (b :: bytes))]
  | _ => []

/-- The message that a step reads, if it reads one. -/
def saidNow (e : Event) (s : Server) : List (Nat × CString) :=
  if h : s.index < MAX_CONNECTIONS then
    if Called s ⟨s.index, h⟩ then said e (s.usernames.get ⟨s.index, h⟩) else []
  else []

/-- The block that `malloc` gives for the length of a name can hold its NUL as well. -/
def HoldsName (m : Storage) (name : CString) : Prop := name.length < (m.name name.length).length

instance (m : Storage) (name : CString) : Decidable (HoldsName m name) :=
  inferInstanceAs (Decidable (_ < _))

/-- A first message fills the block of the name. -/
def FillsBlock (s : Chat) (c : Event × Storage) : Prop :=
  ∃ i : Fin MAX_CONNECTIONS, s.server.index = i ∧ Called s.server i ∧
    (s.server.usernames.get i).username = none ∧
    ∃ p ∈ said c.1 (s.server.usernames.get i), ¬ HoldsName c.2 p.2

instance (s : Chat) (c : Event × Storage) : Decidable (FillsBlock s c) :=
  inferInstanceAs (Decidable (∃ _, _))

/-- The step of the server, with names that are kept whole. -/
def serve (s : Chat) (c : Event × Storage) : Except Halt Chat := do
  let server ← ChatServer.step s.server c.1
  .ok ⟨server, s.heard ++ saidNow c.1 s.server⟩

def step : Chat → Event × Storage → Except Halt Chat := guarded FillsBlock .overflow serve

def start (listenFd : Int) (others : List Int) : Chat := ⟨ChatServer.start listenFd others, []⟩

def firstMessage (heard : List (Nat × CString)) (connection : Nat) : Option CString :=
  (heard.find? (·.1 = connection)).map Prod.snd

end Sessions

section Echoes

/-- The call reads a message of at most `BUF_SIZE` bytes, or nothing at the end of the stream. -/
structure Reads (e : Event) : Prop where
  buf : e.buf.length = BUF_SIZE + 1
  bytes : ∃ bytes, e.bytes = some bytes ∧ bytes.length ≤ BUF_SIZE

instance (e : Event) : Decidable (Reads e) :=
  decidable_of_iff (e.buf.length = BUF_SIZE + 1 ∧ ∃ bytes ∈ e.bytes, bytes.length ≤ BUF_SIZE)
    ⟨fun ⟨buf, bytes⟩ => ⟨buf, bytes⟩, fun h => ⟨h.buf, h.bytes⟩⟩

def Legal (s : Chat) (c : Event × Storage) : Prop := s.server.index < MAX_CONNECTIONS → Reads c.1

instance (s : Chat) (c : Event × Storage) : Decidable (Legal s c) :=
  inferInstanceAs (Decidable (_ → _))

/-- The call stays in its memory. The first message becomes the name and is echoed alone, a later
one is echoed with the name, and at the end of the stream the slot is free. -/
def Answered (heard : List (Nat × CString)) (e : Event) (m : Storage) (u : Sockname) : Prop :=
  ∃ returned u' wrote, readFrom e m u = .ok (some (returned, u', wrote)) ∧
    match e.bytes, firstMessage heard u.occupant with
    | some (b :: bytes), none =>
      u'.username = some ⟨message (b :: bytes), u.occupant⟩ ∧ wrote = some (message (b :: bytes))
    | some (b :: bytes), some name =>
      u'.username = some ⟨name, u.occupant⟩ ∧
        wrote = some (name ++ text ": " ++ message (b :: bytes))
    | _, _ => returned = u.sockFd ∧ u'.sockFd = -1

/-- Something is read. For a first message there is a block with room for a NUL behind it; with
a later one and the separator, the first one is no longer than `BUF_SIZE`. -/
def Fits (heard : List (Nat × CString)) (e : Event) (m : Storage) (u : Sockname) : Prop :=
  ∃ b bytes, e.bytes = some (b :: bytes) ∧
    match firstMessage heard u.occupant with
    | none => e.allocated = true ∧ HoldsName m (message (b :: bytes))
    | some name => name.length + 2 + (message (b :: bytes)).length ≤ BUF_SIZE

/-- The same for the call that a step makes, if it makes one. -/
def AnsweredNow (s : Chat) (c : Event × Storage) : Prop :=
  ∀ i : Fin MAX_CONNECTIONS, s.server.index = i → Called s.server i →
    Answered s.heard c.1 c.2 (s.server.usernames.get i)

def FitsNow (s : Chat) (c : Event × Storage) : Prop :=
  ∀ i : Fin MAX_CONNECTIONS, s.server.index = i → Called s.server i →
    Fits s.heard c.1 c.2 (s.server.usernames.get i)

end Echoes

section Calls

variable {e : Event} {m : Storage} {u : Sockname} {b : Byte} {bytes buf name said' : List Byte}
  {size : Nat}

/-- With something read, the NUL is put over the last byte of it. -/
theorem read_spec (call : Reads e) (got : e.bytes = some (b :: bytes)) :
    ∃ buf, poke (read e).2 ((read e).1 - 1) NUL = .ok buf ∧
      Stores (BUF_SIZE + 1) (message (b :: bytes)) buf := by
  obtain ⟨_, got', short⟩ := call.bytes
  obtain rfl := Option.some.inj (got'.symm.trans got)
  obtain ⟨front, last, split⟩ : ∃ front last, b :: bytes = front ++ [last] :=
    ⟨_, _, (List.dropLast_append_getLast (List.cons_ne_nil b bytes)).symm⟩
  rw [split] at got short ⊢
  rw [List.length_append, List.length_singleton] at short
  have len := call.buf
  have index : ((front ++ [last]).length : Int) - 1 = front.length := by simp
  simp only [read, got, index]
  refine ⟨_, poke_ofNat ?_ NUL, ?_⟩
  · simp
  · have block : (front ++ [last] ++ e.buf.drop (front ++ [last]).length).set front.length NUL =
        front ++ NUL :: e.buf.drop (front.length + 1) := by simp
    have nul : NUL ∈ front ++ NUL :: e.buf.drop (front.length + 1) := by simp
    have held := stores_cstr nul
    rw [block, message, List.dropLast_concat, ← cstr_append front (e.buf.drop (front.length + 1))]
    have whole : (front ++ NUL :: e.buf.drop (front.length + 1)).length = BUF_SIZE + 1 := by
      simp only [List.length_append, List.length_cons, List.length_drop]
      omega
    exact whole ▸ held

theorem read_nothing (got : e.bytes = some []) :
    poke (read e).2 ((read e).1 - 1) NUL = .error (.outside (-1)) := by
  simp only [read, got]
  exact poke_outside (by simp) NUL

/-- The name is copied, and the separator and the message are appended. -/
theorem fillUserBuf_eq (m : Storage) (name : CString) (stores : Stores (BUF_SIZE + 1) said' buf) :
    fillUserBuf m name buf =
      strcpy (malloc m.userBuf (BUF_SIZE + 1)) name >>= [text ": ", said'].foldlM strcat := by
  refine bind_congr fun userBuf => ?_
  rw [List.foldlM_cons]
  refine bind_congr fun userBuf => ?_
  simp only [stores.strlen_eq, bind, Except.bind, stores.take_length, List.foldlM_cons,
    List.foldlM_nil]
  cases strcat userBuf said' <;> rfl

theorem clean_parts (clean : NUL ∉ said') : ∀ t ∈ [text ": ", said'], NUL ∉ t := by
  simpa using ⟨by decide, clean⟩

theorem length_parts (said' : CString) : [text ": ", said'].flatten.length = 2 + said'.length := by
  have separator : (text ": ").length = 2 := rfl
  simp [separator]

theorem fillUserBuf_ok (m : Storage) (clean : NUL ∉ name) (stores : Stores (BUF_SIZE + 1) said' buf)
    (fits : name.length + 2 + said'.length ≤ BUF_SIZE) :
    ∃ userBuf, fillUserBuf m name buf = .ok userBuf ∧
      Stores (BUF_SIZE + 1) (name ++ text ": " ++ said') userBuf := by
  have short : name.length < (malloc m.userBuf (BUF_SIZE + 1)).length := by
    rw [length_malloc]
    omega
  obtain ⟨first, copied, stores₁⟩ := strcpy_stores clean short
  rw [length_malloc] at stores₁
  obtain ⟨userBuf, joined, stores₂⟩ :=
    foldlM_strcat_stores stores₁ (clean_parts stores.2.1) (by rw [length_parts]; omega)
  refine ⟨userBuf, ?_, by simpa using stores₂⟩
  rw [fillUserBuf_eq m name stores, copied]
  exact joined

theorem fillUserBuf_full (m : Storage) (clean : NUL ∉ name)
    (stores : Stores (BUF_SIZE + 1) said' buf) (full : BUF_SIZE < name.length + 2 + said'.length) :
    ∃ f, fillUserBuf m name buf = .error f := by
  have size := length_malloc m.userBuf (BUF_SIZE + 1)
  rw [fillUserBuf_eq m name stores]
  by_cases short : name.length < (malloc m.userBuf (BUF_SIZE + 1)).length
  · obtain ⟨first, copied, stores₁⟩ := strcpy_stores clean short
    rw [size] at stores₁
    rw [copied]
    show ∃ f, [text ": ", said'].foldlM strcat first = .error f
    cases run : [text ": ", said'].foldlM strcat first with
    | error f => exact ⟨f, rfl⟩
    | ok userBuf =>
      have room := (foldlM_strcat_room (clean_parts stores.2.1) (List.cons_ne_nil _ _) run).2
      rw [stores₁.cstr_eq, stores₁.1, length_parts] at room
      omega
  · exact ⟨_, by rw [strcpy, place_full (by omega)]; rfl⟩

theorem reply_eq (got : e.bytes = some (b :: bytes))
    (fits : name.length + 2 + (message (b :: bytes)).length ≤ BUF_SIZE) :
    reply name e = some (name ++ text ": " ++ message (b :: bytes)) := by
  have separator : (text ": ").length = 2 := rfl
  have short : (name ++ text ": " ++ message (b :: bytes)).length ≤ BUF_SIZE := by
    simp only [List.length_append, separator]
    omega
  simp only [reply, received, got]
  exact if_pos short

theorem echo_eq (e : Event) (u : Sockname) (stores : Stores size name buf) :
    echo e u buf = .ok (outcome e u name) := by
  simp only [echo, stores.strlen_eq, bind, Except.bind, stores.take_length]

/-- A first message becomes the name, if `malloc` gives a block with room for it. -/
theorem readFrom_first (m : Storage) (call : Reads e) (got : e.bytes = some (b :: bytes))
    (unset : u.username = none) :
    readFrom e m u =
      if e.allocated then
        if HoldsName m (message (b :: bytes)) then
          .ok (some (outcome e { u with username := some ⟨message (b :: bytes), u.occupant⟩ }
                (message (b :: bytes))))
        else .error (.outside (m.name (message (b :: bytes)).length).length)
      else .ok none := by
  obtain ⟨buf, cut, stores⟩ := read_spec call got
  have some_byte : 0 < (read e).1 := by simp [read, got]
  simp only [readFrom, cut, bind, Except.bind, if_pos (And.intro some_byte unset), stores.strlen_eq,
    stores.take_length]
  by_cases allocated : e.allocated
  · rw [if_pos allocated, if_pos allocated]
    by_cases room : HoldsName m (message (b :: bytes))
    · obtain ⟨kept, copied, stores'⟩ := strcpy_stores stores.2.1 room
      simp only [copied, stores'.cstr_eq, echo_eq e _ stores, if_pos room]
    · have full : strcpy (m.name (message (b :: bytes)).length) (message (b :: bytes)) =
          .error (.outside (m.name (message (b :: bytes)).length).length) :=
            place_full (by rw [HoldsName] at room; omega)
      simp only [full, if_neg room]
  · rw [if_neg allocated, if_neg allocated]

/-- A later one is echoed with the name, if they fit `user_buf`. -/
theorem readFrom_later (m : Storage) (call : Reads e) (got : e.bytes = some (b :: bytes))
    {name : Username} (set : u.username = some name) (clean : NUL ∉ name.text)
    (fits : name.text.length + 2 + (message (b :: bytes)).length ≤ BUF_SIZE) :
    readFrom e m u = .ok (some (outcome e u (name.text ++ text ": " ++ message (b :: bytes)))) := by
  obtain ⟨buf, cut, stores⟩ := read_spec call got
  obtain ⟨userBuf, filled, stores'⟩ := fillUserBuf_ok m clean stores fits
  have some_byte : (read e).1 ≠ 0 := by
    simp only [read, got, List.length_cons]
    omega
  simp only [readFrom, cut, bind, Except.bind, set, reduceCtorEq, and_false, if_false,
    if_neg some_byte, follow, filled, echo_eq e u stores']

theorem readFrom_long (m : Storage) (call : Reads e) (got : e.bytes = some (b :: bytes))
    {name : Username} (set : u.username = some name) (clean : NUL ∉ name.text)
    (full : BUF_SIZE < name.text.length + 2 + (message (b :: bytes)).length) :
    ∃ f, readFrom e m u = .error f := by
  obtain ⟨buf, cut, stores⟩ := read_spec call got
  obtain ⟨f, stuck⟩ := fillUserBuf_full m clean stores full
  refine ⟨f, ?_⟩
  simp only [readFrom, cut, bind, Except.bind, set, reduceCtorEq, and_false, if_false,
    follow, stuck]

/-- At the end of the stream the NUL is put in front of `buf`. -/
theorem readFrom_nothing (m : Storage) (u : Sockname) (got : e.bytes = some []) :
    readFrom e m u = .error (.outside (-1)) := by
  simp only [readFrom, read_nothing got, bind, Except.bind]

/-- A call that stays in its memory does what the server's step takes it to do. -/
theorem readFrom_refines {r : Option (Int × Sockname × Option CString)} (call : Reads e)
    (clean : ∀ name ∈ u.username, NUL ∉ name.text) (run : readFrom e m u = .ok r) :
    (ChatServer.readFrom e u).toOption = r := by
  obtain ⟨bytes, got, _⟩ := call.bytes
  cases bytes with
  | nil =>
    rw [readFrom_nothing m u got] at run
    cases run
  | cons b bytes =>
    cases hname : u.username with
    | none =>
      rw [readFrom_first m call got hname] at run
      by_cases allocated : e.allocated
      · rw [if_pos allocated] at run
        split at run
        · obtain rfl := Except.ok.inj run
          cases hwritten : e.written <;>
            simp [ChatServer.readFrom, hname, got, allocated, hwritten, outcome, message,
              Except.toOption]
        · cases run
      · rw [if_neg allocated] at run
        obtain rfl := Except.ok.inj run
        simp [ChatServer.readFrom, hname, got, allocated, Except.toOption]
    | some name =>
      have known : NUL ∉ name.text := clean name hname
      by_cases fits : name.text.length + 2 + (message (b :: bytes)).length ≤ BUF_SIZE
      · rw [readFrom_later m call got hname known fits] at run
        obtain rfl := Except.ok.inj run
        cases hwritten : e.written <;>
          simp [ChatServer.readFrom, hname, got, reply_eq got fits, hwritten, outcome,
            Except.toOption]
      · obtain ⟨f, stuck⟩ := readFrom_long m call got hname known (Nat.lt_of_not_le fits)
        rw [stuck] at run
        cases run

variable {heard : List (Nat × CString)}

/-- The name of a slot is the first message of its connection. -/
def Named (heard : List (Nat × CString)) (u : Sockname) : Prop :=
  u.username = (firstMessage heard u.occupant).map fun name => ⟨name, u.occupant⟩

theorem outcome_username (e : Event) (u : Sockname) (wrote : CString) :
    (outcome e u wrote).2.1.username = u.username := by
  rw [outcome]
  split <;> rfl

theorem outcome_wrote (e : Event) (u : Sockname) (wrote : CString) :
    (outcome e u wrote).2.2 = some wrote := by
  rw [outcome]
  split <;> rfl

theorem answered_iff (m : Storage) (call : Reads e) (named : Named heard u)
    (clean : ∀ name ∈ u.username, NUL ∉ name.text) :
    Answered heard e m u ↔ Fits heard e m u := by
  obtain ⟨bytes, got, _⟩ := call.bytes
  cases bytes with
  | nil =>
    refine iff_of_false ?_ ?_
    · rintro ⟨_, _, _, run, _⟩
      rw [readFrom_nothing m u got] at run
      cases run
    · rintro ⟨b, bytes, got', _⟩
      cases got.symm.trans got'
  | cons b bytes =>
    rw [Answered, Fits]
    cases first : firstMessage heard u.occupant with
    | none =>
      have unset : u.username = none := by rw [named, first]; rfl
      rw [readFrom_first m call got unset]
      constructor
      · rintro ⟨returned, u', wrote, run, _⟩
        refine ⟨b, bytes, got, ?_⟩
        by_cases allocated : e.allocated
        · by_cases room : HoldsName m (message (b :: bytes))
          · exact ⟨allocated, room⟩
          · rw [if_pos allocated, if_neg room] at run
            cases run
        · rw [if_neg allocated] at run
          cases run
      · rintro ⟨_, _, got', allocated, room⟩
        obtain ⟨rfl, rfl⟩ := List.cons.inj (Option.some.inj (got.symm.trans got'))
        refine ⟨_, _, _, by rw [if_pos allocated, if_pos room], ?_⟩
        rw [got]
        exact ⟨outcome_username e _ _, outcome_wrote e _ _⟩
    | some name =>
      have set : u.username = some ⟨name, u.occupant⟩ := by rw [named, first]; rfl
      have known := clean ⟨name, u.occupant⟩ set
      constructor
      · rintro ⟨returned, u', wrote, run, _⟩
        refine ⟨b, bytes, got, ?_⟩
        by_contra full
        obtain ⟨f, stuck⟩ := readFrom_long m call got set known (Nat.lt_of_not_le full)
        rw [stuck] at run
        cases run
      · rintro ⟨_, _, got', fits⟩
        obtain ⟨rfl, rfl⟩ := List.cons.inj (Option.some.inj (got.symm.trans got'))
        refine ⟨_, _, _, readFrom_later m call got set known fits, ?_⟩
        rw [got]
        exact ⟨(outcome_username e u _).trans set, outcome_wrote e u _⟩

end Calls

section History

variable {s t : Server} {e : Event} {u u' : Sockname} {i : Fin MAX_CONNECTIONS} {fd listenFd : Int}
  {others : List Int} {wrote : Option CString} {heard later : List (Nat × CString)} {k : Nat}

theorem firstMessage_append (heard later : List (Nat × CString)) (k : Nat) :
    firstMessage (heard ++ later) k = (firstMessage heard k).or (firstMessage later k) := by
  rw [firstMessage, List.find?_append, Option.map_or]
  rfl

theorem firstMessage_new (new : ∀ p ∈ heard, p.1 ≠ k) : firstMessage heard k = none := by
  rw [firstMessage, Option.map_eq_none_iff, List.find?_eq_none]
  simpa using new

theorem mem_said {p : Nat × CString} (h : p ∈ said e u) : p.1 = u.occupant ∧ NUL ∉ p.2 := by
  rw [said] at h
  split at h
  · obtain rfl := List.mem_singleton.mp h
    exact ⟨rfl, clean_cstr _⟩
  · cases h

/-- A name that is set stays, and one that is not set is what the slot's client says. -/
theorem readFrom_name (h : ChatServer.readFrom e u = .ok (fd, u', wrote)) :
    u'.username =
      u.username.or ((firstMessage (said e u) u.occupant).map fun name => ⟨name, u.occupant⟩) := by
  obtain ⟨_, ⟨name, known, kept⟩ | ⟨b, bytes, unset, got, new⟩, _⟩ := readFrom_cases h
  · rw [kept, known]
    rfl
  · rw [new, unset]
    simp [said, got, firstMessage, message]

theorem Called.taken (called : Called s i) : (s.usernames.get i).sockFd ≠ -1 := by
  have := called.1
  omega

theorem visit_slots (h : ChatServer.visit e s i = .ok t) :
    t.connections = s.connections ∧
      (¬ Called s i ∧ t.usernames = s.usernames ∨
        Called s i ∧
        ∃ fd u' wrote, ChatServer.readFrom e (s.usernames.get i) = .ok (fd, u', wrote) ∧
          ∀ j, t.usernames.get j = if j = i then u' else s.usernames.get j) := by
  obtain ⟨quiet, rfl⟩ | ⟨called, fd, u', wrote, allFds, read, _, rfl⟩ := visit_cases h
  · exact ⟨rfl, .inl ⟨quiet, rfl⟩⟩
  · exact ⟨rfl, .inr ⟨called, fd, u', wrote, read, fun j => getElem_set_fin s.usernames i j u'⟩⟩

theorem selectRound_slots (h : ChatServer.selectRound e s = .ok t) :
    t.usernames = s.usernames ∧ t.connections = s.connections ∨
      ∃ i fd,
        (∀ j, t.usernames.get j = if j = i then ⟨fd, none, s.connections⟩ else s.usernames.get j) ∧
        t.connections = s.connections + 1 := by
  obtain ⟨listenFds, rfl | ⟨i, _, _, _, rfl⟩⟩ := selectRound_cases h
  · exact .inl ⟨rfl, rfl⟩
  · exact .inr ⟨i, e.accepted, fun j => getElem_set_fin s.usernames i j _, rfl⟩

/-- Each name is the first message of the slot's connection, which no other slot has. -/
structure Kept (c : Chat) : Prop where
  named : ∀ i : Fin MAX_CONNECTIONS, (c.server.usernames.get i).sockFd ≠ -1 →
  Named c.heard (c.server.usernames.get i)
  apart : ∀ i j : Fin MAX_CONNECTIONS, (c.server.usernames.get i).sockFd ≠ -1 →
  (c.server.usernames.get j).sockFd ≠ -1 →
    (c.server.usernames.get i).occupant = (c.server.usernames.get j).occupant → i = j
  counted : ∀ i : Fin MAX_CONNECTIONS, (c.server.usernames.get i).sockFd ≠ -1 →
    (c.server.usernames.get i).occupant < c.server.connections
  spoken : ∀ p ∈ c.heard, p.1 < c.server.connections ∧ NUL ∉ p.2

theorem free_start (i : Fin MAX_CONNECTIONS) :
    ((start listenFd others).server.usernames.get i).sockFd = -1 := by
  have free : ∀ x : Sockname, (Vector.replicate MAX_CONNECTIONS x)[i] = x := by simp
  exact congrArg Sockname.sockFd (free ⟨-1, none, 0⟩)

theorem kept_start (listenFd : Int) (others : List Int) : Kept (start listenFd others) where
  named := fun i taken => absurd (free_start i) taken
  apart := fun i _ taken => absurd (free_start i) taken
  counted := fun i taken => absurd (free_start i) taken
  spoken := by simp [start]

theorem Kept.clean {c : Chat} {i : Fin MAX_CONNECTIONS} (kept : Kept c)
    (taken : (c.server.usernames.get i).sockFd ≠ -1) :
    ∀ name ∈ (c.server.usernames.get i).username, NUL ∉ name.text := by
  rw [kept.named i taken]
  intro name mem
  obtain ⟨first, said, rfl⟩ := Option.map_eq_some_iff.mp mem
  obtain ⟨p, heard, rfl⟩ := Option.map_eq_some_iff.mp said
  exact (kept.spoken p (List.mem_of_find?_eq_some heard)).2

/-- A slot that is called keeps the first message of its client, if it keeps the client. -/
theorem Kept.called {c : Chat} {t : Server} {e : Event} {fd : Int} {u' : Sockname}
    {wrote : Option CString} {i : Fin MAX_CONNECTIONS} (kept : Kept c) (called : Called c.server i)
    (read : ChatServer.readFrom e (c.server.usernames.get i) = .ok (fd, u', wrote))
    (slot : ∀ j, t.usernames.get j = if j = i then u' else c.server.usernames.get j)
    (count : t.connections = c.server.connections) :
    Kept ⟨t, c.heard ++ said e (c.server.usernames.get i)⟩ := by
  have taken := called.taken
  obtain ⟨occupant, _, _⟩ := readFrom_cases read
  have occupants : ∀ j : Fin MAX_CONNECTIONS,
    (t.usernames.get j).occupant = (c.server.usernames.get j).occupant := by
    intro j
    rw [slot]
    split
    · next same => rw [same, occupant]
    · rfl
  have still : ∀ j : Fin MAX_CONNECTIONS, (t.usernames.get j).sockFd ≠ -1 →
    (c.server.usernames.get j).sockFd ≠ -1 := by
    intro j
    rw [slot]
    split
    · next same => exact fun _ => same ▸ taken
    · exact id
  refine ⟨?_, ?_, ?_, ?_⟩
  · intro j there
    have before := kept.named j (still j there)
    by_cases here : j = i
    · subst here
      rw [slot, if_pos rfl, Named, occupant, firstMessage_append, Option.map_or, ← before]
      exact readFrom_name read
    · have other :
          ∀ p ∈ said e (c.server.usernames.get i), p.1 ≠ (c.server.usernames.get j).occupant := by
        intro p hp same
        exact here (kept.apart j i (still j there) taken (same.symm.trans (mem_said hp).1))
      rw [slot, if_neg here, Named, firstMessage_append, firstMessage_new other, Option.or_none]
      exact before
  · intro j k hj hk same
    rw [occupants, occupants] at same
    exact kept.apart j k (still j hj) (still k hk) same
  · intro j there
    rw [occupants, count]
    exact kept.counted j (still j there)
  · intro p hp
    rw [count]
    rcases List.mem_append.mp hp with old | new
    · exact kept.spoken p old
    · obtain ⟨who, clean⟩ := mem_said new
      exact ⟨who ▸ kept.counted i taken, clean⟩

/-- A connection that is accepted has not said anything. -/
theorem Kept.accepted {c : Chat} {t : Server} {i : Fin MAX_CONNECTIONS} {fd : Int} (kept : Kept c)
    (slot : ∀ j, t.usernames.get j = if j =
      i then ⟨fd, none, c.server.connections⟩ else c.server.usernames.get j)
    (count : t.connections = c.server.connections + 1) : Kept ⟨t, c.heard⟩ := by
  refine ⟨?_, ?_, ?_, ?_⟩
  · intro j there
    simp only [slot] at there ⊢
    split
    · have new : ∀ p ∈ c.heard, p.1 ≠ c.server.connections :=
        fun p hp => Nat.ne_of_lt (kept.spoken p hp).1
      rw [Named, firstMessage_new new]
      rfl
    · next other => exact kept.named j (by rwa [if_neg other] at there)
  · intro j k hj hk same
    simp only [slot] at hj hk same
    by_cases hji :
        j = i <;> by_cases hki : k = i <;> simp only [hji, hki, if_true, if_false] at hj hk same ⊢
    · exact absurd same.symm (Nat.ne_of_lt (kept.counted k hk))
    · exact absurd same (Nat.ne_of_lt (kept.counted j hj))
    · exact kept.apart j k hj hk same
  · intro j there
    simp only [slot, count] at there ⊢
    split
    · exact Nat.lt_succ_self _
    · next other => exact Nat.lt_succ_of_lt (kept.counted j (by rwa [if_neg other] at there))
  · intro p hp
    obtain ⟨low, clean⟩ := kept.spoken p hp
    exact ⟨count ▸ Nat.lt_succ_of_lt low, clean⟩

/-- Nor do steps matter that leave the slots. -/
theorem Kept.idle {c : Chat} {t : Server} (kept : Kept c) (slots : t.usernames = c.server.usernames)
    (count : t.connections = c.server.connections) : Kept ⟨t, c.heard⟩ := by
  refine ⟨?_, ?_, ?_, ?_⟩
  · simpa only [slots] using kept.named
  · simpa only [slots] using kept.apart
  · simpa only [slots, count] using kept.counted
  · simpa only [count] using kept.spoken

theorem Kept.step {c d : Chat} {input : Event × Storage} (kept : Kept c)
    (h : MessageEchoes.step c input = .ok d) :
    Kept d := by
  obtain ⟨t, taken, h⟩ := bind_ok_iff.mp (guarded_ok_iff.mp h).2
  obtain rfl := Except.ok.inj h
  by_cases low : c.server.index < MAX_CONNECTIONS
  · rw [step_visit (i := ⟨c.server.index, low⟩) rfl] at taken
    rw [saidNow, dif_pos low]
    obtain ⟨count, ⟨quiet, slots⟩ | ⟨called, fd, u', wrote, read, slots⟩⟩ := visit_slots taken
    · rw [if_neg quiet, List.append_nil]
      exact kept.idle slots count
    · rw [if_pos called]
      exact kept.called called read slots count
  · rw [step_select (Nat.le_of_not_lt low)] at taken
    rw [saidNow, dif_neg low, List.append_nil]
    rcases selectRound_slots taken with ⟨slots, count⟩ | ⟨i, fd, slots, count⟩
    · exact kept.idle slots count
    · exact kept.accepted slots count

/-- What `read_from` leaves of a slot is in the table behind the step. -/
theorem Kept.slot_answered {c d : Chat} {e : Event} {m : Storage} {returned : Int} {u' : Sockname}
    {wrote : Option CString} {i : Fin MAX_CONNECTIONS} (kept : Kept c) (here : c.server.index = i)
    (called : Called c.server i) (call : Reads e)
    (answer : readFrom e m (c.server.usernames.get i) = .ok (some (returned, u', wrote)))
    (h : MessageEchoes.step c (e, m) = .ok d) :
    d.server.usernames.get i = u' := by
  obtain ⟨t, taken, h⟩ := bind_ok_iff.mp (guarded_ok_iff.mp h).2
  obtain rfl := Except.ok.inj h
  rw [step_visit here] at taken
  obtain ⟨_, ⟨quiet, _⟩ | ⟨_, fd, u'', wrote', read, slots⟩⟩ := visit_slots taken
  · exact absurd called quiet
  · have same := readFrom_refines call (kept.clean called.taken) answer
    rw [read] at same
    obtain ⟨_, rfl, _⟩ : fd = returned ∧ u'' = u' ∧ wrote' = wrote := by
      simpa [Except.toOption] using same
    rw [slots, if_pos rfl]

end History

section Results

variable {c : Chat} {listenFd : Int} {others : List Int}

/-- In a table that the program can reach, a call is answered exactly when it fits. -/
theorem Kept.answered_iff (kept : Kept c) {i : Fin MAX_CONNECTIONS} {e : Event} (m : Storage)
    (taken : (c.server.usernames.get i).sockFd ≠ -1) (call : Reads e) :
    Answered c.heard e m (c.server.usernames.get i) ↔ Fits c.heard e m (c.server.usernames.get i) :=
  MessageEchoes.answered_iff m call (kept.named i taken) (kept.clean taken)

/-- In every table that can be reached and on every slot that is taken, and so along every further
run, exactly the calls are answered whose copies fit. -/
theorem echoes_iff (reached : Reachable step Legal (start listenFd others) c) :
    (∀ (i : Fin MAX_CONNECTIONS) (e : Event) (m : Storage),
      (c.server.usernames.get i).sockFd ≠ -1 → Reads e →
      (Answered c.heard e m (c.server.usernames.get i) ↔
        Fits c.heard e m (c.server.usernames.get i))) ∧
    ∀ inputs, Along step Legal c inputs →
      (Along step AnsweredNow c inputs ↔ Along step FitsNow c inputs) := by
  have kept : Kept c :=
    reached.invariant (kept_start listenFd others) fun _ _ _ inv _ h => inv.step h
  refine ⟨fun i e m taken call => kept.answered_iff m taken call, fun inputs allowed => ?_⟩
  refine along_congr kept allowed (fun _ _ _ inv _ _ h => inv.step h) fun c input inv legal => ?_
  refine forall_congr' fun i => forall_congr' fun here => forall_congr' fun called => ?_
  exact inv.answered_iff input.2 called.taken (legal (here ▸ i.isLt))

/-- A step in which `read` gives these bytes. -/
def reads (bytes : CString) : Event :=
  ⟨none, -1, some bytes, List.replicate (BUF_SIZE + 1) NUL, true, true⟩

theorem reads_bytes {bytes : CString} (short : bytes.length ≤ BUF_SIZE) : Reads (reads bytes) :=
  ⟨List.length_replicate, bytes, rfl, short⟩

def firstSlot : Fin MAX_CONNECTIONS := ⟨0, by decide⟩

/-- No block has less than 24 bytes. -/
def zeros : Storage := ⟨fun _ => NUL, fun size => List.replicate (max size 24) NUL⟩

def selects (fd accepted : Int) : Event := ⟨some [fd], accepted, none, [], true, true⟩

/-- One client connects and sends its name. -/
def signedOn : List (Event × Storage) :=
  (selects 3 4, zeros) :: List.replicate MAX_CONNECTIONS (reads [], zeros) ++
    [(selects 4 (-1), zeros), (reads (text "ann\n"), zeros)]

/-- The loop goes on to the next call of `select`, and the client sends a message. -/
def saysHi : List (Event × Storage) :=
  List.replicate (MAX_CONNECTIONS - 1) (reads [], zeros) ++ [(selects 4 (-1), zeros),
    (reads (text "hi\n"), zeros)]

theorem echoes_iff_ann : ∃ c, Reachable step Legal (start 3 [0, 1, 2]) c ∧
    (c.server.usernames.get firstSlot).username = some ⟨text "ann", 0⟩ ∧
    (Answered c.heard (reads (text "hi\n")) zeros (c.server.usernames.get firstSlot) ↔
      Fits c.heard (reads (text "hi\n")) zeros (c.server.usernames.get firstSlot)) ∧
    Along step Legal c saysHi ∧
    (Along step AnsweredNow c saysHi ↔ Along step FitsNow c saysHi) := by
  obtain ⟨c, ran, taken, named, allowed⟩ : ∃ c, run step (start 3 [0, 1, 2]) signedOn = .ok c ∧
      ((c.server.usernames.get firstSlot).sockFd ≠ -1 ∧
        (c.server.usernames.get firstSlot).username = some ⟨text "ann", 0⟩ ∧
          Along step Legal c saysHi) :=
    exists_of_run (by decide +kernel)
  have reached : Reachable step Legal (start 3 [0, 1, 2]) c :=
    reachable_of_run (by decide +kernel) ran
  have answered := echoes_iff reached
  exact ⟨c, reached, named, answered.1 firstSlot _ zeros taken (reads_bytes (by decide)), allowed,
    answered.2 saysHi allowed⟩

/-- A client that leaves at once: the NUL is put in front of `buf`. -/
theorem departure_before_buf :
    ¬ ∀ (listenFd : Int) (others : List Int) (c : Chat),
      Reachable step Legal (start listenFd others) c →
      ∀ (i : Fin MAX_CONNECTIONS) (e : Event) (m : Storage),
        (c.server.usernames.get i).sockFd ≠ -1 → Reads e →
        Answered c.heard e m (c.server.usernames.get i) := by
  intro always
  obtain ⟨c, ran, taken⟩ : ∃ c, run step (start 3 [0, 1, 2]) [(selects 3 4, zeros)] = .ok c ∧
      (c.server.usernames.get firstSlot).sockFd ≠ -1 := exists_of_run (by decide +kernel)
  have reached : Reachable step Legal (start 3 [0, 1, 2]) c :=
    reachable_of_run (by decide +kernel) ran
  obtain ⟨_, _, _, answered, _⟩ :=
    always 3 [0, 1, 2] c reached firstSlot (reads []) zeros taken (reads_bytes (by decide))
  rw [readFrom_nothing zeros _ rfl] at answered
  cases answered

end Results

end MessageEchoes
