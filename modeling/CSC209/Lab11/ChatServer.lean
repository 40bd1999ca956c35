import CSC209.CStrings
import CSC209.HaltingRuns
import Mathlib.Data.List.FinRange

/-!
# The slot table of the chat server

A slot is claimed in `accept_connection` and released inside `read_from`, and
`main` mirrors the claimed descriptors in a set for `select`. `step` is either
a call of `select` with the connection that it may announce, or the loop's
visit to the next slot. What the kernel answers is the input of a step, and a
run ends where the program exits or leaves the memory of its strings.

Connections are numbered as they are accepted, and a slot keeps the number of
the one that has it; a name keeps the number of the one that sent it. With
nothing read the NUL is written in front of `buf`, where nothing modelled lies.
A name is kept whole here, also where the first message filled its block; the
runs that follow the texts of the replies end with such a message.
-/

namespace ChatServer

open CStrings HaltingRuns

def MAX_CONNECTIONS : Nat := 12
def BUF_SIZE : Nat := 128
def FD_SETSIZE : Int := 1024

structure Username where
  text : CString
  author : Nat
  deriving DecidableEq, Repr

structure Sockname where
  sockFd : Int
  username : Option Username
  occupant : Nat
  deriving DecidableEq, Repr

/-- `listenFds` is what `select` left in its copy of `allFds`, `index` the loop's next slot, and
`openFds` the kernel's own record. -/
structure Server where
  usernames : Vector Sockname MAX_CONNECTIONS
  listenFd : Int
  maxFd : Int
  allFds : List Int
  listenFds : List Int
  index : Nat
  openFds : List Int
  connections : Nat
  sent : List (Int × CString)
  deriving DecidableEq, Repr

/-- The kernel's answers during one step, and what `buf` holds before it is read into. -/
structure Event where
  ready : Option (List Int)
  accepted : Int
  bytes : Option (List Byte)
  buf : List Byte
  allocated : Bool
  written : Bool
  deriving DecidableEq, Repr

/-- How the server can end: by its own `exit`, or by undefined behaviour. -/
inductive Halt where
  | exit
  | nullUsername
  | overflow
  | fdRange (fd : Int)
  deriving DecidableEq, Repr

section Accepting

/-- The first slot whose `sock_fd` is -1, if the loop finds one. -/
def userIndex (usernames : Vector Sockname MAX_CONNECTIONS) : Option (Fin MAX_CONNECTIONS) :=
  (List.finRange MAX_CONNECTIONS).find? fun i => usernames[i].sockFd = -1

/-- The descriptor of the new client, or -1 where the table is full. -/
def acceptConnection (accepted : Int) (s : Server) : Except Halt (Int × Server) :=
  match userIndex s.usernames with
  | none => .ok (-1, s)
  | some i =>
    if accepted < 0 then .error .exit
    else .ok (accepted, { s with
      usernames := s.usernames.set i ⟨accepted, none, s.connections⟩
      openFds := accepted :: s.openFds
      connections := s.connections + 1 })

def fdSet (fd : Int) (fds : List Int) : Except Halt (List Int) :=
  if 0 ≤ fd ∧ fd < FD_SETSIZE then .ok (fd :: fds) else .error (.fdRange fd)

def fdClr (fd : Int) (fds : List Int) : Except Halt (List Int) :=
  if 0 ≤ fd ∧ fd < FD_SETSIZE then .ok (fds.filter (· ≠ fd)) else .error (.fdRange fd)

end Accepting

section Reading

/-- The string in `buf`; an end of the stream leaves what was there, with a NUL or without. -/
def received (e : Event) : Option CString :=
  match e.bytes with
  | some (b :: bytes) => some (cstr (b :: bytes).dropLast)
  | _ => if NUL ∈ e.buf then some (cstr e.buf) else none

/-- The string in `user_buf`, if it fits with its NUL. -/
def reply (name : CString) (e : Event) : Option CString :=
  match received e with
  | none => none
  | some message =>
    let userBuf := name ++ text ": " ++ message
    if userBuf.length ≤ BUF_SIZE then some userBuf else none

/-- What is returned, the slot, and what was given to `write`. -/
def readFrom (e : Event) (u : Sockname) : Except Halt (Int × Sockname × Option CString) :=
  let gone := { u with sockFd := -1 }
  match u.username, e.bytes with
  | none, some (b :: bytes) =>
    let buf := cstr (b :: bytes).dropLast
    let name : Username := ⟨buf, u.occupant⟩
    if e.allocated = false then .error .exit
    else if e.written then .ok (0, { u with username := some name }, some buf)
    else .ok (u.sockFd, { gone with username := some name }, some buf)
  | none, _ => .error .nullUsername
  | some name, bytes =>
    match reply name.text e with
    | none => .error .overflow
    | some userBuf =>
      if bytes = some [] then .ok (u.sockFd, gone, none)
      else if e.written then .ok (0, u, some userBuf)
      else .ok (u.sockFd, gone, some userBuf)

end Reading

section Steps

def clearClosed (clientClosed : Int) (fds : List Int) : Except Halt (List Int) :=
  if 0 < clientClosed then fdClr clientClosed fds else .ok fds

/-- One turn of the loop over the slots. -/
def visit (e : Event) (s : Server) (i : Fin MAX_CONNECTIONS) : Except Halt Server :=
  let u := s.usernames[i]
  if -1 < u.sockFd ∧ u.sockFd ∈ s.listenFds then do
    let (clientClosed, u', wrote) ← readFrom e u
    let allFds ← clearClosed clientClosed s.allFds
    .ok { s with
      usernames := s.usernames.set i u'
      allFds := allFds
      index := i + 1
      sent := s.sent ++ (wrote.map (u.sockFd, ·)).toList }
  else .ok { s with index := i + 1 }

/-- The call of `select` and the connection that it announces. -/
def selectRound (e : Event) (s : Server) : Except Halt Server :=
  match e.ready with
  | none => .error .exit
  | some ready =>
    let s := { s with
      listenFds := ready.filter fun fd => fd ∈ s.allFds ∧ fd < s.maxFd + 1
      index := 0 }
    if s.listenFd ∈ s.listenFds then do
      let (clientFd, s) ← acceptConnection e.accepted s
      let allFds ← fdSet clientFd s.allFds
      .ok { s with allFds := allFds, maxFd := max s.maxFd clientFd }
    else .ok s

def step (s : Server) (e : Event) : Except Halt Server :=
  if h : s.index < MAX_CONNECTIONS then visit e s ⟨s.index, h⟩ else selectRound e s

/-- The state in front of the loop; `others` are the descriptors open besides the socket. -/
def start (listenFd : Int) (others : List Int) : Server where
  usernames := Vector.replicate MAX_CONNECTIONS ⟨-1, none, 0⟩
  listenFd := listenFd
  maxFd := listenFd
  allFds := [listenFd]
  listenFds := []
  index := MAX_CONNECTIONS
  openFds := listenFd :: others
  connections := 0
  sent := []

end Steps

section Soundness

/-- The kernel never hands out an open descriptor. -/
def Legal (s : Server) (e : Event) : Prop := MAX_CONNECTIONS ≤ s.index → e.accepted ∉ s.openFds

instance (s : Server) (e : Event) : Decidable (Legal s e) := inferInstanceAs (Decidable (_ → _))

/-- What the table and the set hold of each other. -/
structure Sound (s : Server) : Prop where
  distinct : ∀ i j : Fin MAX_CONNECTIONS, s.usernames[i].sockFd ≠ -1 →
    s.usernames[i].sockFd = s.usernames[j].sockFd → i = j
  mirrored : ∀ fd, fd ∈ s.allFds ↔
    fd = s.listenFd ∨ fd ≠ -1 ∧ ∃ i : Fin MAX_CONNECTIONS, s.usernames[i].sockFd = fd
  named : ∀ i : Fin MAX_CONNECTIONS, s.usernames[i].sockFd ≠ -1 →
    ∀ name ∈ s.usernames[i].username, name.author = s.usernames[i].occupant

/-- A step from a sound state to a sound one, with no call of `FD_SET` or `FD_CLR` on a negative
descriptor. -/
def StaysSound (s : Server) (e : Event) : Prop :=
  Sound s ∧ (∀ fd, step s e = .error (.fdRange fd) → 0 ≤ fd) ∧ ∀ t, step s e = .ok t → Sound t

/-- `read_from` gives up the slot: nothing was read, or what was written did not arrive whole. -/
def Leaves (e : Event) (u : Sockname) : Prop :=
  match u.username with
  | none => (∃ b bytes, e.bytes = some (b :: bytes)) ∧ e.allocated = true ∧ e.written = false
  | some name => reply name.text e ≠ none ∧ (e.bytes = some [] ∨ e.written = false)

/-- A connection is announced while every slot is taken. -/
def Refuses (s : Server) (e : Event) : Prop :=
  MAX_CONNECTIONS ≤ s.index ∧ (∃ ready, e.ready = some ready ∧ s.listenFd ∈ ready) ∧
    ∀ i : Fin MAX_CONNECTIONS, s.usernames[i].sockFd ≠ -1

/-- The client with descriptor 0 leaves. -/
def LosesZero (s : Server) (e : Event) : Prop :=
  ∃ i : Fin MAX_CONNECTIONS, s.index = i ∧ s.usernames[i].sockFd = 0 ∧ 0 ∈ s.listenFds ∧
    Leaves e s.usernames[i]

end Soundness

section Invariant

/-- Besides, the descriptors of the slots are open ones, and the set can hold them. -/
structure Inv (s : Server) : Prop where
  sound : Sound s
  claimed : ∀ i : Fin MAX_CONNECTIONS, s.usernames[i].sockFd ≠ -1 →
    0 ≤ s.usernames[i].sockFd ∧ s.usernames[i].sockFd < FD_SETSIZE ∧
      s.usernames[i].sockFd ∈ s.openFds ∧ s.usernames[i].sockFd ≠ s.listenFd
  listening : s.listenFd ∈ s.openFds ∧ s.listenFd ≤ s.maxFd

variable {s t : Server} {e : Event} {u u' : Sockname} {i : Fin MAX_CONNECTIONS} {fd : Int}
  {wrote : Option CString} {listenFd : Int} {others : List Int} {inputs : List Event}

theorem start_inv : Inv (start listenFd others) where
  sound :=
    ⟨by simp [start], fun fd => by simp [start]; omega, by simp [start]⟩
  claimed := by simp [start]
  listening := by simp [start]

theorem getElem_set_fin {α : Type} (xs : Vector α MAX_CONNECTIONS)
    (i j : Fin MAX_CONNECTIONS) (x : α) :
    (xs.set i x)[j] = if j = i then x else xs[j] := by
  by_cases same : j = i
  · simp [same]
  · have other : (i : Nat) ≠ j := fun h => same (Fin.ext h.symm)
    simp [same, Vector.getElem_set_ne _ _ other]

theorem userIndex_eq_some (h : userIndex s.usernames = some i) : s.usernames[i].sockFd = -1 := by
  simpa using List.find?_some h

theorem userIndex_eq_none : userIndex s.usernames = none ↔
    ∀ i : Fin MAX_CONNECTIONS, s.usernames[i].sockFd ≠ -1 := by
  simp [userIndex]

/-- A call of `read_from` keeps the slot and returns 0, or gives it up and returns its descriptor. A
name that is set stays, and one that is not is the message. -/
theorem readFrom_cases (h : readFrom e u = .ok (fd, u', wrote)) :
    u'.occupant = u.occupant ∧
      ((∃ name, u.username = some name ∧ u'.username = some name) ∨
        ∃ b bytes, u.username = none ∧ e.bytes = some (b :: bytes) ∧
          u'.username = some ⟨cstr (b :: bytes).dropLast, u.occupant⟩) ∧
      ((fd = 0 ∧ u'.sockFd = u.sockFd) ∨ (Leaves e u ∧ fd = u.sockFd ∧ u'.sockFd = -1)) := by
  unfold readFrom at h
  cases hname : u.username with
  | none =>
    cases hbytes : e.bytes with
    | none => simp [hname, hbytes] at h
    | some bytes =>
      cases bytes with
      | nil => simp [hname, hbytes] at h
      | cons b bytes =>
        cases hmalloc : e.allocated <;> cases hwritten : e.written <;>
          simp [hname, hbytes, hmalloc, hwritten] at h
        · obtain ⟨rfl, rfl, rfl⟩ := h
          exact ⟨rfl, .inr ⟨b, bytes, rfl, rfl, rfl⟩,
            .inr ⟨by simp [Leaves, hname, hbytes, hmalloc, hwritten], rfl, rfl⟩⟩
        · obtain ⟨rfl, rfl, rfl⟩ := h
          exact ⟨rfl, .inr ⟨b, bytes, rfl, rfl, rfl⟩, .inl ⟨rfl, rfl⟩⟩
  | some name =>
    cases hreply : reply name.text e with
    | none => simp [hname, hreply] at h
    | some userBuf =>
      by_cases nothing : e.bytes = some []
      · simp [hname, hreply, nothing] at h
        obtain ⟨rfl, rfl, rfl⟩ := h
        exact ⟨rfl, .inl ⟨name, rfl, rfl⟩,
          .inr ⟨by simp [Leaves, hname, hreply, nothing], rfl, rfl⟩⟩
      · cases hwritten : e.written <;> simp [hname, hreply, nothing, hwritten] at h
        · obtain ⟨rfl, rfl, rfl⟩ := h
          exact ⟨rfl, .inl ⟨name, rfl, rfl⟩,
            .inr ⟨by simp [Leaves, hname, hreply, hwritten], rfl, rfl⟩⟩
        · obtain ⟨rfl, rfl, rfl⟩ := h
          exact ⟨rfl, .inl ⟨name, rfl, hname⟩, .inl ⟨rfl, rfl⟩⟩

theorem readFrom_author (h : readFrom e u = .ok (fd, u', wrote))
    (own : ∀ name ∈ u.username, name.author = u.occupant) :
    ∀ name ∈ u'.username, name.author = u'.occupant := by
  obtain ⟨occupant, ⟨name, known, kept⟩ | ⟨b, bytes, _, _, new⟩, _⟩ := readFrom_cases h
  · rw [occupant, kept, ← known]
    exact own
  · rw [occupant, new]
    simp

theorem readFrom_leaves (h : Leaves e u) : ∃ u' wrote, readFrom e u = .ok (u.sockFd, u', wrote) ∧
    u'.sockFd = -1 := by
  unfold Leaves at h
  cases hname : u.username with
  | none =>
    obtain ⟨⟨b, bytes, hbytes⟩, hmalloc, hwritten⟩ : (∃ b bytes, e.bytes = some (b :: bytes)) ∧
        e.allocated = true ∧ e.written = false := by simpa [hname] using h
    simp [readFrom, hname, hbytes, hmalloc, hwritten]
  | some name =>
    obtain ⟨fits, left⟩ : reply name.text e ≠ none ∧ (e.bytes = some [] ∨ e.written = false) := by
      simpa [hname] using h
    obtain ⟨userBuf, hreply⟩ := Option.ne_none_iff_exists'.mp fits
    by_cases nothing : e.bytes = some []
    · simp [readFrom, hname, hreply, nothing]
    · simp [readFrom, hname, hreply, nothing, left.resolve_left nothing]

theorem readFrom_error : readFrom e u ≠ .error (.fdRange fd) := by
  unfold readFrom
  intro h
  repeat' split at h <;> try simp at h

variable {k n : Nat} {c : Int} {sent : List (Int × CString)} {fds : List Int}

theorem Inv.keep (inv : Inv s) (same : u'.sockFd = s.usernames[i].sockFd)
    (named : u'.sockFd ≠ -1 → ∀ name ∈ u'.username, name.author = u'.occupant) :
    Inv { s with usernames := s.usernames.set i u', index := k, sent := sent } := by
  have fds :
      ∀ j : Fin MAX_CONNECTIONS, (s.usernames.set i u')[j].sockFd = s.usernames[j].sockFd := by
    intro j
    rw [getElem_set_fin]
    by_cases here : j = i
    · simp [here, same]
    · simp [here]
  refine ⟨⟨?_, ?_, ?_⟩, ?_, inv.listening⟩
  · simpa only [fds] using inv.sound.distinct
  · simpa only [fds] using inv.sound.mirrored
  · intro j taken
    rw [fds] at taken
    simp only [getElem_set_fin]
    by_cases here : j = i
    · simpa [here] using named (by rw [same, ← here]; exact taken)
    · simpa [here] using inv.sound.named j taken
  · simpa only [fds] using inv.claimed

theorem Inv.release (inv : Inv s) (taken : s.usernames[i].sockFd ≠ -1) (gone : u'.sockFd = -1) :
    Inv { s with
      usernames := s.usernames.set i u'
      allFds := s.allFds.filter (· ≠ s.usernames[i].sockFd)
      index := k
      sent := sent } := by
  have fds : ∀ j : Fin MAX_CONNECTIONS, (s.usernames.set i u')[j].sockFd =
      if j = i then -1 else s.usernames[j].sockFd := by
    intro j
    rw [getElem_set_fin]
    by_cases here : j = i
    · simp [here, gone]
    · simp [here]
  have others : ∀ {j : Fin MAX_CONNECTIONS}, (s.usernames.set i u')[j].sockFd ≠ -1 →
      j ≠ i ∧ (s.usernames.set i u')[j] = s.usernames[j] := by
    intro j taken'
    have other : j ≠ i := by
      rintro rfl
      exact taken' (by rw [fds, if_pos rfl])
    exact ⟨other, by rw [getElem_set_fin, if_neg other]⟩
  refine ⟨⟨?_, ?_, ?_⟩, ?_, inv.listening⟩
  · intro j l taken' same
    obtain ⟨_, hj⟩ := others taken'
    obtain ⟨_, hl⟩ := others (same ▸ taken')
    simp only [hj, hl] at taken' same
    exact inv.sound.distinct j l taken' same
  · intro fd
    simp only [List.mem_filter, decide_eq_true_eq, inv.sound.mirrored fd]
    constructor
    · rintro ⟨rfl | ⟨real, j, rfl⟩, other⟩
      · exact .inl rfl
      · have apart : j ≠ i := fun same => other (same ▸ rfl)
        exact .inr ⟨real, j, by rw [fds, if_neg apart]⟩
    · rintro (rfl | ⟨real, j, hj⟩)
      · exact ⟨.inl rfl, (inv.claimed i taken).2.2.2.symm⟩
      · obtain ⟨apart, same⟩ := others (hj ▸ real)
        rw [same] at hj
        subst hj
        exact ⟨.inr ⟨real, j, rfl⟩, fun clash => apart (inv.sound.distinct j i real clash)⟩
  · intro j taken'
    obtain ⟨_, hj⟩ := others taken'
    simp only [hj] at taken' ⊢
    exact inv.sound.named j taken'
  · intro j taken'
    obtain ⟨_, hj⟩ := others taken'
    simp only [hj] at taken' ⊢
    exact inv.claimed j taken'

theorem Inv.claim (inv : Inv s) (free : s.usernames[i].sockFd = -1) (fresh : fd ∉ s.openFds)
    (range : 0 ≤ fd ∧ fd < FD_SETSIZE) :
    Inv { s with
      usernames := s.usernames.set i ⟨fd, none, n⟩
      openFds := fd :: s.openFds
      connections := n + 1
      allFds := fd :: s.allFds
      maxFd := max s.maxFd fd
      listenFds := fds
      index := k } := by
  have slots : ∀ j : Fin MAX_CONNECTIONS, (s.usernames.set i ⟨fd, none, n⟩)[j] =
      if j = i then ⟨fd, none, n⟩ else s.usernames[j] := fun j => getElem_set_fin _ _ _ _
  have unused : ∀ j : Fin MAX_CONNECTIONS, s.usernames[j].sockFd ≠ fd := by
    intro j same
    have taken : s.usernames[j].sockFd ≠ -1 := by omega
    exact fresh (same ▸ (inv.claimed j taken).2.2.1)
  refine ⟨⟨?_, ?_, ?_⟩, ?_, ?_⟩
  · intro j l taken same
    simp only [slots] at taken same
    by_cases hj :
        j = i <;> by_cases hl : l = i <;> simp only [hj, hl, if_true, if_false] at taken same ⊢
    · exact absurd same.symm (unused l)
    · exact absurd same (unused j)
    · exact inv.sound.distinct j l taken same
  · intro fd'
    simp only [List.mem_cons, inv.sound.mirrored fd', slots]
    constructor
    · rintro (rfl | rfl | ⟨real, j, hj⟩)
      · exact .inr ⟨by omega, i, by simp⟩
      · exact .inl rfl
      · have apart : j ≠ i := by
          rintro rfl
          omega
        exact .inr ⟨real, j, by rw [if_neg apart]; exact hj⟩
    · rintro (rfl | ⟨real, j, hj⟩)
      · exact .inr (.inl rfl)
      · by_cases here : j = i
        · simp only [here, if_true] at hj
          exact .inl hj.symm
        · simp only [here, if_false] at hj
          exact .inr (.inr ⟨real, j, hj⟩)
  · intro j taken
    simp only [slots] at taken ⊢
    by_cases here : j = i
    · simp [here]
    · simpa [here] using inv.sound.named j (by simpa [here] using taken)
  · intro j taken
    simp only [slots] at taken ⊢
    by_cases here : j = i
    · have apart : fd ≠ s.listenFd := fun same => fresh (same ▸ inv.listening.1)
      simp [here, range, apart]
    · simp only [here, if_false] at taken ⊢
      obtain ⟨low, high, known, apart⟩ := inv.claimed j taken
      exact ⟨low, high, List.mem_cons_of_mem _ known, apart⟩
  · have listening := inv.listening
    exact ⟨List.mem_cons_of_mem _ listening.1, Int.le_trans listening.2 (Int.le_max_left _ _)⟩

/-- A slot is left alone, or one call of `read_from` is made for it. -/
theorem visit_cases (h : visit e s i = .ok t) :
    (¬ (-1 < s.usernames[i].sockFd ∧ s.usernames[i].sockFd ∈ s.listenFds) ∧
      t = { s with index := i + 1 }) ∨
      (-1 < s.usernames[i].sockFd ∧ s.usernames[i].sockFd ∈ s.listenFds) ∧
        ∃ fd u' wrote allFds, readFrom e s.usernames[i] = .ok (fd, u', wrote) ∧
          clearClosed fd s.allFds = .ok allFds ∧
          t = { s with
            usernames := s.usernames.set i u'
            allFds := allFds
            index := i + 1
            sent := s.sent ++ (wrote.map (s.usernames[i].sockFd, ·)).toList } := by
  rw [visit] at h
  by_cases ready : -1 < s.usernames[i].sockFd ∧ s.usernames[i].sockFd ∈ s.listenFds
  · simp only [if_pos ready, bind_ok_iff] at h
    obtain ⟨⟨fd, u', wrote⟩, read, allFds, cleared, h⟩ := h
    exact .inr ⟨ready, fd, u', wrote, allFds, read, cleared, (Except.ok.inj h).symm⟩
  · rw [if_neg ready] at h
    exact .inl ⟨ready, (Except.ok.inj h).symm⟩

theorem Inv.visit (inv : Inv s) (here : s.index = i) (keep : ¬ LosesZero s e)
    (h : ChatServer.visit e s i = .ok t) : Inv t := by
  obtain ⟨_, rfl⟩ | ⟨ready, fd, u', wrote, allFds, read, cleared, rfl⟩ := visit_cases h
  · exact ⟨⟨inv.sound.distinct, inv.sound.mirrored, inv.sound.named⟩, inv.claimed, inv.listening⟩
  · have taken : s.usernames[i].sockFd ≠ -1 := by omega
    obtain ⟨_, _, ⟨rfl, same⟩ | ⟨left, rfl, gone⟩⟩ := readFrom_cases read
    · obtain rfl : s.allFds = allFds := by simpa [clearClosed] using cleared
      exact inv.keep same fun _ => readFrom_author read (inv.sound.named i taken)
    · have range := inv.claimed i taken
      have positive : 0 < s.usernames[i].sockFd := by
        by_contra low
        have zero : s.usernames[i].sockFd = 0 := by omega
        exact keep ⟨i, here, zero, zero ▸ ready.2, left⟩
      rw [clearClosed, if_pos positive, fdClr, if_pos ⟨range.1, range.2.1⟩] at cleared
      obtain rfl := Except.ok.inj cleared
      exact inv.release taken gone

theorem clearClosed_error (h : clearClosed c fds = .error (.fdRange fd)) : 0 ≤ fd := by
  simp only [clearClosed, fdClr] at h
  split at h
  · split at h
    · cases h
    · obtain rfl : c = fd := by simpa using h
      omega
  · cases h

theorem visit_error (h : visit e s i = .error (.fdRange fd)) : 0 ≤ fd := by
  rw [visit] at h
  by_cases ready : -1 < s.usernames[i].sockFd ∧ s.usernames[i].sockFd ∈ s.listenFds
  · simp only [if_pos ready, bind_error_iff] at h
    rcases h with h | ⟨⟨closed, u', wrote⟩, _, h | ⟨_, _, h⟩⟩
    · exact absurd h readFrom_error
    · exact clearClosed_error h
    · cases h
  · rw [if_neg ready] at h
    cases h

/-- The client that leaves descriptor 0 behind leaves it in the set. -/
theorem visit_zero (inv : Inv s) (zero : s.usernames[i].sockFd = 0) (ready : 0 ∈ s.listenFds)
    (left : Leaves e s.usernames[i]) : ∃ t, visit e s i = .ok t ∧ ¬ Sound t := by
  obtain ⟨u', wrote, read, gone⟩ := readFrom_leaves left
  have listened : -1 < s.usernames[i].sockFd ∧ s.usernames[i].sockFd ∈ s.listenFds :=
    ⟨by omega, zero ▸ ready⟩
  have taken : s.usernames[i].sockFd ≠ -1 := by omega
  refine ⟨_, by rw [visit, if_pos listened, read, zero]; rfl, ?_⟩
  intro sound
  have still : 0 ∈ s.allFds := (inv.sound.mirrored 0).mpr (.inr ⟨by omega, i, zero⟩)
  rcases (sound.mirrored 0).mp still with clash | ⟨_, j, hj⟩
  · exact (inv.claimed i taken).2.2.2 (zero.trans clash)
  · simp only [getElem_set_fin] at hj
    by_cases here : j = i
    · simp only [here, if_true, gone] at hj
      omega
    · simp only [here, if_false] at hj
      exact here (inv.sound.distinct j i (by omega) (hj.trans zero.symm))

/-- The listening socket is always watched. -/
theorem Inv.announced (inv : Inv s) (ready : List Int) :
    s.listenFd ∈ ready.filter (fun fd => fd ∈ s.allFds ∧ fd < s.maxFd + 1) ↔
    s.listenFd ∈ ready := by
  have watched : s.listenFd ∈ s.allFds := (inv.sound.mirrored _).mpr (.inl rfl)
  have low := inv.listening.2
  have below : s.listenFd < s.maxFd + 1 := by omega
  simp only [List.mem_filter, watched, below, and_self, decide_true, and_true]

/-- A call of `select` that the program survives leaves the slots, or gives a free one to the next
connection. -/
theorem selectRound_cases (h : selectRound e s = .ok t) : ∃ listenFds,
    t = { s with listenFds := listenFds, index := 0 } ∨
      ∃ i, userIndex s.usernames = some i ∧ 0 ≤ e.accepted ∧ e.accepted < FD_SETSIZE ∧
        t = { s with
          usernames := s.usernames.set i ⟨e.accepted, none, s.connections⟩
          openFds := e.accepted :: s.openFds
          connections := s.connections + 1
          allFds := e.accepted :: s.allFds
          maxFd := max s.maxFd e.accepted
          listenFds := listenFds
          index := 0 } := by
  rw [selectRound] at h
  cases hready : e.ready with
  | none => simp [hready] at h
  | some ready =>
    by_cases announced : s.listenFd ∈ ready.filter (fun fd => fd ∈ s.allFds ∧ fd < s.maxFd + 1)
    · simp only [hready, if_pos announced, bind_ok_iff, acceptConnection] at h
      obtain ⟨⟨clientFd, s'⟩, accepted, allFds, set, h⟩ := h
      cases hindex : userIndex s.usernames with
      | none =>
        simp only [hindex, Except.ok.injEq, Prod.mk.injEq] at accepted
        obtain ⟨rfl, rfl⟩ := accepted
        simp [fdSet] at set
      | some i =>
        by_cases failed : e.accepted < 0
        · simp [hindex, failed] at accepted
        · simp only [hindex, if_neg failed, Except.ok.injEq, Prod.mk.injEq] at accepted
          obtain ⟨rfl, rfl⟩ := accepted
          by_cases range : 0 ≤ e.accepted ∧ e.accepted < FD_SETSIZE
          · rw [fdSet, if_pos range] at set
            obtain rfl := Except.ok.inj set
            exact ⟨_, .inr ⟨i, rfl, range.1, range.2, (Except.ok.inj h).symm⟩⟩
          · simp [fdSet, range] at set
    · simp only [hready, if_neg announced] at h
      exact ⟨_, .inl (Except.ok.inj h).symm⟩

theorem Inv.selectRound (inv : Inv s) (fresh : e.accepted ∉ s.openFds)
    (h : ChatServer.selectRound e s = .ok t) : Inv t := by
  obtain ⟨listenFds, rfl | ⟨i, free, low, high, rfl⟩⟩ := selectRound_cases h
  · exact ⟨⟨inv.sound.distinct, inv.sound.mirrored, inv.sound.named⟩, inv.claimed, inv.listening⟩
  · exact inv.claim (userIndex_eq_some free) fresh ⟨low, high⟩

theorem fdSet_error (h : fdSet c fds = .error (.fdRange fd)) : fd = c := by
  rw [fdSet] at h
  split at h
  · cases h
  · simpa [eq_comm] using h

theorem selectRound_error (inv : Inv s) (idle : MAX_CONNECTIONS ≤ s.index) (keep : ¬ Refuses s e)
    (h : selectRound e s = .error (.fdRange fd)) : 0 ≤ fd := by
  rw [selectRound] at h
  cases hready : e.ready with
  | none => simp [hready] at h
  | some ready =>
    by_cases announced : s.listenFd ∈ ready.filter (fun fd => fd ∈ s.allFds ∧ fd < s.maxFd + 1)
    · simp only [hready, if_pos announced, bind_error_iff, acceptConnection] at h
      cases hindex : userIndex s.usernames with
      | none => exact absurd ⟨idle, ⟨ready, hready, (inv.announced ready).mp announced⟩,
          userIndex_eq_none.mp hindex⟩ keep
      | some i =>
        by_cases failed : e.accepted < 0
        · simp [hindex, failed] at h
        · simp only [hindex, if_neg failed] at h
          rcases h with h | ⟨⟨clientFd, s'⟩, accepted, h | ⟨_, _, h⟩⟩
          · cases h
          · obtain rfl : e.accepted = clientFd := congrArg Prod.fst (Except.ok.inj accepted)
            obtain rfl := fdSet_error h
            omega
          · cases h
    · simp only [hready, if_neg announced] at h
      cases h

theorem selectRound_refuses (inv : Inv s) (h : Refuses s e) :
    selectRound e s = .error (.fdRange (-1)) := by
  obtain ⟨_, ⟨ready, hready, mem⟩, full⟩ := h
  have announced := (inv.announced ready).mpr mem
  simp only [selectRound, hready, if_pos announced, acceptConnection, userIndex_eq_none.mpr full]
  rfl

section Steps

theorem step_visit (here : s.index = i) : step s e = visit e s i := by
  simp [step, here]

theorem step_select (idle : MAX_CONNECTIONS ≤ s.index) : step s e = selectRound e s := by
  simp [step, Nat.not_lt.mpr idle]

theorem Inv.step (inv : Inv s) (legal : Legal s e) (keep : ¬ LosesZero s e)
    (h : ChatServer.step s e = .ok t) : Inv t := by
  by_cases low : s.index < MAX_CONNECTIONS
  · rw [step_visit (i := ⟨s.index, low⟩) rfl] at h
    exact inv.visit rfl keep h
  · have idle := Nat.le_of_not_lt low
    rw [step_select idle] at h
    exact inv.selectRound (legal idle) h

/-- A step spoils the table exactly where a full one is asked for a slot or descriptor 0 leaves. -/
theorem staysSound_iff_step (inv : Inv s) (legal : Legal s e) :
    StaysSound s e ↔ ¬ Refuses s e ∧ ¬ LosesZero s e := by
  constructor
  · rintro ⟨_, calls, next⟩
    constructor
    · intro refuses
      have call := calls (-1) (by rw [step_select refuses.1, selectRound_refuses inv refuses])
      omega
    · rintro ⟨i, here, zero, ready, left⟩
      obtain ⟨t, visited, spoilt⟩ := visit_zero inv zero ready left
      exact spoilt (next t (by rw [step_visit here, visited]))
  · rintro ⟨room, keep⟩
    refine ⟨inv.sound, fun fd h => ?_, fun t h => (inv.step legal keep h).sound⟩
    by_cases low : s.index < MAX_CONNECTIONS
    · rw [step_visit (i := ⟨s.index, low⟩) rfl] at h
      exact visit_error h
    · have idle := Nat.le_of_not_lt low
      rw [step_select idle] at h
      exact selectRound_error inv idle room h

/-- One call of `select` that announces a connection, and the visits to the slots. -/
def connects (listenFd fd : Int) : List Event :=
  ⟨some [listenFd], fd, none, [], true, true⟩ :: List.replicate MAX_CONNECTIONS ⟨none, -1, none,
    [], true, true⟩

def twelveConnections : List Event := (List.range 12).flatMap fun k => connects 3 (4 + k)

def thirteenthConnection : Event := ⟨some [3], 16, none, [], true, true⟩

end Steps

end Invariant

end ChatServer
