import CSC209.Lab11.MessageEchoes

/-!
# What the chat server writes to its clients

Every text that the server gives to `write` answers the message that it has
just read: the descriptor is the one that was accepted for the message's
connection, and the text is made from that connection's own messages. Nothing
is written to a client about another, although the clients take turns in one
table and a slot passes from one connection to the next. How much of a text
arrives is the kernel's; a write that is not complete is counted with the
whole text it was given.

The server never closes a descriptor, so that the kernel gives each of them
out once. `fds` lists them by the number of the connection. The runs are those
of `MessageEchoes`, which end where a first message fills its block.
-/

namespace ChatTranscripts

open CStrings HaltingRuns ChatServer MessageEchoes

section Replies

/-- A message is echoed alone if it is the first of its connection, and behind the name else. -/
def replyTo (before : List (Nat × CString)) (p : Nat × CString) : CString :=
  match firstMessage before p.1 with
  | none => p.2
  | some name => name ++ text ": " ++ p.2

/-- The replies to messages that come behind others, each with its connection. -/
def repliesAfter (before : List (Nat × CString)) : List (Nat × CString) → List (Nat × CString)
  | [] => []
  | p :: later => (p.1, replyTo before p) :: repliesAfter (before ++ [p]) later

/-- The messages of one connection. -/
def messages (k : Nat) (heard : List (Nat × CString)) : List CString :=
  (heard.filter (·.1 = k)).map Prod.snd

/-- What is to be written to a client that has sent these messages. -/
def echoes : List CString → List CString
  | [] => []
  | name :: later => name :: later.map (name ++ text ": " ++ ·)

/-- What was given to `write` for a descriptor. -/
def textsTo (fd : Int) (sent : List (Int × CString)) : List CString :=
  (sent.filter (·.1 = fd)).map Prod.snd

variable {before heard : List (Nat × CString)} {k : Nat} {fd : Int} {fds : List Int}
  {sent : List (Int × CString)}

theorem repliesAfter_append (before heard later : List (Nat × CString)) :
    repliesAfter before (heard ++ later) = repliesAfter before heard ++
      repliesAfter (before ++ heard) later := by
  induction heard generalizing before with
  | nil => simp [repliesAfter]
  | cons q heard ih => simp [repliesAfter, ih]

/-- The replies of one connection are made from its own messages. -/
theorem messages_replies (k : Nat) (before heard : List (Nat × CString)) :
    messages k (repliesAfter before heard) =
      match firstMessage before k with
      | none => echoes (messages k heard)
      | some name => (messages k heard).map (name ++ text ": " ++ ·) := by
  induction heard generalizing before with
  | nil => cases firstMessage before k <;> rfl
  | cons p heard ih =>
    have one : ∀ q : Nat × CString, messages k (q :: heard) =
        if q.1 = k then q.2 :: messages k heard else messages k heard := by
      intro q
      by_cases here : q.1 = k <;> simp [messages, here]
    have first : messages k (repliesAfter before (p :: heard)) =
        if p.1 = k then replyTo before p :: messages k (repliesAfter (before ++ [p]) heard)
        else messages k (repliesAfter (before ++ [p]) heard) := by
      by_cases here : p.1 = k <;> simp [messages, repliesAfter, here]
    rw [first, one, ih, firstMessage_append]
    by_cases here : p.1 = k
    · subst here
      have new : firstMessage [p] p.1 = some p.2 := by simp [firstMessage]
      cases known : firstMessage before p.1 <;> simp [replyTo, known, new, echoes]
    · have other : firstMessage [p] k = none := firstMessage_new (by simpa using here)
      simp [here, other]

theorem mem_replies {p : Nat × CString} (h : p ∈ repliesAfter before heard) :
    ∃ q ∈ heard, q.1 = p.1 := by
  induction heard generalizing before with
  | nil => cases h
  | cons q heard ih =>
    rcases List.mem_cons.mp h with rfl | h
    · exact ⟨q, List.mem_cons_self, rfl⟩
    · obtain ⟨r, mem, same⟩ := ih h
      exact ⟨r, List.mem_cons_of_mem q mem, same⟩

/-- Texts that went to the descriptors of their connections, seen from one descriptor. -/
theorem textsTo_located {replies : List (Nat × CString)} (apart : fds.Nodup)
    (there : fds[k]? = some fd)
    (located : sent.map (fun p => (some p.1, p.2)) = replies.map fun p => (fds[p.1]?, p.2)) :
    textsTo fd sent = messages k replies := by
  induction sent generalizing replies with
  | nil =>
    obtain rfl : replies = [] := by simpa using located.symm
    rfl
  | cons p sent ih =>
    cases replies with
    | nil => cases located
    | cons q replies =>
      obtain ⟨⟨at_q, same⟩, rest⟩ : (some p.1 = fds[q.1]? ∧ p.2 = q.2) ∧
          sent.map (fun p => (some p.1, p.2)) = replies.map fun p => (fds[p.1]?, p.2) := by
            simpa using located
      have here : p.1 = fd ↔ q.1 = k := by
        constructor
        · rintro rfl
          obtain ⟨low, _⟩ := List.getElem?_eq_some_iff.mp at_q.symm
          exact (List.getElem?_inj low apart).mp (at_q.symm.trans there.symm)
        · rintro rfl
          exact Option.some.inj (at_q.trans there)
      have behind := ih rest
      rw [textsTo, messages] at behind ⊢
      by_cases mine : q.1 = k
      · simpa [mine, here.mpr mine, same] using behind
      · have other : p.1 ≠ fd := fun h => mine (here.mp h)
        simpa [mine, other] using behind

end Replies

section Sessions

/-- The server with the messages that it has read, and the descriptors that it has accepted. -/
structure Session where
  chat : Chat
  fds : List Int
  deriving DecidableEq, Repr

def step (s : Session) (c : Event × Storage) : Except Halt Session := do
  let chat ← MessageEchoes.step s.chat c
  let new := if s.chat.server.connections < chat.server.connections then [c.1.accepted] else []
  .ok ⟨chat, s.fds ++ new⟩

def start (listenFd : Int) (others : List Int) : Session :=
  ⟨MessageEchoes.start listenFd others, []⟩

/-- The kernel hands out descriptors that are not open, and `read` gives at most what it is asked
for. -/
def Legal (s : Session) (c : Event × Storage) : Prop :=
  ChatServer.Legal s.chat.server c.1 ∧ MessageEchoes.Legal s.chat c

instance (s : Session) (c : Event × Storage) : Decidable (Legal s c) :=
  inferInstanceAs (Decidable (_ ∧ _))

end Sessions

section Transcripts

variable {s t : Session} {e : Event} {c : Event × Storage} {u u' : Sockname} {fd listenFd : Int}
  {others : List Int} {wrote : Option CString} {heard : List (Nat × CString)}

/-- A slot that is called answers what its client says, if it says anything. -/
theorem readFrom_replies (call : Reads e) (h : ChatServer.readFrom e u = .ok (fd, u', wrote))
    (named : Named heard u) :
    repliesAfter heard (said e u) = wrote.toList.map (u.occupant, ·) := by
  obtain ⟨bytes, got, _⟩ := call.bytes
  unfold ChatServer.readFrom at h
  rw [Named] at named
  cases bytes with
  | nil =>
    cases hname : u.username with
    | none => simp [hname, got] at h
    | some name =>
      cases hreply : reply name.text e with
      | none => simp [hname, hreply] at h
      | some userBuf =>
        simp [hname, hreply, got] at h
        simp [← h.2.2, said, got, repliesAfter]
  | cons b bytes =>
    have what : said e u = [(u.occupant, message (b :: bytes))] := by simp [said, got]
    cases hname : u.username with
    | none =>
      have first : firstMessage heard u.occupant = none := by simpa [hname, eq_comm] using named
      have wrote_eq : wrote = some (message (b :: bytes)) := by
        cases hmalloc : e.allocated <;> cases hwritten : e.written <;>
          simp [hname, got, hmalloc, hwritten] at h
        · exact h.2.2.symm
        · exact h.2.2.symm
      simp [wrote_eq, what, repliesAfter, replyTo, first]
    | some name =>
      obtain ⟨first, known, rfl⟩ :
          ∃ first, firstMessage heard u.occupant = some first ∧ ⟨first, u.occupant⟩ = name := by
        simpa [hname, eq_comm] using named
      have wrote_eq : wrote = some (first ++ text ": " ++ message (b :: bytes)) := by
        cases hreply : reply first e with
        | none => simp [hname, hreply] at h
        | some userBuf =>
          have made : userBuf = first ++ text ": " ++ message (b :: bytes) := by
            simp only [reply, received, got] at hreply
            split at hreply
            · exact (Option.some.inj hreply).symm
            · cases hreply
          cases hwritten : e.written <;> simp [hname, hreply, got, hwritten] at h
          · rw [← h.2.2, made]
          · rw [← h.2.2, made]
      simp [wrote_eq, what, repliesAfter, replyTo, known]

/-- Every slot has the descriptor of its connection, and what was written was written there. -/
structure Told (s : Session) : Prop where
  kept : Kept s.chat
  counted : s.fds.length = s.chat.server.connections
  opened : ∀ fd ∈ s.fds, fd ∈ s.chat.server.openFds
  apart : s.fds.Nodup
  held : ∀ i : Fin MAX_CONNECTIONS, (s.chat.server.usernames.get i).sockFd ≠ -1 →
    s.fds[(s.chat.server.usernames.get i).occupant]? = some (s.chat.server.usernames.get i).sockFd
  located : s.chat.server.sent.map (fun p => (some p.1, p.2)) =
    (repliesAfter [] s.chat.heard).map fun p => (s.fds[p.1]?, p.2)

theorem told_start (listenFd : Int) (others : List Int) : Told (start listenFd others) where
  kept := kept_start listenFd others
  counted := rfl
  opened := by simp [start]
  apart := List.nodup_nil
  held := fun i taken => absurd (free_start i) taken
  located := rfl

/-- A client that is called is answered on its own descriptor. -/
theorem Told.visited {d : Chat} (told : Told s) (call : Reads e) {i : Fin MAX_CONNECTIONS}
    (here : s.chat.server.index = i) (h : ChatServer.visit e s.chat.server i = .ok d.server)
    (all : d.heard = s.chat.heard ++ saidNow e s.chat.server)
    (kept : Kept d) : Told ⟨d, s.fds⟩ := by
  have now : saidNow e s.chat.server =
      if Called s.chat.server i then said e (s.chat.server.usernames.get i) else [] := by
    have low : s.chat.server.index < MAX_CONNECTIONS := here ▸ i.isLt
    have same : (⟨s.chat.server.index, low⟩ : Fin MAX_CONNECTIONS) = i := Fin.ext here
    rw [saidNow, dif_pos low, same]
  obtain ⟨server, heard⟩ := d
  obtain rfl : heard = _ := all
  obtain ⟨quiet, rfl⟩ | ⟨called, fd, u', wrote, allFds, read, _, rfl⟩ := visit_cases h
  · have silent : ¬ Called s.chat.server i := quiet
    rw [now, if_neg silent, List.append_nil] at kept ⊢
    exact ⟨kept, told.counted, told.opened, told.apart, told.held, told.located⟩
  · have called : Called s.chat.server i := called
    have taken := called.taken
    have mine := told.held i taken
    have replied := readFrom_replies call read (told.kept.named i taken)
    obtain ⟨occupant, _, moved⟩ := readFrom_cases read
    rw [now, if_pos called] at kept ⊢
    refine ⟨kept, told.counted, told.opened, told.apart, ?_, ?_⟩
    · intro j there
      have slot : (s.chat.server.usernames.set i u').get j = if j = i then u'
        else s.chat.server.usernames.get j :=
        getElem_set_fin _ i j u'
      simp only [slot] at there ⊢
      by_cases same : j = i
      · simp only [if_pos same] at there ⊢
        rcases moved with ⟨_, stays⟩ | ⟨_, _, gone⟩
        · exact (congrArg (s.fds[·]?) occupant).trans (mine.trans (congrArg some stays.symm))
        · exact absurd gone there
      · simp only [if_neg same] at there ⊢
        exact told.held j there
    · simp only [List.map_append, told.located, repliesAfter_append, List.nil_append,
        List.append_cancel_left_eq]
      refine Eq.trans ?_ (congrArg (List.map fun p => (s.fds[p.1]?, p.2)) replied).symm
      cases wrote with
      | none => rfl
      | some w => exact congrArg (fun fd => [(fd, w)]) mine.symm

/-- A connection that is accepted gets the next number and a descriptor of its own. -/
theorem Told.accepted {d : Chat} (told : Told s) (fresh : e.accepted ∉ s.chat.server.openFds)
    (h : ChatServer.selectRound e s.chat.server = .ok d.server) (quiet : d.heard = s.chat.heard)
    (kept : Kept d) :
    Told ⟨d,
      s.fds ++ if s.chat.server.connections < d.server.connections then [e.accepted] else []⟩ := by
  obtain ⟨server, heard⟩ := d
  obtain rfl : heard = _ := quiet
  obtain ⟨listenFds, rfl | ⟨i, free, low, _, rfl⟩⟩ := selectRound_cases h
  · simp only [lt_irrefl, if_false, List.append_nil]
    exact ⟨kept, told.counted, told.opened, told.apart, told.held, told.located⟩
  · have one := Nat.lt_succ_self s.chat.server.connections
    simp only [if_pos one]
    have old : ∀ k < s.chat.server.connections, (s.fds ++ [e.accepted])[k]? = s.fds[k]? :=
      fun k low =>
      List.getElem?_append_left (told.counted.symm ▸ low)
    refine ⟨kept, by simp [told.counted], ?_, ?_, ?_, ?_⟩
    · intro fd mem
      rcases List.mem_append.mp mem with before | new
      · exact List.mem_cons_of_mem _ (told.opened fd before)
      · obtain rfl := List.mem_singleton.mp new
        exact List.mem_cons_self
    · refine told.apart.append (List.nodup_singleton _) ?_
      rw [List.disjoint_singleton]
      exact fun mem => fresh (told.opened _ mem)
    · intro j there
      have slot :
          (s.chat.server.usernames.set i ⟨e.accepted, none, s.chat.server.connections⟩).get j =
          if j = i then ⟨e.accepted, none, s.chat.server.connections⟩
            else s.chat.server.usernames.get j :=
        getElem_set_fin _ i j _
      simp only [slot] at there ⊢
      by_cases same : j = i
      · simp [if_pos same, ← told.counted]
      · simp only [if_neg same] at there ⊢
        rw [old _ (told.kept.counted j there)]
        exact told.held j there
    · refine told.located.trans (List.map_congr_left fun p mem => ?_)
      obtain ⟨q, heard, same⟩ := mem_replies mem
      rw [old p.1 (same ▸ (told.kept.spoken q heard).1)]

theorem Told.step (told : Told s) (legal : Legal s c) (h : ChatTranscripts.step s c = .ok t) :
    Told t := by
  obtain ⟨chat, taken, h⟩ := bind_ok_iff.mp h
  obtain rfl := Except.ok.inj h
  have kept := told.kept.step taken
  obtain ⟨server, moved, taken⟩ := bind_ok_iff.mp (guarded_ok_iff.mp taken).2
  obtain rfl := Except.ok.inj taken
  by_cases low : s.chat.server.index < MAX_CONNECTIONS
  · rw [step_visit (i := ⟨s.chat.server.index, low⟩) rfl] at moved
    have same : server.connections = s.chat.server.connections := (visit_slots moved).1
    simp only [same, lt_irrefl, if_false, List.append_nil]
    exact told.visited (legal.2 low) rfl moved rfl kept
  · have idle := Nat.le_of_not_lt low
    rw [step_select idle] at moved
    have quiet : s.chat.heard ++ saidNow c.1 s.chat.server = s.chat.heard := by
      rw [saidNow, dif_neg low, List.append_nil]
    exact told.accepted (legal.1 idle) moved quiet kept

end Transcripts

section Results

variable {s : Session} {listenFd : Int} {others : List Int}

/-- A round of the loop in which one slot is called. -/
def turn (fd : Int) (slot : Nat) (bytes : CString) : List (Event × Storage) :=
  (selects fd (-1), zeros) ::
    (List.replicate MAX_CONNECTIONS (reads [], zeros)).set slot (reads bytes, zeros)

/-- Two clients connect, and the first one speaks before and behind the other. -/
def talk : List (Event × Storage) :=
  (selects 3 4, zeros) :: List.replicate MAX_CONNECTIONS (reads [], zeros) ++
    ((selects 3 5, zeros) :: List.replicate MAX_CONNECTIONS (reads [], zeros)) ++
    turn 4 0 (text "ann\n") ++ turn 5 1 (text "bob\n") ++ turn 4 0 (text "hi\n")

end Results

end ChatTranscripts
