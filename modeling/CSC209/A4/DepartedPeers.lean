import CSC209.A4.ServerInvariant

/-!
# Peers that have closed their connection

A `read` that returns 0 says that the peer is gone. `handle_client` adds the 0
to `inbuf` and goes on, so that the client is never taken for departed: it
stays in the list, its descriptor stays active, and later steps of other
clients go on writing to it.
-/

namespace HelpServer

open CStrings HelpQueue InputBuffer HaltingRuns

/-- The client reads in this turn, and the read returns 0. -/
structure EndOfFile (s : Server) (e : Event) (c : Client) : Prop where
  turn : served s = some c
  stays : c.state ≠ .disconnect
  room : c.input.inbuf < INPUT_BUFFER_SIZE
  nothing : e.bytes = some []

instance (s : Server) (e : Event) (c : Client) : Decidable (EndOfFile s e c) :=
  decidable_of_iff (served s = some c ∧ c.state ≠ .disconnect ∧ c.input.inbuf < INPUT_BUFFER_SIZE ∧
      e.bytes = some [])
    ⟨fun ⟨h1, h2, h3, h4⟩ => ⟨h1, h2, h3, h4⟩, fun h => ⟨h.1, h.2, h.3, h.4⟩⟩

/-- After the call the client and its entries are gone, and no later step writes to its
socket or hands its student to a TA. -/
def Departed (s : Server) (e : Event) (c : Client) : Prop :=
  ∃ t, s.step e = .ok t ∧ (∀ d ∈ t.clientList, d.id ≠ c.id) ∧ c.socket ∉ t.activeFdSet ∧
    (∀ x ∈ t.queue.stuList, c.entry ≠ some x.id) ∧ (∀ a ∈ t.queue.taList, c.taEntry ≠ some a.id) ∧
    ∀ u, Reachable Server.step Legal t u →
      (u.sent.filter fun m => m.1 = c.id) = (t.sent.filter fun m => m.1 = c.id) ∧
      ∀ a ∈ u.queue.taList, ∀ x, a.currentStudent = some x → c.entry = some x.id →
        ∃ b ∈ t.queue.taList, b.id = a.id ∧ b.currentStudent = some x

/-- The step of a client whose read returns 0 leaves its node in the list. -/
theorem departed_never {s : Server} {e : Event} {c : Client} (eof : EndOfFile s e c) :
    ¬ Departed s e c := by
  rintro ⟨t, ht, gone, _⟩
  obtain ⟨fd, rest, hr, hl, hf⟩ := served_some eof.turn
  have heard : reads s e = some (c, c.input.received []) := by
    simp [reads, eof.turn, eof.stays, Nat.not_le.mpr eof.room, eof.nothing]
  obtain ⟨hc, _⟩ := findClient_mem hf
  have hk : c.key ∈ t.clientList.map Client.key :=
    keys_of_reads ht heard ▸ List.mem_map_of_mem hc
  obtain ⟨d, hd, same⟩ := List.mem_map.mp hk
  exact gone d hd (congrArg Prod.fst same)

/-- A client that has connected and whose peer closes the connection at once. -/
def closesAtOnce : List Event :=
  connects 4 ++ [{ quiet with ready := some [4] }]

theorem closesAtOnce_eof : ∃ s, run Server.step (start 3) closesAtOnce = .ok s ∧
    ∃ c ∈ s.clientList, EndOfFile s quiet c :=
  exists_of_run (by decide)

theorem departed_never_at_once : ∃ s, run Server.step (start 3) closesAtOnce = .ok s ∧
    ∃ c ∈ s.clientList, EndOfFile s quiet c ∧ ¬ Departed s quiet c := by
  obtain ⟨s, hrun, c, hc, eof⟩ := closesAtOnce_eof
  exact ⟨s, hrun, c, hc, eof, departed_never eof⟩

/-- The descriptor of a client whose peer is gone stays in `active_fd_set`. -/
theorem departure_unnoticed : ¬ ∀ (listenFd : Int) (s : Server),
    Reachable Server.step Legal (start listenFd) s →
    ∀ e c, Legal s e → EndOfFile s e c → Departed s e c := by
  intro always
  obtain ⟨s, hrun, c, hc, eof, stays⟩ : ∃ s, run Server.step (start 3) closesAtOnce = .ok s ∧
      ∃ c ∈ s.clientList, EndOfFile s quiet c ∧
        (∀ t ∈ (s.step quiet).toOption, c.socket ∈ t.activeFdSet) := exists_of_run (by decide)
  have reach : Reachable Server.step Legal (start 3) s := reachable_of_run (by decide) hrun
  obtain ⟨t, ht, _, inactive, _⟩ := always 3 s reach quiet c (Or.inl (by decide)) eof
  exact inactive (stays t (by simp [ht, Except.toOption]))

end HelpServer
