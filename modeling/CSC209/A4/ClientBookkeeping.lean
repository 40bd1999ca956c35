import CSC209.A4.ServerInvariant

/-!
# The client list and the descriptors

`remove_client` unlinks a client only from the head of the list; behind the
head the freed node stays linked. It also frees the name of a client that never
gave one. Along a run, list and descriptor set agree as they should exactly as
long as every client that leaves is the head and has a name, and no descriptor
is too large for the set.
-/

namespace HelpServer

open CStrings HelpQueue InputBuffer HaltingRuns

/-- The list, the active descriptors and the connections of the kernel fit together. -/
structure Bookkeeping (s : Server) : Prop where
  live : ∀ c ∈ s.clientList, c.freed = false
  sockets : (s.clientList.map Client.socket).Nodup
  listening : s.listenFd ∉ s.clientList.map Client.socket
  active : ∀ fd, fd ∈ s.activeFdSet ↔ fd = s.listenFd ∨ fd ∈ s.clientList.map Client.socket
  found : ∀ fd ∈ s.activeFdSet, fd ≠ s.listenFd →
    ∃ c, findClient fd s.clientList = .ok (some c) ∧ (fd, c.id) ∈ s.openFds

/-- The step leads to a state in order, and a removal takes out that client and no other. A removal
or an `accept` whose behaviour is undefined does not. -/
structure KeepsBooks (s : Server) (e : Event) : Prop where
  kept : ∀ t, s.step e = .ok t → Bookkeeping t ∧
    ∀ c, removed s = some c → t.clientList = s.clientList.filter fun d => d.id ≠ c.id
  removes : ∀ c h, removed s = some c → s.step e = .error h → h = .exit
  accepts : ∀ rest h, s.readFdSet = s.listenFd :: rest → s.step e = .error h → h = .exit

/-- A client that leaves has given its name and is the head of the list, and the descriptor of a new
client has a place in the set. Where the kernel refuses the `close` or the welcome message, the
server exits. -/
structure KeepsOrder (s : Server) (e : Event) : Prop where
  named : ∀ c, removed s = some c → c.name ≠ none
  head : ∀ c, removed s = some c → e.closes = true → s.clientList.head? = some c
  range : ∀ rest, s.readFdSet = s.listenFd :: rest → 0 ≤ e.accepted →
    e.writes e.accepted = true → e.accepted < FD_SETSIZE

section Books

variable {s t : Server} {e : Event}

theorem findClient_live {l : List Client} (live : ∀ c ∈ l, c.freed = false) {c : Client}
    (hc : c ∈ l) :
    ∃ d, findClient c.socket l = .ok (some d) := by
  induction l with
  | nil => cases hc
  | cons a rest ih =>
    have ha : ¬ a.freed = true := by simp [live a List.mem_cons_self]
    unfold findClient
    rw [if_neg ha]
    by_cases here : a.socket = c.socket
    · exact ⟨a, if_pos here⟩
    · have tail : c ∈ rest := by
        rcases List.mem_cons.mp hc with rfl | h
        · exact absurd rfl here
        · exact h
      obtain ⟨d, hd⟩ := ih (fun b hb => live b (List.mem_cons_of_mem a hb)) tail
      exact ⟨d, by rw [if_neg here]; exact hd⟩

/-- Once no freed node is linked, the rest of the bookkeeping follows from the invariant. -/
theorem bookkeeping_of_live (inv : Inv s) (live : ∀ c ∈ s.clientList, c.freed = false) :
    Bookkeeping s := by
  have opened : ∀ c ∈ s.clientList, (c.socket, c.id) ∈ s.openFds := fun c hc =>
    (inv.connected c.socket c.id).mpr ⟨c, hc, live c hc, rfl, rfl⟩
  refine ⟨live, ?_, ?_, ?_, ?_⟩
  · refine List.Nodup.map_on ?_ inv.ids.of_map
    intro c hc d hd same
    have := List.inj_on_of_nodup_map inv.sockets (opened c hc) (opened d hd) same
    exact client_unique inv.ids hd hc (congrArg Prod.snd this)
  · intro hm
    obtain ⟨c, hc, same⟩ := List.mem_map.mp hm
    exact inv.listening _ (opened c hc) same
  · intro fd
    rw [inv.active]
    constructor
    · rintro (rfl | ⟨⟨a, i⟩, ho, rfl⟩)
      · exact Or.inl rfl
      · obtain ⟨c, hc, _, hs, _⟩ := (inv.connected a i).mp ho
        exact Or.inr (List.mem_map.mpr ⟨c, hc, hs⟩)
    · rintro (rfl | hm)
      · exact Or.inl rfl
      · obtain ⟨c, hc, rfl⟩ := List.mem_map.mp hm
        exact Or.inr ⟨_, opened c hc, rfl⟩
  · intro fd hfd hl
    obtain ⟨⟨a, i⟩, ho, rfl⟩ := ((inv.active fd).mp hfd).resolve_left hl
    obtain ⟨c, hc, _, rfl, _⟩ := (inv.connected a i).mp ho
    obtain ⟨d, hd⟩ := findClient_live live hc
    obtain ⟨hm, _⟩ := findClient_mem hd
    exact ⟨d, hd, findClient_socket hd ▸ opened d hm⟩

theorem live_of_keys (keys : t.clientList.map Client.key = s.clientList.map Client.key)
    (live : ∀ d ∈ s.clientList, d.freed = false) : ∀ d ∈ t.clientList, d.freed = false := by
  intro d hd
  have hk : d.key ∈ s.clientList.map Client.key := keys ▸ List.mem_map_of_mem hd
  obtain ⟨a, ha, same⟩ := List.mem_map.mp hk
  have hf : a.freed = d.freed := congrArg (fun k => k.2.2) same
  exact hf ▸ live a ha

/-- The head is unlinked properly, and its number is not found behind it. -/
theorem remaining_head {fd : Int} {c : Client} (ids : (s.clientList.map Client.id).Nodup)
    (hf : findClient fd s.clientList = .ok (some c)) (first : s.clientList.head? = some c) :
    (∀ d ∈ remaining s c, d ∈ s.clientList) ∧
      remaining s c = s.clientList.filter fun d => d.id ≠ c.id := by
  obtain ⟨before, after, hl, hnew⟩ := remaining_split hf ids
  rw [hl] at first ids
  rcases hnew with ⟨rfl, hnew⟩ | ⟨front, _⟩
  · have later := (List.nodup_cons.mp ids).1
    rw [hl, hnew]
    refine ⟨fun d hd => List.mem_cons_of_mem c hd, ?_⟩
    rw [List.nil_append, List.filter_cons_of_neg (by simp)]
    refine (List.filter_eq_self.mpr fun d hd => ?_).symm
    simp only [decide_eq_true_eq]
    exact fun same => later (same ▸ List.mem_map_of_mem hd)
  · obtain ⟨b, rest, rfl⟩ := List.exists_cons_of_ne_nil front
    obtain rfl : b = c := by simpa using first
    simp at ids

/-- With the books in order, an `accept` is undefined only outside the range of the set. -/
theorem accept_exits (books : Bookkeeping s) {rest : List Int}
    (hr : s.readFdSet = s.listenFd :: rest) : (∀ h, s.step e = .error h → h = .exit) ↔
      (0 ≤ e.accepted → e.writes e.accepted = true → e.accepted < FD_SETSIZE) := by
  have clean : ¬ s.clientList.any Client.freed = true := by simpa using books.live
  have turn : s.step e = (({ s with readFdSet := rest } : Server).addClient e e.accepted >>=
      fun u => u.fdSet e.accepted) := by
    rw [Server.step, hr]
    exact if_pos rfl
  rw [turn, Server.addClient, if_neg clean, Server.write]
  by_cases written : 0 ≤ e.accepted ∧ e.writes e.accepted = true
  · rw [if_pos written]
    by_cases range : e.accepted < FD_SETSIZE
    · simp [Server.fdSet, written, range, bind, Except.bind]
    · simp [Server.fdSet, written, range, bind, Except.bind]
  · rw [if_neg written]
    refine iff_of_true (fun h stops => ?_) fun low allowed => absurd ⟨low, allowed⟩ written
    cases stops
    rfl

/-- The removal of a named client can only exit; that of an unnamed one frees what is no name. -/
theorem removal_exits (gone : removed s = some c) :
    (∀ h, s.step e = .error h → h = .exit) ↔ c.name ≠ none := by
  obtain ⟨fd, rest, _, hf, turn⟩ := step_removal (e := e) gone
  rw [turn]
  cases hn : c.name with
  | none =>
    have unset : c.useName = .error .unsetName := by rw [Client.useName, hn]
    have stops : ({ s with readFdSet := rest } : Server).removeClient e fd = .error .unsetName := by
      cases ht : c.type <;>
        simp [Server.removeClient, Server.cleanUp, hf, ht, unset, bind, Except.bind]
    refine iff_of_false (fun exits => ?_) (not_not.mpr rfl)
    cases exits _ stops
  | some name =>
    refine iff_of_true (fun h stops => ?_) (by simp)
    simp only [Server.removeClient, hf, cleanUp_ok hn, useName_ok.mpr hn, bind, Except.bind]
      at stops
    split at stops
    · cases stops
    · exact (Except.error.inj stops).symm

/-- A client that is unlinked and leaves no freed node behind was the head of the list. -/
theorem head_of_live (inv : Inv s) (gone : removed s = some c) (ht : s.step e = .ok t)
    (live : ∀ d ∈ t.clientList, d.freed = false) : s.clientList.head? = some c := by
  cases outcome_of_step ht with
  | removed fd rest d name queue hr hl hf gone' =>
    obtain rfl : d = c := Option.some.inj (gone'.symm.trans gone)
    obtain ⟨before, after, hlist, hnew⟩ := remaining_split hf inv.ids
    rcases hnew with ⟨rfl, _⟩ | ⟨_, hnew⟩
    · rw [hlist]
      rfl
    · have stale : { d with freed := true } ∈ remaining s d := by rw [hnew]; simp
      exact absurd (live _ stale) (by simp)
  | selected ready hr => simp [removed_of_empty hr] at gone
  | accepted rest client hr => simp [removed_of_listening hr] at gone
  | waited fd rest d input hr hl hf heard => simp [removed_of_reads heard] at gone
  | executed fd rest d input w u hr hl hf heard => simp [removed_of_reads heard] at gone

theorem kept_of_head (inv : Inv s) (books : Bookkeeping s) (legal : Legal s e)
    (head : ∀ c, removed s = some c → e.closes = true → s.clientList.head? = some c)
    (ht : s.step e = .ok t) : Bookkeeping t ∧
      ∀ c, removed s = some c → t.clientList = s.clientList.filter fun d => d.id ≠ c.id := by
  have inv' := inv.step legal ht
  have idle : removed s = none → (∀ c ∈ t.clientList, c.freed = false) → Bookkeeping t ∧
      ∀ c, removed s = some c → t.clientList = s.clientList.filter fun d => d.id ≠ c.id := by
    intro stays live
    refine ⟨bookkeeping_of_live inv' live, fun c gone => ?_⟩
    rw [stays] at gone
    cases gone
  cases outcome_of_step ht with
  | selected ready hr => exact idle (removed_of_empty hr) books.live
  | accepted rest client hr live low high new =>
    refine idle (removed_of_listening hr) fun c hc => ?_
    rcases List.mem_append.mp hc with hc | hc
    · exact books.live c hc
    · rw [List.mem_singleton.mp hc, new]
  | removed fd rest c name queue hr hl hf gone closes hn hq =>
    obtain ⟨sub, others⟩ := remaining_head inv.ids hf (head c gone closes)
    refine ⟨bookkeeping_of_live inv' fun d hd => books.live d (sub d hd), fun d gone' => ?_⟩
    obtain rfl : c = d := Option.some.inj (gone.symm.trans gone')
    exact others
  | waited fd rest c input hr hl hf heard =>
    exact idle (removed_of_reads heard) (live_of_keys (setInput_keys _) books.live)
  | executed fd rest c input w u hr hl hf heard hw hle hexec =>
    have live := live_of_keys hexec.keys books.live
    exact idle (removed_of_reads heard) (live_of_keys (setInput_keys _) live)

theorem keepsBooks_iff (inv : Inv s) (books : Bookkeeping s) (legal : Legal s e) :
    KeepsBooks s e ↔ KeepsOrder s e := by
  constructor
  · intro keeps
    have named := fun c gone => (removal_exits gone).mp fun h => keeps.removes c h gone
    refine ⟨named, fun c gone closes => ?_, fun rest hr => ?_⟩
    · obtain ⟨name, hn⟩ := Option.ne_none_iff_exists'.mp (named c gone)
      obtain ⟨t, ht⟩ := step_removed gone hn closes
      exact head_of_live inv gone ht (keeps.kept t ht).1.live
    · exact (accept_exits books hr).mp fun h => keeps.accepts rest h hr
  · intro order
    refine ⟨fun t ht => kept_of_head inv books legal order.head ht, fun c h gone => ?_, ?_⟩
    · exact (removal_exits gone).mpr (order.named c gone) h
    · exact fun rest h hr => (accept_exits books hr).mpr (order.range rest hr) h

end Books

/-- Two clients, of which the second asks about an unknown course and is then removed. -/
def secondLeaves : List Event :=
  connects 4 ++ connects 5 ++ sends 5 (text "Bo") ++ sends 5 (text "S") ++ sends 5 (text "CSC1") ++
    visits 5 quiet

end HelpServer
