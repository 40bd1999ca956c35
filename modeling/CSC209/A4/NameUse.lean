import CSC209.A4.ServerInvariant

/-!
# Uses of names that were never assigned

`client->name` is assigned by a client's first line. Two places can come before
it: the removal of a client that overruns its buffer without having sent a line,
and the scan of `find_client_student` over all clients. Everywhere else the
protocol state implies that the name is set. A search that comes to a freed
node goes on with whatever is there, so it counts as a use of an unset name
too. The walk of `add_client` to the end of the list is no such search.
-/

namespace HelpServer

open CStrings HelpQueue InputBuffer HaltingRuns

/-- The next step is an `accept`. -/
def Accepts (s : Server) : Prop := ∃ rest, s.readFdSet = s.listenFd :: rest

/-- The step uses no unset name, and no search comes to a freed node, where any name may be. -/
def NamesSet (s : Server) (e : Event) : Prop :=
  s.step e ≠ .error .unsetName ∧ (s.step e = .error .freedClient → Accepts s)

/-- Every node of the second kind has one of the first kind somewhere in front of it. -/
def Shielded (stop bad : Client → Prop) (l : List Client) : Prop :=
  ∀ before u after, l = before ++ u :: after → bad u → ∃ b ∈ before, stop b

/-- A TA's `next` meets the name of the head of the queue before any node that is freed or
unnamed. -/
def ScanEnds (s : Server) (e : Event) : Prop :=
  ∀ c x rest, line s e = some (c, text "next") → c.state = .waitingTCommand →
    s.queue.stuList = x :: rest →
    Shielded (fun c => c.name = some x.name) (fun c => c.freed = true ∨ c.state = .waitingName)
      s.clientList

/-- No freed node is linked in front of the client that is looked for; no unnamed client is
removed; and a scan for a student ends in time. -/
structure NamesKnown (s : Server) (e : Event) : Prop where
  visit : ∀ fd rest, s.readFdSet = fd :: rest → fd ≠ s.listenFd →
    Shielded (fun c => c.socket = fd) (fun c => c.freed = true) s.clientList
  removal : ∀ c, removed s = some c → c.state ≠ .waitingName
  scan : ScanEnds s e

section Walks

variable {stop bad : Client → Prop} {c : Client} {l : List Client} {x : Student} {fd : Int}

theorem shielded_nil : Shielded stop bad [] := by
  intro before u after split
  simp at split

/-- A walk goes on from a node of neither kind. -/
theorem shielded_cons :
    Shielded stop bad (c :: l) ↔ ¬ bad c ∧ (stop c ∨ Shielded stop bad l) := by
  constructor
  · intro shielded
    refine ⟨fun first => ?_, ?_⟩
    · obtain ⟨b, hb, _⟩ := shielded [] c l rfl first
      cases hb
    · by_cases here : stop c
      · exact Or.inl here
      · refine Or.inr fun before u after split hu => ?_
        obtain ⟨b, hb, ends⟩ := shielded (c :: before) u after (by rw [split]; rfl) hu
        rcases List.mem_cons.mp hb with rfl | hb
        · exact absurd ends here
        · exact ⟨b, hb, ends⟩
  · rintro ⟨good, later⟩ before u after split hu
    cases before with
    | nil =>
      obtain ⟨rfl, _⟩ := List.cons.inj split
      exact absurd hu good
    | cons b before =>
      obtain ⟨rfl, rfl⟩ := List.cons.inj split
      rcases later with here | later
      · exact ⟨c, List.mem_cons_self, here⟩
      · obtain ⟨d, hd, ends⟩ := later before u after rfl hu
        exact ⟨d, List.mem_cons_of_mem c hd, ends⟩

theorem Shielded.imp {bad' : Client → Prop} (shielded : Shielded stop bad l)
    (sub : ∀ c ∈ l, bad' c → bad c) : Shielded stop bad' l := by
  intro before u after split hu
  exact shielded before u after split (sub u (by rw [split]; simp) hu)

/-- The computation comes to an unset name or to a freed node. -/
def Strays {α : Type} (x : Except Halt α) : Prop :=
  x = .error .unsetName ∨ x = .error .freedClient

theorem strays_bind {α β : Type} {x : Except Halt α} {f : α → Except Halt β} :
    Strays (x >>= f) ↔ Strays x ∨ ∃ a, x = .ok a ∧ Strays (f a) := by
  cases x with
  | error h => simp [Strays, bind, Except.bind]
  | ok a => simp [Strays, bind, Except.bind]

@[simp] theorem not_strays_ok {α : Type} (a : α) : ¬ Strays (Except.ok a : Except Halt α) := by
  simp [Strays]

theorem not_strays_map {x : Except Halt Server} {f : Server → Server} (h : ¬ Strays x) :
    ¬ Strays (x >>= fun u => .ok (f u)) := by
  intro strays
  rcases strays_bind.mp strays with strays | ⟨u, _, strays⟩
  · exact h strays
  · exact not_strays_ok _ strays

theorem findClient_strays : Strays (findClient fd l) ↔
    ¬ Shielded (fun c => c.socket = fd) (fun c => c.freed = true) l := by
  induction l with
  | nil => simp [findClient, shielded_nil]
  | cons c rest ih =>
    rw [shielded_cons, findClient]
    by_cases freed : c.freed = true
    · simp [freed, Strays]
    by_cases here : c.socket = fd
    · simp [freed, here]
    · rw [if_neg freed, if_neg here, ih]
      simp [freed, here]

theorem findClient_error {h : Halt} (hf : findClient fd l = .error h) : h = .freedClient := by
  induction l with
  | nil => cases hf
  | cons c rest ih =>
    unfold findClient at hf
    split at hf
    · exact (Except.error.inj hf).symm
    split at hf
    · cases hf
    · exact ih hf

/-- The scan over the clients ends well exactly when it ends before any unset name. -/
theorem findClientStudent_strays : Strays (findClientStudent x l) ↔
    ¬ Shielded (fun c => c.name = some x.name) (fun c => c.freed = true ∨ c.name = none) l := by
  induction l with
  | nil => simp [findClientStudent, shielded_nil]
  | cons c rest ih =>
    rw [shielded_cons, findClientStudent]
    by_cases freed : c.freed = true
    · simp [freed, Strays]
    rw [if_neg freed]
    cases hn : c.name with
    | none => simp [Strays]
    | some name =>
      by_cases here : name = x.name
      · simp [freed, here]
      · simp [freed, here, ih]

end Walks

section Faults

variable {s : Server} {e : Event} {c : Client} {fd : Int}

theorem not_strays_write {msg : CString} : ¬ Strays (s.write e c msg) := by
  rintro (hw | hw) <;> cases write_error hw

theorem callStudent_strays : Strays (s.callStudent e) ↔
    ∃ x rest, s.queue.stuList = x :: rest ∧ Strays (findClientStudent x s.clientList) := by
  unfold Server.callStudent
  cases hq : s.queue.stuList with
  | nil => simp
  | cons x rest =>
    rw [strays_bind]
    constructor
    · rintro (hf | ⟨found, hf, hcall⟩)
      · exact ⟨x, rest, rfl, hf⟩
      · cases found with
        | none => simp [Strays] at hcall
        | some toServe => exact absurd hcall (not_strays_map not_strays_write)
    · rintro ⟨y, later, heq, hf⟩
      obtain ⟨rfl, rfl⟩ := List.cons.inj heq
      exact Or.inl hf

/-- A command of a client whose fields fit its state goes astray only in the scan. -/
theorem execute_strays {command : CString} (here : c.Consistent) :
    Strays (s.execute e c command) ↔
      c.state = .waitingTCommand ∧ command = text "next" ∧ Strays (s.callStudent e) := by
  unfold Server.execute
  cases hs : c.state with
  | waitingName =>
    simp only [reduceCtorEq, false_and, iff_false]
    exact not_strays_map not_strays_write
  | waitingType =>
    obtain ⟨name, hn⟩ := here.some_name (by simp [hs])
    simp only [reduceCtorEq, false_and, iff_false]
    split
    · exact not_strays_map not_strays_write
    split
    · simp only [useName_ok.mpr hn]
      exact not_strays_map not_strays_write
    · exact not_strays_write
  | waitingSCourse =>
    obtain ⟨name, hn⟩ := here.some_name (by simp [hs])
    simp only [reduceCtorEq, false_and, iff_false]
    split
    · simp only [useName_ok.mpr hn]
      exact not_strays_map not_strays_write
    · exact not_strays_map not_strays_write
  | waitingSCommand =>
    simp only [reduceCtorEq, false_and, iff_false]
    split <;> exact not_strays_write
  | waitingTCommand =>
    obtain ⟨name, hn⟩ := here.some_name (by simp [hs])
    simp only [true_and]
    split
    · rename_i stats
      have other : command ≠ text "next" := fun hc => absurd (stats.symm.trans hc) (by decide)
      simp only [other, false_and, iff_false]
      exact not_strays_write
    split
    · rename_i next
      simp only [next, true_and, useName_ok.mpr hn]
      constructor
      · intro h
        rcases strays_bind.mp h with h | ⟨u, _, h⟩
        · exact h
        · exact absurd h (not_strays_ok _)
      · exact fun h => strays_bind.mpr (Or.inl h)
    · rename_i other
      simp only [other, false_and, iff_false]
      exact not_strays_write
  | disconnect => simp

theorem removeClient_strays (hf : findClient fd s.clientList = .ok (some c))
    (here : c.Consistent) : Strays (s.removeClient e fd) ↔ c.state = .waitingName := by
  rw [← here.named]
  cases hn : c.name with
  | none =>
    have untyped := here.untyped (Or.inl (here.named.mp hn))
    have fault : c.useName = .error .unsetName := by rw [Client.useName, hn]
    simp [Server.removeClient, hf, Server.cleanUp, untyped, fault, bind, Except.bind, Strays]
  | some name =>
    simp only [Server.removeClient, hf, cleanUp_ok hn, useName_ok.mpr hn, bind, Except.bind]
    split <;> simp [Strays]

/-- A new client is linked behind the last one; no name is looked at. -/
theorem names_of_accepts (accepts : Accepts s) :
    s.step e ≠ .error .unsetName ∧ NamesKnown s e := by
  obtain ⟨rest, hr⟩ := accepts
  constructor
  · simp only [Server.step, hr, Server.serve, if_true]
    intro unset
    rcases bind_error_iff.mp unset with failed | ⟨u, _, failed⟩
    · unfold Server.addClient at failed
      split at failed
      · cases failed
      · cases write_error failed
    · unfold Server.fdSet at failed
      split at failed <;> cases failed
  · refine ⟨fun fd later visits other => ?_, ?_, ?_⟩
    · exact absurd (List.cons.inj (visits.symm.trans hr)).1 other
    · simp [removed_of_listening hr]
    · simp [ScanEnds, line, reads, served, hr]

/-- At a client that is found, only its removal and the scan are left to go wrong. -/
theorem namesKnown_iff_found {rest : List Int} (hr : s.readFdSet = fd :: rest)
    (hf : findClient fd s.clientList = .ok (some c)) :
    NamesKnown s e ↔ (∀ d, removed s = some d → d.state ≠ .waitingName) ∧ ScanEnds s e := by
  constructor
  · exact fun known => ⟨known.removal, known.scan⟩
  · rintro ⟨removal, scan⟩
    refine ⟨fun a later visits _ => ?_, removal, scan⟩
    obtain ⟨rfl, _⟩ := List.cons.inj (hr.symm.trans visits)
    by_contra exposed
    have strays := findClient_strays.mpr exposed
    rw [hf] at strays
    exact not_strays_ok _ strays

/-- The visit to a client that is found. -/
theorem visit_strays (inv : Inv s) {rest : List Int} (hr : s.readFdSet = fd :: rest)
    (hl : fd ≠ s.listenFd) (hf : findClient fd s.clientList = .ok (some c)) :
    Strays (if c.state = .disconnect then ({ s with readFdSet := rest } : Server).removeClient e fd
      else ({ s with readFdSet := rest } : Server).handleClient e c) ↔ ¬ NamesKnown s e := by
  have turn := served_eq hr hl hf
  have here := inv.consistent c (findClient_mem hf).1
  have gone : removed s = some c →
      ((∀ d, removed s = some d → d.state ≠ .waitingName) ∧ ScanEnds s e ↔
          c.state ≠ .waitingName) := by
    intro removal
    simp [removal, ScanEnds, line_of_removed removal]
  rw [namesKnown_iff_found hr hf]
  by_cases left : c.state = .disconnect
  · have removal : removed s = some c := removed_eq hr hl hf (Or.inl left)
    rw [if_pos left, gone removal, not_not]
    exact removeClient_strays (s := { s with readFdSet := rest }) hf here
  rw [if_neg left, Server.handleClient]
  by_cases room : c.input.inbuf < INPUT_BUFFER_SIZE
  · have stays : removed s = none := by simp [removed, turn, left, room]
    rw [if_pos room]
    cases hb : e.bytes with
    | none =>
      refine iff_of_false (by simp [Strays]) (not_not.mpr ⟨by simp [stays], ?_⟩)
      simp [ScanEnds, line, reads, turn, hb]
    | some bytes =>
    dsimp only
    generalize hi : c.input.received (bytes.take c.input.room.toNat) = input
    have heard : reads s e = some (c, input) := by
      simp [reads, turn, left, Nat.not_le.mpr room, hb, hi]
    cases hw : input.newline with
    | none =>
      refine iff_of_false (by simp) (not_not.mpr ⟨by simp [stays], ?_⟩)
      simp [ScanEnds, line, heard, hw]
    | some w =>
      have said : line s e = some (c, input.command w) := by simp [line, heard, hw]
      have named : ∀ d ∈ s.clientList, (d.freed = true ∨ d.name = none ↔
          d.freed = true ∨ d.state = .waitingName) := fun d hd =>
        or_congr_right (inv.consistent d hd).named
      have strays : ∀ x, Strays (findClientStudent x s.clientList) ↔
          ¬ Shielded (fun c => c.name = some x.name)
            (fun c => c.freed = true ∨ c.state = .waitingName) s.clientList := fun x => by
        rw [findClientStudent_strays, not_iff_not]
        exact ⟨fun h => h.imp fun d hd => (named d hd).mpr,
          fun h => h.imp fun d hd => (named d hd).mp⟩
      have after : ∀ u : Server, ¬ Strays (if input.inbuf < w then .error .badLength
          else .ok (u.setInput c (input.shifted w).pointed) : Except Halt Server) := fun u => by
        split <;> simp [Strays]
      have only : Strays (({ s with readFdSet := rest } : Server).execute e c (input.command w) >>=
          fun u => if input.inbuf < w then .error .badLength
            else .ok (u.setInput c (input.shifted w).pointed)) ↔
          Strays (({ s with readFdSet := rest } : Server).execute e c (input.command w)) := by
        rw [strays_bind]
        refine or_iff_left ?_
        rintro ⟨u, _, h⟩
        exact after u h
      rw [only, execute_strays here, callStudent_strays]
      constructor
      · rintro ⟨hs, hcmd, x, later, hq, hscan⟩ ⟨_, scan⟩
        exact (strays x).mp hscan (scan c x later (by rw [said, hcmd]) hs hq)
      · intro exposed
        by_contra safe
        refine exposed ⟨by simp [stays], fun d x later saysNext hs hq => ?_⟩
        obtain ⟨rfl, hcmd⟩ := Prod.mk.inj (Option.some.inj (said.symm.trans saysNext))
        by_contra open_walk
        exact safe ⟨hs, hcmd, x, later, hq, (strays x).mpr open_walk⟩
  · have removal : removed s = some c := removed_eq hr hl hf (Or.inr (Nat.not_lt.mp room))
    rw [if_neg room, gone removal, not_not, findClient_socket hf]
    exact removeClient_strays (s := { s with readFdSet := rest }) hf here

/-- Any other step goes astray exactly where the condition fails. -/
theorem step_strays (inv : Inv s) (other : ¬ Accepts s) :
    Strays (s.step e) ↔ ¬ NamesKnown s e := by
  cases hr : s.readFdSet with
  | nil =>
    refine iff_of_false ?_ (not_not.mpr ⟨by simp [hr], ?_, ?_⟩)
    · simp only [Server.step, hr]
      cases e.ready <;> simp [Strays]
    · simp [removed_of_empty hr]
    · simp [ScanEnds, line, reads, served, hr]
  | cons fd rest =>
  have hl : fd ≠ s.listenFd := fun same => other ⟨rest, by rw [hr, same]⟩
  simp only [Server.step, hr, Server.serve]
  rw [if_neg hl, strays_bind]
  cases hf : findClient fd s.clientList with
  | error h =>
    obtain rfl := findClient_error hf
    refine iff_of_true (Or.inl (Or.inr rfl)) fun known => ?_
    exact findClient_strays.mp (Or.inr hf) (known.visit fd rest hr hl)
  | ok found =>
  cases found with
  | none =>
    refine iff_of_false (by simp [Strays]) (not_not.mpr ⟨?_, ?_, ?_⟩)
    · intro a later visits _
      obtain ⟨rfl, _⟩ := List.cons.inj (hr.symm.trans visits)
      by_contra exposed
      have strays := findClient_strays.mpr exposed
      rw [hf] at strays
      exact not_strays_ok _ strays
    · simp [removed, served, hr, hl, hf, Except.toOption]
    · simp [ScanEnds, line, reads, served, hr, hl, hf, Except.toOption]
  | some c => simpa using visit_strays inv hr hl hf

end Faults

/-- A silent client, a waiting student and a TA, in the order of their arrival. -/
def silentFirst : List Event :=
  connects 4 ++ connects 5 ++ sends 5 (text "Ann") ++ sends 5 (text "S") ++
    sends 5 (text "CSC209") ++
    connects 6 ++ sends 6 (text "Tom") ++ sends 6 (text "T") ++ [{ quiet with ready := some [6] }]

end HelpServer
