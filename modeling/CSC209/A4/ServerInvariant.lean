import CSC209.A4.ServerSteps

/-!
# What every reachable state of the server satisfies

The descriptors, the kernel's record and the live nodes agree; each node's
fields fit its protocol state; every waiting entry belongs to a live student
client; the TA names in the queue are those of the live TA clients. None of
this needs the nodes that a removal leaves linked to be gone, nor the right
client to have been called.
-/

namespace HelpServer

open CStrings HelpQueue InputBuffer HaltingRuns

/-- What ties a node to its connection. -/
def Client.key (c : Client) : Nat × Int × Bool := (c.id, c.socket, c.freed)

/-- The name under which a live TA client is listed. -/
def Client.taName (c : Client) : Option CString :=
  if c.freed = false ∧ c.type = .ta then c.name else none

structure Client.Consistent (c : Client) : Prop where
  named : c.name = none ↔ c.state = .waitingName
  untyped : c.state = .waitingName ∨ c.state = .waitingType → c.type = .notSet
  student : c.state = .waitingSCourse ∨ c.state = .waitingSCommand → c.type = .student
  ta : c.state = .waitingTCommand → c.type = .ta
  listed : c.type = .ta ↔ c.taEntry ≠ none

theorem Client.Consistent.some_name {c : Client} (here : c.Consistent)
    (named : c.state ≠ .waitingName) :
    ∃ name, c.name = some name :=
  Option.ne_none_iff_exists'.mp fun hn => named (here.named.mp hn)

/-- The client waits as the queue entry `x` made by its own call. -/
structure Client.Waits (c : Client) (x : Student) : Prop where
  state : c.state = .waitingSCommand
  entry : c.entry = some x.id
  name : c.name = some x.name
  chosen : c.chosen = some x.course.code

structure Descriptors (s : Server) : Prop where
  ids : (s.clientList.map Client.id).Nodup
  ids_old : ∀ c ∈ s.clientList, c.id < s.nextClient
  sockets : (s.openFds.map Prod.fst).Nodup
  connected : ∀ fd i, (fd, i) ∈ s.openFds ↔
    ∃ c ∈ s.clientList, c.freed = false ∧ c.socket = fd ∧ c.id = i
  listening : ∀ o ∈ s.openFds, o.1 ≠ s.listenFd
  active : ∀ fd, fd ∈ s.activeFdSet ↔ fd = s.listenFd ∨ ∃ o ∈ s.openFds, o.1 = fd
  once : s.activeFdSet.Nodup
  visited : s.readFdSet.Nodup
  readable : ∀ fd ∈ s.readFdSet, fd ∈ s.activeFdSet

/-- No two nodes carry the same number, and the numbers carried are below the bound. -/
structure Marked (mark : Client → Option Nat) (bound : Nat) (l : List Client) : Prop where
  unique : ∀ c ∈ l, ∀ d ∈ l, ∀ k, mark c = some k → mark d = some k → c = d
  old : ∀ c ∈ l, ∀ k, mark c = some k → k < bound

structure Ownership (s : Server) : Prop where
  owned : ∀ x ∈ s.queue.stuList, ∃ c ∈ s.clientList, c.freed = false ∧ c.Waits x
  entries : Marked Client.entry s.queue.nextStudent s.clientList
  taEntries : Marked Client.taEntry s.queue.nextTa s.clientList
  taNames : (s.queue.taList.map Ta.name).Perm (s.clientList.filterMap Client.taName)

structure Inv (s : Server) : Prop extends Descriptors s, Ownership s where
  consistent : ∀ c ∈ s.clientList, c.Consistent

section Modify

variable {s : Server} {id : Nat} {f : Client → Client} {c d : Client}

@[simp] theorem modify_clientList :
    (s.modify id f).clientList = s.clientList.map fun c => if c.id = id then f c else c := rfl

@[simp] theorem modify_queue : (s.modify id f).queue = s.queue := rfl

theorem client_unique (ids : (s.clientList.map Client.id).Nodup) (hc : c ∈ s.clientList)
    (hd : d ∈ s.clientList) (same : d.id = c.id) : d = c :=
  List.inj_on_of_nodup_map ids hd hc same

theorem mem_modify (ids : (s.clientList.map Client.id).Nodup) (hc : c ∈ s.clientList) :
    d ∈ (s.modify c.id f).clientList ↔ d = f c ∨ d ∈ s.clientList ∧ d ≠ c := by
  simp only [modify_clientList, List.mem_map]
  constructor
  · rintro ⟨a, ha, rfl⟩
    by_cases same : a.id = c.id
    · obtain rfl := client_unique ids hc ha same
      simp
    · rw [if_neg same]
      exact Or.inr ⟨ha, fun heq => same (heq ▸ rfl)⟩
  · rintro (rfl | ⟨hd, hne⟩)
    · exact ⟨c, hc, by simp⟩
    · exact ⟨d, hd, by rw [if_neg fun same => hne (client_unique ids hc hd same)]⟩

theorem modify_keys (keep : ∀ d, (f d).key = d.key) :
    (s.modify id f).clientList.map Client.key = s.clientList.map Client.key := by
  simp only [modify_clientList, List.map_map]
  refine List.map_congr_left fun d _ => ?_
  simp only [Function.comp_apply]
  split
  · exact keep d
  · rfl

theorem setInput_keys (input : Input) :
    (s.setInput c input).clientList.map Client.key = s.clientList.map Client.key :=
  modify_keys fun _ => rfl

/-- A step that leaves nodes, descriptors and connections as they were keeps their agreement. -/
theorem Descriptors.congr {t : Server} (h : Descriptors s)
    (keys : t.clientList.map Client.key = s.clientList.map Client.key)
    (next : t.nextClient = s.nextClient) (opened : t.openFds = s.openFds)
    (active : t.activeFdSet = s.activeFdSet) (listen : t.listenFd = s.listenFd)
    (read : t.readFdSet.Sublist s.readFdSet) : Descriptors t := by
  have ids : t.clientList.map Client.id = s.clientList.map Client.id := by
    have := congrArg (List.map Prod.fst) keys
    simpa [Client.key, Function.comp_def] using this
  have mem : ∀ k, (∃ c ∈ t.clientList, c.key = k) ↔ ∃ c ∈ s.clientList, c.key = k := by
    intro k
    have : k ∈ t.clientList.map Client.key ↔ k ∈ s.clientList.map Client.key := by rw [keys]
    simpa using this
  refine ⟨ids ▸ h.ids, ?_, opened ▸ h.sockets, ?_, ?_, ?_, active ▸ h.once,
    read.nodup h.visited, ?_⟩
  · intro c hc
    obtain ⟨d, hd, same⟩ := (mem c.key).mp ⟨c, hc, rfl⟩
    have hid : d.id = c.id := congrArg Prod.fst same
    exact next ▸ hid ▸ h.ids_old d hd
  · intro fd i
    have here := mem (i, fd, false)
    rw [opened, h.connected]
    simp only [Client.key, Prod.mk.injEq] at here
    constructor
    · rintro ⟨c, hc, hf, hs, hi⟩
      obtain ⟨d, hd, di, ds, df⟩ := here.mpr ⟨c, hc, hi, hs, hf⟩
      exact ⟨d, hd, df, ds, di⟩
    · rintro ⟨c, hc, hf, hs, hi⟩
      obtain ⟨d, hd, di, ds, df⟩ := here.mp ⟨c, hc, hi, hs, hf⟩
      exact ⟨d, hd, df, ds, di⟩
  · rw [opened, listen]; exact h.listening
  · rw [opened, listen, active]; exact h.active
  · intro fd hfd
    rw [active]
    exact h.readable fd (read.subset hfd)

/-- Reassigning the fields of one node keeps its number, drops it or gives it the next one. -/
theorem Marked.modify {mark : Client → Option Nat} {n m : Nat} (h : Marked mark n s.clientList)
    (ids : (s.clientList.map Client.id).Nodup) (hc : c ∈ s.clientList) (grow : n ≤ m)
    (changed : mark (f c) = mark c ∨ mark (f c) = none ∨ mark (f c) = some n ∧ n < m) :
    Marked mark m (s.modify c.id f).clientList := by
  have fresh : ∀ k, mark (f c) = some k → mark c = some k ∨ k = n ∧ n < m := by
    intro k hk
    rcases changed with same | gone | ⟨new, hlt⟩
    · exact Or.inl (same ▸ hk)
    · rw [gone] at hk; cases hk
    · exact Or.inr ⟨(Option.some.inj (new.symm.trans hk)).symm, hlt⟩
  -- nobody else carries the number that the node has afterwards
  have apart : ∀ d ∈ s.clientList, d ≠ c → ∀ k, mark (f c) = some k → mark d ≠ some k := by
    intro d hd hne k hk hdk
    rcases fresh k hk with old | ⟨rfl, _⟩
    · exact hne (h.unique d hd c hc k hdk old)
    · exact absurd (h.old d hd k hdk) (Nat.lt_irrefl k)
  constructor
  · intro a ha b hb k hak hbk
    rcases (mem_modify ids hc).mp ha with rfl | ⟨ha, hac⟩ <;>
      rcases (mem_modify ids hc).mp hb with rfl | ⟨hb, hbc⟩
    · rfl
    · exact absurd hbk (apart b hb hbc k hak)
    · exact absurd hak (apart a ha hac k hbk)
    · exact h.unique a ha b hb k hak hbk
  · intro a ha k hak
    rcases (mem_modify ids hc).mp ha with rfl | ⟨ha, _⟩
    · rcases fresh k hak with old | ⟨rfl, hlt⟩
      · exact Nat.lt_of_lt_of_le (h.old c hc k old) grow
      · exact hlt
    · exact Nat.lt_of_lt_of_le (h.old a ha k hak) grow

theorem taNames_modify (ids : (s.clientList.map Client.id).Nodup) (hc : c ∈ s.clientList)
    (same : (f c).taName = c.taName) : (s.modify c.id f).clientList.filterMap Client.taName =
      s.clientList.filterMap Client.taName := by
  rw [modify_clientList, List.filterMap_map]
  refine List.filterMap_congr fun d hd => ?_
  simp only [Function.comp_apply]
  split
  · rename_i h
    rw [client_unique ids hc hd h, same]
  · rfl

/-- Waiting clients other than the reassigned one are still there. -/
theorem owned_modify (ids : (s.clientList.map Client.id).Nodup) (hc : c ∈ s.clientList)
    {x : Student} (own : ∃ d ∈ s.clientList, d.freed = false ∧ d.Waits x)
    (keeps : c.Waits x → (f c).freed = c.freed ∧ (f c).Waits x) :
    ∃ d ∈ (s.modify c.id f).clientList, d.freed = false ∧ d.Waits x := by
  obtain ⟨d, hd, live, hw⟩ := own
  by_cases h : d = c
  · subst h
    obtain ⟨hf, hw'⟩ := keeps hw
    exact ⟨f d, (mem_modify ids hd).mpr (Or.inl rfl), hf.trans live, hw'⟩
  · exact ⟨d, (mem_modify ids hc).mpr (Or.inr ⟨hd, h⟩), live, hw⟩

/-- Reassigning fields of one node on which neither its waiting nor the lists depend. -/
theorem Ownership.modify (own : Ownership s) (ids : (s.clientList.map Client.id).Nodup)
    (hc : c ∈ s.clientList) (keeps : ∀ x, c.Waits x → (f c).freed = c.freed ∧ (f c).Waits x)
    (entry : (f c).entry = c.entry) (taEntry : (f c).taEntry = c.taEntry)
    (taName : (f c).taName = c.taName) : Ownership (s.modify c.id f) where
  owned := fun x hx => owned_modify ids hc (own.owned x hx) (keeps x)
  entries := own.entries.modify ids hc (Nat.le_refl _) (Or.inl entry)
  taEntries := own.taEntries.modify ids hc (Nat.le_refl _) (Or.inl taEntry)
  taNames := by
    rw [taNames_modify ids hc taName]
    exact own.taNames

theorem map_update_absent {l : List Client} (absent : ∀ d ∈ l, d.id ≠ id) :
    l.map (fun d => if d.id = id then f d else d) = l := by
  refine (List.map_congr_left fun d hd => ?_).trans (List.map_id l)
  rw [if_neg (absent d hd), id_eq]

theorem map_update_split {before after : List Client}
    (ids : ((before ++ c :: after).map Client.id).Nodup) :
    (before ++ c :: after).map (fun d => if d.id = c.id then f d else d) =
      before ++ f c :: after := by
  rw [List.map_append, List.map_cons] at ids
  obtain ⟨_, rest, apart⟩ := List.nodup_append.mp ids
  have later := (List.nodup_cons.mp rest).1
  rw [List.map_append, List.map_cons, if_pos rfl, map_update_absent, map_update_absent]
  · exact fun d hd same => later (same ▸ List.mem_map_of_mem hd)
  · exact fun d hd same => apart d.id (List.mem_map_of_mem hd) c.id List.mem_cons_self same

/-- The reassigned node keeps its place in the list. -/
theorem modify_split (ids : (s.clientList.map Client.id).Nodup) (hc : c ∈ s.clientList) :
    ∃ before after, s.clientList = before ++ c :: after ∧
      ∀ f, (s.modify c.id f).clientList = before ++ f c :: after := by
  obtain ⟨before, after, hl⟩ := List.append_of_mem hc
  refine ⟨before, after, hl, fun f => ?_⟩
  rw [hl] at ids
  rw [modify_clientList, hl, map_update_split ids]

theorem consistent_modify (all : ∀ d ∈ s.clientList, d.Consistent)
    (ids : (s.clientList.map Client.id).Nodup) (hc : c ∈ s.clientList) (here : (f c).Consistent) :
    ∀ d ∈ (s.modify c.id f).clientList, d.Consistent := by
  intro d hd
  rcases (mem_modify ids hc).mp hd with rfl | ⟨hd, _⟩
  · exact here
  · exact all d hd

end Modify

section Executing

variable {e : Event} {c : Client} {command : CString} {s t : Server}

theorem findClient_mem {fd : Int} {l : List Client} (hf : findClient fd l = .ok (some c)) :
    c ∈ l ∧ c.freed = false := by
  obtain ⟨before, after, rfl, live, _⟩ := findClient_found hf
  exact ⟨by simp, live⟩

/-- `find_client_student` stops at the first node of that name, after live nodes of other names. -/
theorem findClientStudent_found {x : Student} {l : List Client}
    (hf : findClientStudent x l = .ok (some c)) :
    ∃ before after, l = before ++ c :: after ∧ c.freed = false ∧ c.name = some x.name ∧
      ∀ b ∈ before, b.freed = false ∧ ∃ n, b.name = some n ∧ n ≠ x.name := by
  induction l with
  | nil => cases hf
  | cons d rest ih =>
    unfold findClientStudent at hf
    split at hf
    · cases hf
    rename_i live
    have live' : d.freed = false := by simpa using live
    split at hf
    · cases hf
    rename_i name hn
    split at hf
    · rename_i here
      obtain rfl : d = c := by simpa using hf
      exact ⟨[], rest, rfl, live', here ▸ hn, by simp⟩
    · rename_i elsewhere
      obtain ⟨before, after, rfl, hc, hs, hb⟩ := ih hf
      refine ⟨d :: before, after, rfl, hc, hs, ?_⟩
      intro b hm
      rcases List.mem_cons.mp hm with rfl | hm
      · exact ⟨live', name, hn, elsewhere⟩
      · exact hb b hm

/-- Executing a command neither adds nodes nor moves, closes or frees any. -/
theorem Executed.keys (h : Executed e c command s t) :
    t.clientList.map Client.key = s.clientList.map Client.key := by
  cases h with
  | replied => rfl
  | idle => rfl
  | _ => exact modify_keys fun _ => rfl

theorem Executed.descriptors (h : Executed e c command s t) (d : Descriptors s) :
    Descriptors t := by
  have keys := h.keys
  cases h <;> exact d.congr keys rfl rfl rfl rfl (List.Sublist.refl _)

theorem Executed.consistent (h : Executed e c command s t) (inv : Inv s) (hc : c ∈ s.clientList) :
    ∀ d ∈ t.clientList, d.Consistent := by
  have here := inv.consistent c hc
  have ids := inv.ids
  cases h with
  | named hs =>
    have untyped := here.untyped (Or.inl hs)
    refine consistent_modify inv.consistent ids hc ⟨by simp, fun _ => untyped, by simp, by simp,
      here.listed⟩
  | student hs hcmd =>
    have named : c.name ≠ none := fun hn => by simp [here.named.mp hn] at hs
    have unlisted : c.taEntry = none := by
      have := here.listed
      rw [here.untyped (Or.inr hs)] at this
      simpa using this
    exact consistent_modify inv.consistent ids hc
      ⟨by simpa using named, by simp, by simp, by simp, by simpa using unlisted⟩
  | ta name hs hcmd hn =>
    exact consistent_modify inv.consistent ids hc ⟨by simp [hn], by simp, by simp, by simp, by simp⟩
  | enrolled name hs hcmd hn =>
    have student := here.student (Or.inl hs)
    exact consistent_modify inv.consistent ids hc
      ⟨by simp [hn], by simp, fun _ => student, by simp, here.listed⟩
  | refused hs hcmd =>
    have named : c.name ≠ none := fun hn => by simp [here.named.mp hn] at hs
    exact consistent_modify inv.consistent ids hc
      ⟨by simpa using named, by simp, by simp, by simp, here.listed⟩
  | replied => exact inv.consistent
  | idle => exact inv.consistent
  | called name student rest toServe hs hcmd hn hq hf =>
    obtain ⟨before, after, hl, _, hname, _⟩ := findClientStudent_found hf
    have hm : toServe ∈ s.clientList := by simp [hl]
    exact consistent_modify inv.consistent ids hm
      ⟨by simp [hname], by simp, by simp, by simp, (inv.consistent toServe hm).listed⟩

theorem Ownership.of_eq (own : Ownership s) (list : t.clientList = s.clientList)
    (queue : t.queue = s.queue) : Ownership t :=
  ⟨by rw [queue, list]; exact own.owned, by rw [queue, list]; exact own.entries,
    by rw [queue, list]; exact own.taEntries, by rw [queue, list]; exact own.taNames⟩

/-- A live TA client is listed under its name. -/
theorem Inv.listed (inv : Inv s) (hc : c ∈ s.clientList) (live : c.freed = false)
    (ta : c.type = .ta) {name : CString} (hn : c.name = some name) :
    name ∈ s.queue.taList.map Ta.name := by
  refine inv.taNames.symm.subset (List.mem_filterMap.mpr ⟨c, hc, ?_⟩)
  rw [Client.taName, if_pos ⟨live, ta⟩, hn]

theorem Ownership.addTa (own : Ownership s) (ids : (s.clientList.map Client.id).Nodup)
    (hc : c ∈ s.clientList) (live : c.freed = false) (hs : c.state = .waitingType)
    (untyped : c.type = .notSet) {name : CString} (hn : c.name = some name)
    (list : t.clientList = (s.modify c.id fun d =>
      { d with type := .ta, state := .waitingTCommand, taEntry := some s.queue.nextTa }).clientList)
    (queue : t.queue = s.queue.addTa name) : Ownership t := by
  obtain ⟨before, after, hl, hmod⟩ := modify_split ids hc
  refine ⟨?_, ?_, ?_, ?_⟩
  · intro x hx
    rw [list]
    rw [queue] at hx
    exact owned_modify ids hc (own.owned x hx) fun w => absurd w.state (by simp [hs])
  · rw [list, queue]
    exact own.entries.modify ids hc (Nat.le_refl _) (Or.inl rfl)
  · rw [list, queue]
    exact own.taEntries.modify ids hc (Nat.le_succ _) (Or.inr (Or.inr ⟨rfl, Nat.lt_succ_self _⟩))
  · have old := own.taNames
    have none_now : c.taName = none := by simp [Client.taName, untyped]
    have some_then : Client.taName { c with
        type := .ta, state := .waitingTCommand, taEntry := some s.queue.nextTa } = some name := by
      simp [Client.taName, live, hn]
    rw [hl, List.filterMap_append, List.filterMap_cons_none none_now] at old
    rw [list, queue, hmod, List.filterMap_append, List.filterMap_cons_some some_then]
    exact (old.cons name).trans List.perm_middle.symm

theorem Ownership.enroll (own : Ownership s) (ids : (s.clientList.map Client.id).Nodup)
    (hc : c ∈ s.clientList) (live : c.freed = false) (hs : c.state = .waitingSCourse)
    {name : CString} (hn : c.name = some name)
    (list : t.clientList = (s.modify c.id fun d =>
      { d with
        state := .waitingSCommand
        chosen := some command
        entry := if (s.queue.addStudent courses name command).1 = 0 then some s.queue.nextStudent
          else none }).clientList)
    (queue : t.queue = (s.queue.addStudent courses name command).2) : Ownership t := by
  have unlisted : Client.taName { c with
      state := .waitingSCommand
      chosen := some command
      entry := if (s.queue.addStudent courses name command).1 = 0 then some s.queue.nextStudent
        else none } = c.taName := rfl
  have ta : t.queue.toLists.taList = s.queue.taList ∧ t.queue.nextTa = s.queue.nextTa := by
    rw [queue]
    rcases addStudent_cases courses s.queue.nextStudent name command s.queue.toLists with
      ⟨_, heq⟩ | ⟨_, _, heq⟩ | ⟨_, _, _, heq⟩ <;> simp [Queue.addStudent, heq]
  have keeps : ∀ x, (∃ d ∈ s.clientList, d.freed = false ∧ d.Waits x) →
      ∃ d ∈ t.clientList, d.freed = false ∧ d.Waits x := by
    intro x hx
    rw [list]
    exact owned_modify ids hc hx fun w => absurd w.state (by simp [hs])
  refine ⟨?_, ?_, ?_, ?_⟩
  · intro x hx
    rcases addStudent_cases courses s.queue.nextStudent name command s.queue.toLists with
      ⟨_, heq⟩ | ⟨_, _, heq⟩ | ⟨course, _, hcourse, heq⟩
    · exact keeps x (own.owned x (by simpa [queue, Queue.addStudent, heq] using hx))
    · exact keeps x (own.owned x (by simpa [queue, Queue.addStudent, heq] using hx))
    have hx' : x ∈ s.queue.stuList ∨ x = ⟨s.queue.nextStudent, name, course⟩ := by
      simpa [queue, Queue.addStudent, heq] using hx
    rcases hx' with hx | rfl
    · exact keeps x (own.owned x hx)
    · rw [list]
      refine ⟨_, (mem_modify ids hc).mpr (Or.inl rfl), live, rfl, ?_, hn, ?_⟩
      · simp [Queue.addStudent, heq]
      · exact congrArg some (findCourse_code hcourse).2.symm
  · rw [list, queue]
    rcases addStudent_cases courses s.queue.nextStudent name command s.queue.toLists with
      ⟨_, heq⟩ | ⟨_, _, heq⟩ | ⟨course, _, hcourse, heq⟩
    · exact own.entries.modify ids hc (by simp [Queue.addStudent, heq])
        (Or.inr (Or.inl (by simp [Queue.addStudent, heq])))
    · exact own.entries.modify ids hc (by simp [Queue.addStudent, heq])
        (Or.inr (Or.inl (by simp [Queue.addStudent, heq])))
    · exact own.entries.modify ids hc (by simp [Queue.addStudent, heq])
        (Or.inr (Or.inr (by simp [Queue.addStudent, heq])))
  · rw [list, ta.2]
    exact own.taEntries.modify ids hc (Nat.le_refl _) (Or.inl rfl)
  · rw [list, ta.1, taNames_modify ids hc unlisted]
    exact own.taNames

/-- Calling the head of the queue: whoever is disconnected bears its name, and waiting names
are distinct, so the owners of the other entries go on waiting. -/
theorem Ownership.next (own : Ownership s) (ids : (s.clientList.map Client.id).Nodup)
    {student : Student} {rest : List Student} {toServe : Client}
    (hq : s.queue.stuList = student :: rest)
    (hm : toServe ∈ s.clientList) (called : toServe.name = some student.name) {name : CString}
    (listed : name ∈ s.queue.taList.map Ta.name)
    (list : t.clientList =
      (s.modify toServe.id fun d => { d with state := .disconnect }).clientList)
    (queue : t.queue = (s.queue.nextOverall name).2) : Ownership t := by
  have waiting : t.queue.toLists.stuList = rest := by
    have := nextOverall_stuList name s.queue.toLists listed
    rw [queue]
    exact this.trans (by rw [hq]; rfl)
  refine ⟨?_, ?_, ?_, ?_⟩
  · intro x hx
    rw [waiting] at hx
    rw [list]
    refine owned_modify ids hm
      (own.owned x (by rw [hq]; exact List.mem_cons_of_mem _ hx)) fun w => ?_
    have names := s.queue.valid.names
    rw [hq, List.map_cons, List.nodup_cons] at names
    have same : student.name = x.name := Option.some.inj (called.symm.trans w.name)
    exact absurd (same ▸ List.mem_map_of_mem hx) names.1
  · rw [list, queue]
    exact own.entries.modify ids hm (Nat.le_refl _) (Or.inl rfl)
  · rw [list, queue]
    exact own.taEntries.modify ids hm (Nat.le_refl _) (Or.inl rfl)
  · rw [list, taNames_modify ids hm rfl, queue]
    exact (nextOverall_names name s.queue.toLists) ▸ own.taNames

theorem Ownership.idle (own : Ownership s) (empty : s.queue.stuList = []) {name : CString}
    (list : t.clientList = s.clientList) (queue : t.queue = (s.queue.nextOverall name).2) :
    Ownership t := by
  have none_waiting : t.queue.toLists.stuList = [] := by
    rw [queue]
    rcases nextOverall_cases name s.queue.toLists with ⟨_, heq⟩ | ⟨_, _, _, _, _, _, heq⟩
    · simpa [Queue.nextOverall, heq] using empty
    · simp [Queue.nextOverall, heq, empty]
  refine ⟨?_, ?_, ?_, ?_⟩
  · intro x hx
    rw [none_waiting] at hx
    cases hx
  · rw [list, queue]; exact own.entries
  · rw [list, queue]; exact own.taEntries
  · rw [list, queue]
    exact (nextOverall_names name s.queue.toLists) ▸ own.taNames

theorem Executed.ownership (h : Executed e c command s t) (inv : Inv s) (hc : c ∈ s.clientList)
    (live : c.freed = false) : Ownership t := by
  have here := inv.consistent c hc
  have own := inv.toOwnership
  have ids := inv.ids
  cases h with
  | named hs =>
    refine Ownership.of_eq (own.modify ids hc ?_ ?_ ?_ ?_) rfl rfl
    · exact fun x w => absurd w.state (by simp [hs])
    · rfl
    · rfl
    · simp [Client.taName, here.untyped (Or.inl hs)]
  | student hs hcmd =>
    refine Ownership.of_eq (own.modify ids hc ?_ ?_ ?_ ?_) rfl rfl
    · exact fun x w => absurd w.state (by simp [hs])
    · rfl
    · rfl
    · simp [Client.taName, here.untyped (Or.inr hs)]
  | ta name hs hcmd hn => exact own.addTa ids hc live hs (here.untyped (Or.inr hs)) hn rfl rfl
  | enrolled name hs hcmd hn => exact own.enroll ids hc live hs hn rfl rfl
  | refused hs hcmd =>
    refine Ownership.of_eq (own.modify ids hc ?_ ?_ ?_ ?_) rfl rfl
    · exact fun x w => absurd w.state (by simp [hs])
    · rfl
    · rfl
    · rfl
  | replied => exact own.of_eq rfl rfl
  | idle name hs hcmd hn empty => exact own.idle empty rfl rfl
  | called name student rest toServe hs hcmd hn hq hf =>
    obtain ⟨before, after, hl, _, hname, _⟩ := findClientStudent_found hf
    exact own.next ids hq (by simp [hl]) hname (inv.listed hc live (here.ta hs) hn) rfl rfl

end Executing

section Removal

variable {s t : Server} {fd : Int} {c : Client}

/-- The node list after a removal: without the client when it was the head, and otherwise
with its freed node still in place. -/
def remaining (s : Server) (c : Client) : List Client :=
  (Server.unlink c s.clientList).map fun d => if d.id = c.id then { d with freed := true } else d

theorem remaining_split (hf : findClient fd s.clientList = .ok (some c))
    (ids : (s.clientList.map Client.id).Nodup) :
    ∃ before after, s.clientList = before ++ c :: after ∧
      (before = [] ∧ remaining s c = after ∨
        before ≠ [] ∧ remaining s c = before ++ { c with freed := true } :: after) := by
  obtain ⟨before, after, hl, _, hs, hb⟩ := findClient_found hf
  refine ⟨before, after, hl, ?_⟩
  rw [hl] at ids
  cases before with
  | nil =>
    have later := (List.nodup_cons.mp ids).1
    refine Or.inl ⟨rfl, ?_⟩
    rw [remaining, hl, List.nil_append, Server.unlink, if_pos rfl, map_update_absent]
    exact fun d hd same => later (same ▸ List.mem_map_of_mem hd)
  | cons head rest =>
    have first : c.socket ≠ head.socket := fun h => (hb head List.mem_cons_self).2 (h ▸ hs)
    refine Or.inr ⟨by simp, ?_⟩
    rw [remaining, hl, List.cons_append, Server.unlink, if_neg first, ← List.cons_append,
      map_update_split ids]

/-- What is linked after a removal was linked before, but for the mark on the freed node. -/
theorem remaining_nodes (hf : findClient fd s.clientList = .ok (some c))
    (ids : (s.clientList.map Client.id).Nodup) {d : Client} (hd : d ∈ remaining s c) :
    d ∈ s.clientList ∨ d = { c with freed := true } := by
  obtain ⟨before, after, hl, ⟨rfl, hnew⟩ | ⟨_, hnew⟩⟩ := remaining_split hf ids
  · rw [hnew] at hd
    simp [hl, hd]
  · rw [hnew] at hd
    simp only [List.mem_append, List.mem_cons] at hd
    simp only [hl, List.mem_append, List.mem_cons]
    tauto

theorem mem_remaining (hf : findClient fd s.clientList = .ok (some c))
    (ids : (s.clientList.map Client.id).Nodup) (d : Client) :
    d ∈ remaining s c ∧ d.freed = false ↔ d ∈ s.clientList ∧ d.freed = false ∧ d ≠ c := by
  obtain ⟨before, after, hl, hnew⟩ := remaining_split hf ids
  rw [hl] at ids
  have nodup := List.nodup_append.mp ids.of_map
  have later := (List.nodup_cons.mp nodup.2.1).1
  have other : d ∈ before ∨ d ∈ after → d ≠ c := by
    rintro (hd | hd) rfl
    · exact nodup.2.2 d hd d List.mem_cons_self rfl
    · exact later hd
  rcases hnew with ⟨rfl, hnew⟩ | ⟨_, hnew⟩
  · rw [hl, hnew]
    constructor
    · rintro ⟨hd, live⟩
      exact ⟨by simp [hd], live, other (Or.inr hd)⟩
    · rintro ⟨hd, live, hne⟩
      simp only [List.nil_append, List.mem_cons] at hd
      exact ⟨hd.resolve_left hne, live⟩
  · rw [hl, hnew]
    simp only [List.mem_append, List.mem_cons]
    constructor
    · rintro ⟨hd | rfl | hd, live⟩
      · exact ⟨Or.inl hd, live, other (Or.inl hd)⟩
      · cases live
      · exact ⟨Or.inr (Or.inr hd), live, other (Or.inr hd)⟩
    · rintro ⟨hd | rfl | hd, live, hne⟩
      · exact ⟨Or.inl hd, live⟩
      · exact absurd rfl hne
      · exact ⟨Or.inr (Or.inr hd), live⟩

theorem remaining_ids (hf : findClient fd s.clientList = .ok (some c))
    (ids : (s.clientList.map Client.id).Nodup) :
    ((remaining s c).map Client.id).Sublist (s.clientList.map Client.id) := by
  obtain ⟨before, after, hl, ⟨rfl, hnew⟩ | ⟨_, hnew⟩⟩ := remaining_split hf ids
  · rw [hl, hnew]; simp
  · rw [hl, hnew]; simp

theorem Marked.remaining {mark : Client → Option Nat} {n : Nat} (h : Marked mark n s.clientList)
    (hf : findClient fd s.clientList = .ok (some c)) (ids : (s.clientList.map Client.id).Nodup)
    (same : mark { c with freed := true } = mark c) : Marked mark n (remaining s c) := by
  obtain ⟨hc, _⟩ := findClient_mem hf
  obtain ⟨before, after, hl, hnew⟩ := remaining_split hf ids
  rcases hnew with ⟨rfl, hnew⟩ | ⟨_, hnew⟩
  · have sub : ∀ d ∈ HelpServer.remaining s c, d ∈ s.clientList := by
      intro d hd
      rw [hl]
      rw [hnew] at hd
      simp [hd]
    exact ⟨fun a ha b hb => h.unique a (sub a ha) b (sub b hb), fun a ha => h.old a (sub a ha)⟩
  · have kept :=
      h.modify (f := fun d => { d with freed := true }) ids hc (Nat.le_refl _) (Or.inl same)
    have split : (s.modify c.id fun d => { d with freed := true }).clientList =
        before ++ { c with freed := true } :: after := by
      rw [modify_clientList, hl]
      rw [hl] at ids
      exact map_update_split (f := fun d => { d with freed := true }) ids
    rw [split] at kept
    rw [hnew]
    exact kept

theorem Descriptors.removed {rest : List Int} (d : Descriptors s)
    (hf : findClient fd s.clientList = .ok (some c)) (hr : s.readFdSet = fd :: rest)
    (hl : fd ≠ s.listenFd) (read : t.readFdSet = rest) (list : t.clientList = remaining s c)
    (opened : t.openFds = s.openFds.filter fun o => o.1 ≠ fd)
    (active : t.activeFdSet = s.activeFdSet.filter fun a => a ≠ fd)
    (listen : t.listenFd = s.listenFd) (next : t.nextClient = s.nextClient) : Descriptors t := by
  have ids := remaining_ids hf d.ids
  have members := mem_remaining hf d.ids
  obtain ⟨hc, live⟩ := findClient_mem hf
  have here := findClient_socket hf
  have mine : (fd, c.id) ∈ s.openFds := (d.connected fd c.id).mpr ⟨c, hc, live, here, rfl⟩
  have visited := d.visited
  rw [hr] at visited
  refine ⟨list ▸ ids.nodup d.ids, ?_, ?_, ?_, ?_, ?_, ?_, ?_, ?_⟩
  · intro a ha
    rw [list] at ha
    obtain ⟨b, hb, same⟩ := List.mem_map.mp (ids.subset (List.mem_map_of_mem ha))
    rw [next, ← same]
    exact d.ids_old b hb
  · rw [opened]
    exact (List.filter_sublist.map _).nodup d.sockets
  · intro fd' i
    rw [opened, List.mem_filter, d.connected, list]
    simp only [decide_eq_true_eq]
    constructor
    · rintro ⟨⟨a, ha, hlive, hs, hi⟩, hne⟩
      refine ⟨a, ((members a).mpr ⟨ha, hlive, ?_⟩).1, hlive, hs, hi⟩
      rintro rfl
      exact hne (hs.symm.trans here)
    · rintro ⟨a, ha, hlive, hs, hi⟩
      obtain ⟨ha, _, hne⟩ := (members a).mp ⟨ha, hlive⟩
      refine ⟨⟨a, ha, hlive, hs, hi⟩, ?_⟩
      rintro rfl
      have other : (fd', a.id) ∈ s.openFds := (d.connected fd' a.id).mpr ⟨a, ha, hlive, hs, rfl⟩
      have same := List.inj_on_of_nodup_map d.sockets other mine rfl
      exact hne (client_unique d.ids hc ha (congrArg Prod.snd same))
  · intro o ho
    rw [opened] at ho
    rw [listen]
    exact d.listening o (List.mem_filter.mp ho).1
  · intro a
    rw [active, opened, listen, List.mem_filter, d.active]
    simp only [decide_eq_true_eq, List.mem_filter]
    constructor
    · rintro ⟨rfl | ⟨o, ho, rfl⟩, hne⟩
      · exact Or.inl rfl
      · exact Or.inr ⟨o, ⟨ho, hne⟩, rfl⟩
    · rintro (rfl | ⟨o, ⟨ho, hne⟩, rfl⟩)
      · exact ⟨Or.inl rfl, Ne.symm hl⟩
      · exact ⟨Or.inr ⟨o, ho, rfl⟩, hne⟩
  · rw [active]
    exact d.once.filter _
  · rw [read]
    exact (List.nodup_cons.mp visited).2
  · intro a ha
    rw [read] at ha
    rw [active, List.mem_filter]
    refine ⟨d.readable a (hr ▸ List.mem_cons_of_mem fd ha), ?_⟩
    simp only [decide_eq_true_eq]
    rintro rfl
    exact (List.nodup_cons.mp visited).1 ha

/-- The name of a TA client that leaves goes from the list once. -/
theorem taNames_withdrawn (own : Ownership s) (ids : (s.clientList.map Client.id).Nodup)
    (hf : findClient fd s.clientList = .ok (some c)) {name : CString} (hn : c.name = some name) :
    ((c.withdrawn name s.queue).taList.map Ta.name).Perm
      ((remaining s c).filterMap Client.taName) := by
  obtain ⟨_, live⟩ := findClient_mem hf
  obtain ⟨before, after, hl, hnew⟩ := remaining_split hf ids
  have names : (remaining s c).filterMap Client.taName =
      before.filterMap Client.taName ++ after.filterMap Client.taName := by
    rcases hnew with ⟨rfl, hnew⟩ | ⟨_, hnew⟩
    · rw [hnew, List.filterMap_nil, List.nil_append]
    · have dead : Client.taName { c with freed := true } = none := by simp [Client.taName]
      rw [hnew, List.filterMap_append, List.filterMap_cons_none dead]
  have old := own.taNames
  rw [hl, List.filterMap_append] at old
  rw [names]
  by_cases ht : c.type = .ta
  · have listed : c.taName = some name := by simp [Client.taName, live, ht, hn]
    rw [List.filterMap_cons_some listed] at old
    have shorter := (old.trans List.perm_middle).erase name
    rw [List.erase_cons_head] at shorter
    rw [withdrawn_ta name s.queue ht]
    exact (removeTa_names name s.queue.toLists).symm ▸ shorter
  · have unlisted : c.taName = none := by simp [Client.taName, ht]
    rw [List.filterMap_cons_none unlisted] at old
    rw [withdrawn_taList name s.queue ht]
    exact old

theorem Ownership.removed (own : Ownership s) (ids : (s.clientList.map Client.id).Nodup)
    (hf : findClient fd s.clientList = .ok (some c)) (here : c.Consistent) {name : CString}
    (hn : c.name = some name) (list : t.clientList = remaining s c)
    (queue : t.queue = c.withdrawn name s.queue) : Ownership t := by
  have members := mem_remaining hf ids
  have counts : t.queue.nextStudent = s.queue.nextStudent ∧ t.queue.nextTa = s.queue.nextTa := by
    rw [queue, Client.withdrawn]
    cases c.type <;> exact ⟨rfl, rfl⟩
  -- the entries that stay belong to clients that stay
  have stay : ∀ x ∈ t.queue.stuList, x ∈ s.queue.stuList ∧ ¬ c.Waits x := by
    intro x hx
    rw [queue] at hx
    by_cases ht : c.type = .student
    · rw [withdrawn_student name s.queue ht] at hx
      obtain ⟨hx, hne⟩ := (mem_giveUpWaiting name s.queue.valid.names x).mp hx
      exact ⟨hx, fun w => hne (Option.some.inj (w.name.symm.trans hn))⟩
    · rw [withdrawn_stuList name s.queue ht] at hx
      exact ⟨hx, fun w => ht (here.student (Or.inr w.state))⟩
  refine ⟨?_, ?_, ?_, ?_⟩
  · intro x hx
    obtain ⟨hx, hw⟩ := stay x hx
    obtain ⟨o, ho, hlive, hwaits⟩ := own.owned x hx
    have hne : o ≠ c := by
      rintro rfl
      exact hw hwaits
    rw [list]
    exact ⟨o, ((members o).mpr ⟨ho, hlive, hne⟩).1, hlive, hwaits⟩
  · rw [list, counts.1]
    exact own.entries.remaining hf ids rfl
  · rw [list, counts.2]
    exact own.taEntries.remaining hf ids rfl
  · rw [list, queue]
    exact taNames_withdrawn own ids hf hn

end Removal

section Arrival

variable {s t : Server} {e : Event} {client : Client}

theorem Descriptors.accepted {rest : List Int} (d : Descriptors s) (legal : Legal s e)
    (hr : s.readFdSet = s.listenFd :: rest) (range : 0 ≤ e.accepted)
    (new : client.id = s.nextClient ∧ client.socket = e.accepted ∧ client.freed = false)
    (read : t.readFdSet = rest) (list : t.clientList = s.clientList ++ [client])
    (opened : t.openFds = s.openFds ++ [(e.accepted, s.nextClient)])
    (active : t.activeFdSet = if e.accepted ∈ s.activeFdSet then s.activeFdSet
      else s.activeFdSet.orderedInsert (· ≤ ·) e.accepted)
    (listen : t.listenFd = s.listenFd) (next : t.nextClient = s.nextClient + 1) :
    Descriptors t := by
  obtain ⟨hid, hsock, hlive⟩ := new
  obtain ⟨notListen, closed⟩ := legal.resolve_left (Int.not_lt.mpr range)
  have inactive : e.accepted ∉ s.activeFdSet := by
    rw [d.active]
    rintro (h | ⟨o, ho, h⟩)
    · exact notListen h
    · exact closed o ho h
  have fresh : client.id ∉ s.clientList.map Client.id := by
    intro hm
    obtain ⟨a, ha, same⟩ := List.mem_map.mp hm
    have := d.ids_old a ha
    omega
  rw [if_neg inactive] at active
  have visited := d.visited
  rw [hr] at visited
  refine ⟨?_, ?_, ?_, ?_, ?_, ?_, ?_, ?_, ?_⟩
  · rw [list, List.map_append]
    apply List.Nodup.append d.ids (List.nodup_singleton _)
    simpa [List.disjoint_singleton] using fresh
  · intro a ha
    rw [list] at ha
    rw [next]
    rcases List.mem_append.mp ha with ha | ha
    · have := d.ids_old a ha
      omega
    · obtain rfl := List.mem_singleton.mp ha
      omega
  · rw [opened, List.map_append]
    apply List.Nodup.append d.sockets (List.nodup_singleton _)
    simp only [List.disjoint_singleton, List.mem_map, not_exists, not_and]
    exact fun o ho => closed o ho
  · intro fd i
    rw [opened, list, List.mem_append, d.connected]
    simp only [List.mem_append, List.mem_singleton, Prod.mk.injEq]
    constructor
    · rintro (⟨a, ha, h⟩ | ⟨rfl, rfl⟩)
      · exact ⟨a, Or.inl ha, h⟩
      · exact ⟨client, Or.inr rfl, hlive, hsock, hid⟩
    · rintro ⟨a, ha | rfl, hf, hs, hi⟩
      · exact Or.inl ⟨a, ha, hf, hs, hi⟩
      · exact Or.inr ⟨hs.symm.trans hsock, hi.symm.trans hid⟩
  · intro o ho
    rw [opened] at ho
    rw [listen]
    rcases List.mem_append.mp ho with ho | ho
    · exact d.listening o ho
    · rw [List.mem_singleton.mp ho]
      exact notListen
  · intro fd
    rw [active, opened, listen, List.mem_orderedInsert, d.active]
    simp only [List.mem_append, List.mem_singleton]
    constructor
    · rintro (rfl | rfl | ⟨o, ho, rfl⟩)
      · exact Or.inr ⟨_, Or.inr rfl, rfl⟩
      · exact Or.inl rfl
      · exact Or.inr ⟨o, Or.inl ho, rfl⟩
    · rintro (rfl | ⟨o, ho | rfl, rfl⟩)
      · exact Or.inr (Or.inl rfl)
      · exact Or.inr (Or.inr ⟨o, ho, rfl⟩)
      · exact Or.inl rfl
  · rw [active]
    exact ((List.perm_orderedInsert _ _ _).nodup_iff).mpr (List.nodup_cons.mpr ⟨inactive, d.once⟩)
  · rw [read]
    exact (List.nodup_cons.mp visited).2
  · intro a ha
    rw [read] at ha
    rw [active, List.mem_orderedInsert]
    exact Or.inr (d.readable a (hr ▸ List.mem_cons_of_mem _ ha))

theorem Marked.append {mark : Client → Option Nat} {n : Nat} (h : Marked mark n s.clientList)
    (unmarked : mark client = none) : Marked mark n (s.clientList ++ [client]) := by
  constructor
  · intro a ha b hb k hak hbk
    rcases List.mem_append.mp ha with ha | ha
    · rcases List.mem_append.mp hb with hb | hb
      · exact h.unique a ha b hb k hak hbk
      · rw [List.mem_singleton.mp hb, unmarked] at hbk; cases hbk
    · rw [List.mem_singleton.mp ha, unmarked] at hak; cases hak
  · intro a ha k hak
    rcases List.mem_append.mp ha with ha | ha
    · exact h.old a ha k hak
    · rw [List.mem_singleton.mp ha, unmarked] at hak; cases hak

theorem Ownership.accepted (own : Ownership s)
    (unmarked : client.entry = none ∧ client.taEntry = none)
    (untyped : client.type = .notSet) (list : t.clientList = s.clientList ++ [client])
    (queue : t.queue = s.queue) : Ownership t := by
  refine ⟨?_, ?_, ?_, ?_⟩
  · intro x hx
    rw [queue] at hx
    obtain ⟨d, hd, h⟩ := own.owned x hx
    exact ⟨d, list ▸ List.mem_append_left _ hd, h⟩
  · rw [list, queue]
    exact own.entries.append unmarked.1
  · rw [list, queue]
    exact own.taEntries.append unmarked.2
  · have unlisted : client.taName = none := by simp [Client.taName, untyped]
    rw [list, queue, List.filterMap_append, List.filterMap_cons_none unlisted]
    simpa using own.taNames

end Arrival

section Steps

variable {s t : Server} {e : Event}

theorem Inv.start (listenFd : Int) : Inv (start listenFd) where
  ids := by simp [HelpServer.start]
  ids_old := by simp [HelpServer.start]
  sockets := by simp [HelpServer.start]
  connected := by simp [HelpServer.start]
  listening := by simp [HelpServer.start]
  active := by simp [HelpServer.start]
  once := by simp [HelpServer.start]
  visited := by simp [HelpServer.start]
  readable := by simp [HelpServer.start]
  owned := by simp [HelpServer.start, Queue.empty]
  entries := ⟨by simp [HelpServer.start], by simp [HelpServer.start]⟩
  taEntries := ⟨by simp [HelpServer.start], by simp [HelpServer.start]⟩
  taNames := by simp [HelpServer.start, Queue.empty]
  consistent := by simp [HelpServer.start]

/-- Putting the descriptor aside before the client is served. -/
theorem Inv.visit {fd : Int} {rest : List Int} (inv : Inv s) (hr : s.readFdSet = fd :: rest) :
    Inv { s with readFdSet := rest } where
  toDescriptors := inv.congr rfl rfl rfl rfl rfl (by rw [hr]; exact List.sublist_cons_self _ _)
  toOwnership := inv.toOwnership.of_eq rfl rfl
  consistent := inv.consistent

theorem Inv.setInput {c d : Client} (inv : Inv s) (hd : d ∈ s.clientList) (same : d.id = c.id)
    (input : Input) : Inv (s.setInput c input) := by
  rw [Server.setInput, ← same]
  exact {
    toDescriptors := inv.toDescriptors.congr (setInput_keys input) rfl rfl rfl rfl
      (List.Sublist.refl _)
    toOwnership :=
      inv.toOwnership.modify inv.ids hd (fun x w => ⟨rfl, ⟨w.1, w.2, w.3, w.4⟩⟩) rfl rfl rfl
    consistent := by
      have h := inv.consistent d hd
      exact consistent_modify inv.consistent inv.ids hd ⟨h.1, h.2, h.3, h.4, h.5⟩ }

theorem Executed.inv {c : Client} {command : CString} (h : Executed e c command s t) (inv : Inv s)
    (hc : c ∈ s.clientList) (live : c.freed = false) : Inv t where
  toDescriptors := h.descriptors inv.toDescriptors
  toOwnership := h.ownership inv hc live
  consistent := h.consistent inv hc

theorem Executed.still_there {c : Client} {command : CString} (h : Executed e c command s t)
    (hc : c ∈ s.clientList) : ∃ d ∈ t.clientList, d.id = c.id := by
  have hk : c.key ∈ t.clientList.map Client.key := h.keys ▸ List.mem_map_of_mem hc
  obtain ⟨d, hd, same⟩ := List.mem_map.mp hk
  exact ⟨d, hd, congrArg Prod.fst same⟩

/-- A step in which a client reads leaves every node where it is. -/
theorem keys_of_reads {r : Client × Input} (h : s.step e = .ok t) (heard : reads s e = some r) :
    t.clientList.map Client.key = s.clientList.map Client.key := by
  cases outcome_of_step h with
  | selected ready hr => simp [reads, served, hr] at heard
  | accepted rest client hr => simp [reads, served, hr] at heard
  | removed fd rest c name queue hr hl hf gone =>
    obtain ⟨_, stays⟩ := r
    simp [removed_of_reads heard] at gone
  | waited => exact setInput_keys _
  | executed fd rest c input w u hr hl hf heard' hw hle hexec =>
    exact (setInput_keys _).trans hexec.keys

/-- Every legal step keeps the invariant. -/
theorem Inv.step (inv : Inv s) (legal : Legal s e) (h : s.step e = .ok t) : Inv t := by
  cases outcome_of_step h with
  | selected ready hr =>
    exact {
      toDescriptors := by
        refine ⟨inv.ids, inv.ids_old, inv.sockets, inv.connected, inv.listening,
          inv.active, inv.once, inv.once.filter _, ?_⟩
        exact fun fd hfd => (List.mem_filter.mp hfd).1
      toOwnership := inv.toOwnership.of_eq rfl rfl
      consistent := inv.consistent }
  | accepted rest client hr live low high new =>
    subst new
    exact {
      toDescriptors :=
        inv.toDescriptors.accepted legal hr low ⟨rfl, rfl, rfl⟩ rfl rfl rfl rfl rfl rfl
      toOwnership := inv.toOwnership.accepted ⟨rfl, rfl⟩ rfl rfl rfl
      consistent := by
        intro d hd
        rcases List.mem_append.mp hd with hd | hd
        · exact inv.consistent d hd
        · rw [List.mem_singleton.mp hd]
          exact ⟨by simp, by simp, by simp, by simp, by simp⟩ }
  | removed fd rest c name queue hr hl hf gone hclose hn hq =>
    obtain ⟨hc, _⟩ := findClient_mem hf
    have here := inv.consistent c hc
    exact {
      toDescriptors := inv.toDescriptors.removed hf hr hl rfl rfl rfl rfl rfl rfl
      toOwnership := inv.toOwnership.removed inv.ids hf here hn rfl hq
      consistent := by
        intro d hd
        rcases remaining_nodes hf inv.ids hd with hd | rfl
        · exact inv.consistent d hd
        · exact ⟨here.1, here.2, here.3, here.4, here.5⟩ }
  | waited fd rest c input hr hl hf heard =>
    obtain ⟨hc, _⟩ := findClient_mem hf
    exact (inv.visit hr).setInput hc rfl _
  | executed fd rest c input w u hr hl hf heard hw hle hexec =>
    obtain ⟨hc, live⟩ := findClient_mem hf
    obtain ⟨d, hd, same⟩ := hexec.still_there hc
    exact (hexec.inv (inv.visit hr) hc live).setInput hd same _

/-- The invariant holds in every state that the server reaches. -/
theorem inv_reachable {listenFd : Int}
    (h : Reachable Server.step Legal (start listenFd) s) : Inv s :=
  h.invariant (Inv.start listenFd) fun _ _ _ inv legal hstep => inv.step legal hstep

end Steps

end HelpServer
