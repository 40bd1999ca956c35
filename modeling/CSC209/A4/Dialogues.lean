import CSC209.A4.ServerHistories
import CSC209.A4.StatusReplies

/-!
# The dialogue between the server and one client

`Dialogue` is the protocol that the messages of `hcq_server.c` suggest to the
person at the other end: a greeting, a name, a role, a course, and then status
requests until the student is called. `step` is the server's own step, with the
commands and the messages recorded for each client. Whatever the other clients
do in between, the record of every client is a dialogue of the protocol, and it
has led to the state and the name that the server keeps. The commands and the
status replies of a legal run go into the blocks that `malloc` gives for them.
-/

namespace Dialogues

open CStrings HelpQueue InputBuffer HaltingRuns HelpServer

/-- A command of the client, or a message of the server. -/
inductive Turn where
  | heard (command : CString)
  | told (msg : CString)
  deriving DecidableEq, Repr

section Protocol

variable (shown : Lists → Prop)

/-- The message that answers a command, with the state and the name in front of it and behind it.
What the status replies print are lists that were `shown`. -/
inductive Reply :
  ClientState → Option CString → CString → CString → ClientState → Option CString → Prop where
  | named (command : CString) : Reply .waitingName none command TYPE_MSG .waitingType (some command)
  | student (name : Option CString) :
      Reply .waitingType name (text "S") VALID_COURSES_MSG .waitingSCourse name
  | ta (name : Option CString) :
      Reply .waitingType name (text "T") TA_COMMANDS_MSG .waitingTCommand name
  | invalidRole (name : Option CString) {command : CString} :
      command ≠ text "S" → command ≠ text "T" →
      Reply .waitingType name command TA_INVALID_ROLE_MSG .waitingType name
  | enrolled (name : Option CString) {course : Course} : course ∈ courses →
      Reply .waitingSCourse name course.code STU_QUEUE_MSG .waitingSCommand name
  | invalidCourse (name : Option CString) {command : CString} :
      (∀ course ∈ courses, command ≠ course.code) →
      Reply .waitingSCourse name command STU_INVALID_COURSE_MSG .disconnect name
  | serving (name : Option CString) (block : List Byte) {lists : Lists} : shown lists →
      Reply .waitingSCommand name (text "stats")
        (cstr block ++
          (StatusReplies.Reply.currentlyServing lists.taList).lines.flatten) .waitingSCommand name
  | syntaxS (name : Option CString) {command : CString} : command ≠ text "stats" →
      Reply .waitingSCommand name command SYNTAX_ERR_MSG .waitingSCommand name
  | fullQueue (name : Option CString) (block : List Byte) {lists : Lists} : shown lists →
      Reply .waitingTCommand name (text "stats")
        (cstr block ++
          (StatusReplies.Reply.fullQueue lists.stuList).lines.flatten) .waitingTCommand name
  | syntaxT (name : Option CString) {command : CString} :
      command ≠ text "stats" → command ≠ text "next" →
      Reply .waitingTCommand name command SYNTAX_ERR_MSG .waitingTCommand name

/-- A dialogue, and the state and the name to which it has led. Only `next` is not answered, and a
call can come at any time once there is a name. -/
inductive Dialogue : List Turn → ClientState → Option CString → Prop where
  | greeted : Dialogue [.told WELCOME_MSG] .waitingName none
  | replied {turns : List Turn} {state state' : ClientState} {name name' : Option CString}
      {command msg : CString} :
      Dialogue turns state name → Reply shown state name command msg state' name' →
      Dialogue (turns ++ [.heard command, .told msg]) state' name'
  | next {turns : List Turn} {name : Option CString} : Dialogue turns .waitingTCommand name →
      Dialogue (turns ++ [.heard (text "next")]) .waitingTCommand name
  | called {turns : List Turn} {state : ClientState} {name : CString} :
      Dialogue turns state (some name) →
      Dialogue (turns ++ [.told STU_ACCEPT_MSG]) .disconnect (some name)

end Protocol

section Sessions

/-- The server, and what each client has said and been told. -/
structure Session where
  server : Server
  log : List (Nat × Turn)

def heardNow (s : Server) (e : Event) : List (Nat × Turn) :=
  (line s e).toList.map fun (c, command) => (c.id, .heard command)

def toldNow (s t : Server) : List (Nat × Turn) :=
  (t.sent.drop s.sent.length).map fun (id, msg) => (id, .told msg)

def step (s : Session) (e : Event) : Except Halt Session := do
  let server ← s.server.step e
  .ok ⟨server, s.log ++ heardNow s.server e ++ toldNow s.server server⟩

def start (listenFd : Int) : Session := ⟨HelpServer.start listenFd, []⟩

/-- The reply to `stats`, of a student or of a TA. -/
def answer (s : Server) (c : Client) (command : CString) : Option StatusReplies.Reply :=
  if command = text "stats" then
    match c.state with
    | .waitingSCommand => some (.currentlyServing s.queue.taList)
    | .waitingTCommand => some (.fullQueue s.queue.stuList)
    | _ => none
  else none

variable (usable : Server → Event → Nat → Nat)

/-- What `malloc` gives leaves room for the NUL of a command, and for that of a status reply
behind the string that its block held. -/
def HasRoom (s : Server) (e : Event) : Prop :=
  ∀ p ∈ (line s e).toList, p.2.length < usable s e p.2.length ∧
    ∀ r ∈ (answer s p.1 p.2).toList, StreamIO.IsInt r.size ∧
      (cstr e.block).length + r.lines.flatten.length < usable s e r.size.toNat

instance (s : Server) (e : Event) : Decidable (HasRoom usable s e) :=
  inferInstanceAs (Decidable (∀ p ∈ (line s e).toList, _))

def Legal (s : Session) (e : Event) : Prop :=
  HelpServer.Legal s.server e ∧ HasRoom usable s.server e

instance (s : Session) (e : Event) : Decidable (Legal usable s e) :=
  inferInstanceAs (Decidable (_ ∧ _))

def Turn.message : Turn → Option CString
  | .heard _ => none
  | .told msg => some msg

/-- The messages of a record, each with its client. -/
def messages (log : List (Nat × Turn)) : List (Nat × CString) :=
  log.filterMap fun (id, turn) => turn.message.map (id, ·)

def dialogue (id : Nat) (log : List (Nat × Turn)) : List Turn :=
  (log.filter (·.1 = id)).map Prod.snd

end Sessions

section Strings

variable {s t : Server} {e : Event} {c : Client} {name command code : CString} {q : Queue}
  {argv : List CString}

/-- The names and codes that status replies print are strings. -/
structure Clean (q : Lists) : Prop where
  waiting : ∀ s ∈ q.stuList, NUL ∉ s.name ∧ NUL ∉ s.course.code
  staff : ∀ t ∈ q.taList, NUL ∉ t.name ∧ ∀ s, t.currentStudent = some s → NUL ∉ s.name

theorem Clean.addStudent (clean : Clean q.toLists) (typed : NUL ∉ name) (code : CString) :
    Clean (q.addStudent courses name code).2.toLists := by
  have made : (q.addStudent courses name code).2.toLists =
      (HelpQueue.addStudent courses q.nextStudent name code q.toLists).2 := rfl
  rw [made]
  rcases addStudent_cases courses q.nextStudent name code q.toLists with
      ⟨_, eq⟩ | ⟨_, _, eq⟩ | ⟨course, _, found, eq⟩
  · rwa [eq]
  · rwa [eq]
  · have codes : ∀ k ∈ courses, NUL ∉ k.code := by decide
    rw [eq]
    refine ⟨fun s mem => ?_, clean.staff⟩
    rcases List.mem_append.mp mem with old | new
    · exact clean.waiting s old
    · obtain rfl := List.mem_singleton.mp new
      exact ⟨typed, codes course (findCourse_code found).1⟩

theorem Clean.addTa (clean : Clean q.toLists) (typed : NUL ∉ name) :
    Clean (q.addTa name).toLists where
  waiting := clean.waiting
  staff := List.forall_mem_cons.mpr ⟨⟨typed, by simp⟩, clean.staff⟩

theorem Clean.giveUpWaiting (clean : Clean q.toLists) (name : CString) :
    Clean (q.giveUpWaiting name).2.toLists := by
  obtain ⟨shorter, same⟩ := Queue.giveUpWaiting_sublist name q.toLists
  constructor
  · exact fun s mem => clean.waiting s (shorter.subset mem)
  · exact fun t mem => clean.staff t (same ▸ mem)

theorem Clean.removeTa (clean : Clean q.toLists) (name : CString) :
    Clean (q.removeTa name).2.toLists := by
  obtain ⟨same, shorter⟩ := Queue.removeTa_sublist name q.toLists
  constructor
  · exact fun s mem => clean.waiting s (same ▸ mem)
  · exact fun t mem => clean.staff t (shorter.subset mem)

theorem Clean.nextOverall (clean : Clean q.toLists) (name : CString) :
    Clean (q.nextOverall name).2.toLists := by
  have made : (q.nextOverall name).2.toLists = (HelpQueue.nextOverall name q.toLists).2 := rfl
  rw [made]
  rcases nextOverall_cases name q.toLists with ⟨_, eq⟩ | ⟨before, ta, after, split, _, _, eq⟩
  · rwa [eq]
  · rw [eq]
    have staff := clean.staff
    simp only [split, List.forall_mem_append, List.forall_mem_cons] at staff
    obtain ⟨front, ⟨named, _⟩, behind⟩ := staff
    refine ⟨fun s mem => clean.waiting s (List.mem_of_mem_tail mem), ?_⟩
    simp only [List.forall_mem_append, List.forall_mem_cons]
    exact ⟨front, ⟨named, fun s head => (clean.waiting s (List.mem_of_head? head)).1⟩, behind⟩

/-- Command lines without NULs bring none into the lists. -/
theorem Clean.processArgs (clean : Clean q.toLists) (typed : ∀ word ∈ argv, NUL ∉ word) :
    Clean (HelpCentre.processArgs q argv).1.toLists := by
  match argv with
  | [] => exact clean
  | [cmd] =>
    rw [HelpCentre.processArgs]
    split
    · exact clean
    split <;> exact clean
  | [cmd, name] =>
    have named : NUL ∉ name := typed name (by simp)
    rw [HelpCentre.processArgs]
    split
    · exact clean.giveUpWaiting name
    split
    · exact clean.addTa named
    split
    · exact clean.removeTa name
    split
    · exact clean.nextOverall name
    · exact clean
  | [cmd, name, code] =>
    have named : NUL ∉ name := typed name (by simp)
    rw [HelpCentre.processArgs]
    split
    · exact clean.addStudent named code
    · exact clean
  | _ :: _ :: _ :: _ :: _ => exact clean

/-- Nor do the names of the clients have a NUL. -/
structure CleanNames (s : Server) : Prop where
  lists : Clean s.queue.toLists
  names : ∀ c ∈ s.clientList, ∀ name, c.name = some name → NUL ∉ name

theorem clean_line (spoke : line s e = some (c, command)) : NUL ∉ command := by
  obtain ⟨input, w, _, _, rfl⟩ := line_some spoke
  exact Blocks.clean_cstr _

theorem mem_departure (said : ServerHistories.departure c = some argv) :
    ∀ word ∈ argv, c.name = some word ∨ word = text "give_up" ∨ word = text "remove_ta" := by
  unfold ServerHistories.departure at said
  split at said
  all_goals
    cases said
    try simp [*]

theorem mem_request (said : ServerHistories.request c command = some argv) :
    ∀ word ∈ argv, c.name = some word ∨ word = command ∨ word = text "add_ta" ∨
      word = text "add_student" ∨
      word = text "next" := by
  unfold ServerHistories.request at said
  split at said
  all_goals
    try split at said
    all_goals
      cases said
      try simp [*]

theorem CleanNames.commandOf (clean : CleanNames s)
    (said : ServerHistories.commandOf s e = some argv) :
    ∀ word ∈ argv, NUL ∉ word := by
  intro word mem
  unfold ServerHistories.commandOf at said
  split at said
  · next c gone =>
    obtain ⟨fd, rest, _, _, found⟩ := served_some (removed_some gone).1
    have there : c ∈ s.clientList := (findClient_mem found).1
    rcases mem_departure said word mem with named | rfl | rfl
    · exact clean.names c there word named
    · decide
    · decide
  · obtain ⟨⟨c, command⟩, spoke, said⟩ := Option.bind_eq_some_iff.mp said
    obtain ⟨input, w, heard, newline, _⟩ := line_some spoke
    obtain ⟨fd, rest, _, found, _⟩ := step_line heard newline
    have there : c ∈ s.clientList := (findClient_mem found).1
    rcases mem_request said word mem with named | rfl | rfl | rfl | rfl
    · exact clean.names c there word named
    · exact clean_line spoke
    · decide
    · decide
    · decide

theorem modify_names {f : Client → Client}
    (kept : ∀ d, (f d).name = d.name ∨ (f d).name = some command) (id : Nat) :
    ∀ d ∈ (s.modify id f).clientList, d.name = some command ∨
      ∃ b ∈ s.clientList, b.name = d.name := by
  intro d mem
  obtain ⟨b, there, rfl⟩ := List.mem_map.mp mem
  split
  · rcases kept b with same | new
    · exact .inr ⟨b, there, same.symm⟩
    · exact .inl new
  · exact .inr ⟨b, there, rfl⟩

/-- A client has the name that it had, or the command that has just been executed. -/
theorem executed_names (h : Executed e c command s t) :
    ∀ d ∈ t.clientList, d.name = some command ∨ ∃ b ∈ s.clientList, b.name = d.name := by
  have same : ∀ d ∈ s.clientList, d.name = some command ∨ ∃ b ∈ s.clientList, b.name = d.name :=
    fun d there =>
    .inr ⟨d, there, rfl⟩
  have modified : ∀ (sent : List (Nat × CString)) (queue : Queue) (id : Nat) (f : Client → Client),
      (∀ d, (f d).name = d.name) →
      ∀ d ∈ (({ s with sent := sent, queue := queue } : Server).modify id f).clientList,
        d.name = some command ∨ ∃ b ∈ s.clientList, b.name = d.name := fun sent queue id f kept =>
    modify_names (s := { s with sent := sent, queue := queue }) (fun d => .inl (kept d)) id
  cases h with
  | named => exact modify_names (fun _ => .inr rfl) c.id
  | student => exact modified _ _ _ _ fun _ => rfl
  | ta => exact modified _ _ _ _ fun _ => rfl
  | enrolled => exact modified _ _ _ _ fun _ => rfl
  | refused => exact modified _ _ _ _ fun _ => rfl
  | replied => exact same
  | idle => exact same
  | called => exact modified _ s.queue _ _ fun _ => rfl

theorem CleanNames.step (clean : CleanNames s) (inv : Inv s) (h : s.step e = .ok t) :
    CleanNames t := by
  constructor
  · rw [ServerHistories.step_queue h]
    cases said : ServerHistories.commandOf s e with
    | none => exact clean.lists
    | some argv => exact clean.lists.processArgs (clean.commandOf said)
  have kept : ∀ d : Client, (∃ b ∈ s.clientList, b.name = d.name) → ∀ name, d.name = some name →
    NUL ∉ name := by
    rintro d ⟨b, there, same⟩ name named
    exact clean.names b there name (same.trans named)
  cases outcome_of_step h with
  | selected => exact clean.names
  | accepted rest client hr live low high new =>
    intro d mem
    rcases List.mem_append.mp mem with old | fresh
    · exact clean.names d old
    · obtain rfl := List.mem_singleton.mp fresh
      simp [new]
  | removed fd rest c name queue hr hl hf gone hclose hn hq =>
    intro d mem
    rcases remaining_nodes hf inv.ids mem with old | rfl
    · exact clean.names d old
    · exact clean.names c (findClient_mem hf).1
  | waited fd rest c input hr hl hf heard hw =>
    intro d mem
    obtain ⟨b, there, rfl⟩ := List.mem_map.mp mem
    exact kept _ ⟨b, there, by split <;> rfl⟩
  | executed fd rest c input w u hr hl hf heard hw hle ran =>
    intro d mem name named
    obtain ⟨b, there, rfl⟩ := List.mem_map.mp mem
    have same : b.name = some name := by
      rw [← named]
      split <;> rfl
    rcases executed_names ran b there with typed | old
    · obtain rfl := Option.some.inj (same.symm.trans typed)
      exact Blocks.clean_cstr _
    · exact kept b old name same

end Strings

section Executing

variable {e : Event} {s t : Server} {c : Client} {command : CString}

/-- The lists as they are. -/
def Shows (s : Server) (lists : Lists) : Prop := lists = s.queue.toLists

/-- What a command does to the client: it is answered, or it is `next` and nobody waits, or it is
`next` and somebody who has a name is called. -/
inductive Spoke (s : Server) (c : Client) (command : CString) (t : Server) : Prop where
  | replied {msg : CString} {f : Client → Client} : t.clientList = (s.modify c.id f).clientList →
      t.sent = s.sent ++ [(c.id, msg)] → (∀ d, (f d).id = d.id) →
      Reply (Shows s) c.state c.name command msg (f c).state (f c).name → Spoke s c command t
  | idle : c.state = .waitingTCommand → command = text "next" → t.sent = s.sent →
      t.clientList = s.clientList →
      Spoke s c command t
  | called {toServe : Client} {name : CString} :
      c.state = .waitingTCommand → command = text "next" →
      toServe ∈ s.clientList → toServe.name = some name →
      t.sent = s.sent ++ [(toServe.id, STU_ACCEPT_MSG)] →
      t.clientList = (s.modify toServe.id fun d => { d with state := .disconnect }).clientList →
      Spoke s c command t

theorem modify_self (s : Server) (id : Nat) :
    (s.modify id fun d => d).clientList = s.clientList := by
  simp [Server.modify]

/-- A reply that leaves the client as it was. -/
theorem Spoke.answered {msg : CString}
    (reply : Reply (Shows s) c.state c.name command msg c.state c.name)
    (h : s.write e c msg = .ok t) : Spoke s c command t := by
  obtain ⟨_, rfl⟩ := write_ok h
  exact .replied (modify_self s c.id).symm rfl (fun _ => rfl) reply

theorem spoke_of_execute (here : c.Consistent) (clean : Clean s.queue.toLists)
    (h : s.execute e c command = .ok t) (active : c.state ≠ .disconnect) : Spoke s c command t := by
  unfold Server.execute at h
  cases hs : c.state with
  | waitingName =>
    simp only [hs] at h
    obtain rfl := written h
    refine .replied rfl rfl (fun _ => rfl) ?_
    rw [hs, here.named.mpr hs]
    exact .named command
  | waitingType =>
    simp only [hs] at h
    split at h
    · next student =>
      obtain rfl := written h
      refine .replied rfl rfl (fun _ => rfl) ?_
      rw [hs, student]
      exact .student c.name
    split at h
    · next ta =>
      obtain ⟨name, _, h⟩ := bind_ok_iff.mp h
      obtain rfl := written h
      refine .replied rfl rfl (fun _ => rfl) ?_
      rw [hs, ta]
      exact .ta c.name
    · next notS notT => exact .answered (hs ▸ .invalidRole c.name notS notT) h
  | waitingSCourse =>
    simp only [hs] at h
    split at h
    · next valid =>
      obtain ⟨name, _, h⟩ := bind_ok_iff.mp h
      obtain rfl := written h
      obtain ⟨course, known, same⟩ := valid
      refine .replied rfl rfl (fun _ => rfl) ?_
      rw [hs, same]
      exact .enrolled c.name known
    · next invalid =>
      obtain rfl := written h
      refine .replied rfl rfl (fun _ => rfl) ?_
      rw [hs]
      exact .invalidCourse c.name fun course known same => invalid ⟨course, known, same⟩
  | waitingSCommand =>
    simp only [hs] at h
    split at h
    · next stats =>
      rw [StatusReplies.printCurrentlyServing_lines e.block clean.staff] at h
      exact .answered (hs ▸ stats ▸ .serving c.name e.block rfl) h
    · next other => exact .answered (hs ▸ .syntaxS c.name other) h
  | waitingTCommand =>
    simp only [hs] at h
    split at h
    · next stats =>
      rw [StatusReplies.printFullQueue_lines e.block clean.waiting] at h
      exact .answered (hs ▸ stats ▸ .fullQueue c.name e.block rfl) h
    split at h
    · next next =>
      simp only [bind_ok_iff] at h
      obtain ⟨u, hcall, name, _, h⟩ := h
      obtain rfl := Except.ok.inj h
      obtain ⟨_, rfl⟩ | ⟨student, rest, toServe, waiting, hfound, rfl⟩ := callStudent_ok hcall
      · exact .idle hs next rfl rfl
      · obtain ⟨before, after, list, _, named, _⟩ := findClientStudent_found hfound
        exact .called hs next (by simp [list]) named rfl rfl
    · next notStats notNext => exact .answered (hs ▸ .syntaxT c.name notStats notNext) h
  | disconnect => exact absurd hs active

end Executing

section Records

variable {shown : Lists → Prop} {s t : Session} {e : Event} {c : Client}
  {command : CString} {id : Nat} {log new : List (Nat × Turn)}

theorem dialogue_append (id : Nat) (log new : List (Nat × Turn)) :
    dialogue id (log ++ new) = dialogue id log ++ dialogue id new := by
  simp [dialogue]

theorem dialogue_own (id : Nat) (turns : List Turn) : dialogue id (turns.map (id, ·)) = turns := by
  induction turns with
  | nil => rfl
  | cons turn turns ih => simpa [dialogue] using ih

theorem dialogue_other (other : ∀ p ∈ new, p.1 ≠ id) : dialogue id new = [] := by
  simpa [dialogue, List.filter_eq_nil_iff] using other

theorem toldNow_eq {u v : Server} {sent : List (Nat × CString)} (h : v.sent = u.sent ++ sent) :
    toldNow u v = sent.map fun (id, msg) => (id, .told msg) := by
  rw [toldNow, h, List.drop_left]

theorem Reply.mono {p q : Lists → Prop} (more : ∀ lists, p lists → q lists)
    {state state' : ClientState} {name name' : Option CString} {msg : CString}
    (h : Reply p state name command msg state' name') :
    Reply q state name command msg state' name' := by
  cases h with
  | named => exact .named _
  | student => exact .student _
  | ta => exact .ta _
  | invalidRole _ notS notT => exact .invalidRole _ notS notT
  | enrolled _ known => exact .enrolled _ known
  | invalidCourse _ unknown => exact .invalidCourse _ unknown
  | serving _ block there => exact .serving _ block (more _ there)
  | syntaxS _ other => exact .syntaxS _ other
  | fullQueue _ block there => exact .fullQueue _ block (more _ there)
  | syntaxT _ notStats notNext => exact .syntaxT _ notStats notNext

/-- What is recorded of each client is a dialogue that has led to its state and its name. -/
structure Spoken (shown : Lists → Prop) (s : Session) : Prop where
  known : ∀ p ∈ s.log, p.1 < s.server.nextClient
  each : ∀ id < s.server.nextClient, ∃ state name, Dialogue shown (dialogue id s.log) state name ∧
    ∀ c ∈ s.server.clientList, c.id = id → c.state = state ∧ c.name = name

/-- One client says or is told something, and its node is changed with that. -/
theorem Spoken.change (spoken : Spoken shown s) (inv : Inv s.server) (hc : c ∈ s.server.clientList)
    {f : Client → Client}
    (turns : List Turn) (list : t.server.clientList = (s.server.modify c.id f).clientList)
    (same : ∀ d, (f d).id = d.id)
    (log : t.log = s.log ++ turns.map (c.id, ·)) (count : t.server.nextClient = s.server.nextClient)
    (goes : ∀ before, Dialogue shown before c.state c.name →
      Dialogue shown (before ++ turns) (f c).state (f c).name) :
    Spoken shown t := by
  constructor
  · intro p mem
    rw [log, List.mem_append, List.mem_map] at mem
    rw [count]
    rcases mem with old | ⟨turn, _, rfl⟩
    · exact spoken.known p old
    · exact inv.ids_old c hc
  · intro id low
    rw [count] at low
    obtain ⟨state, name, led, kept⟩ := spoken.each id low
    rw [log, dialogue_append]
    by_cases mine : c.id = id
    · subst mine
      obtain ⟨rfl, rfl⟩ := kept c hc rfl
      rw [dialogue_own]
      refine ⟨_, _, goes _ led, ?_⟩
      intro d hd here
      rw [list] at hd
      rcases (mem_modify inv.ids hc).mp hd with rfl | ⟨hd, other⟩
      · exact ⟨rfl, rfl⟩
      · exact absurd (client_unique inv.ids hc hd here) other
    · have others : ∀ p ∈ turns.map (c.id, ·), p.1 ≠ id := by
        intro p mem
        obtain ⟨turn, _, rfl⟩ := List.mem_map.mp mem
        exact mine
      rw [dialogue_other others, List.append_nil]
      refine ⟨state, name, led, ?_⟩
      intro d hd here
      rw [list] at hd
      rcases (mem_modify inv.ids hc).mp hd with rfl | ⟨hd, _⟩
      · exact absurd ((same c).symm.trans here) mine
      · exact kept d hd here

/-- Nobody says anything, and no client is changed in what the dialogue is about. -/
theorem Spoken.quiet (spoken : Spoken shown s) (log : t.log = s.log)
    (count : t.server.nextClient = s.server.nextClient)
    (kept : ∀ d ∈ t.server.clientList, ∃ c ∈ s.server.clientList, c.id = d.id ∧ c.state = d.state ∧
      c.name = d.name) :
    Spoken shown t := by
  constructor
  · rw [log, count]
    exact spoken.known
  · intro id low
    rw [count] at low
    obtain ⟨state, name, led, all⟩ := spoken.each id low
    rw [log]
    refine ⟨state, name, led, ?_⟩
    rintro d hd rfl
    obtain ⟨c, hc, same, states, names⟩ := kept d hd
    rw [← states, ← names]
    exact all c hc same

/-- A client that is accepted is greeted. -/
theorem Spoken.greet (spoken : Spoken shown s) (inv : Inv s.server)
    (fresh : c.id = s.server.nextClient) (begins : c.state = .waitingName ∧ c.name = none)
    (list : t.server.clientList = s.server.clientList ++ [c])
    (log : t.log = s.log ++ [(c.id, .told WELCOME_MSG)])
    (count : t.server.nextClient = s.server.nextClient + 1) :
    Spoken shown t := by
  constructor
  · intro p mem
    rw [log, List.mem_append, List.mem_singleton] at mem
    rw [count]
    rcases mem with old | rfl
    · exact Nat.lt_succ_of_lt (spoken.known p old)
    · exact fresh ▸ Nat.lt_succ_self _
  · intro id low
    rw [count] at low
    rw [log, dialogue_append]
    rcases Nat.lt_succ_iff_lt_or_eq.mp low with low | rfl
    · obtain ⟨state, name, led, all⟩ := spoken.each id low
      have other : ∀ p ∈ [(c.id, Turn.told WELCOME_MSG)], p.1 ≠ id := by
        simp only [List.mem_singleton, forall_eq, fresh]
        omega
      rw [dialogue_other other, List.append_nil]
      refine ⟨state, name, led, ?_⟩
      rintro d hd here
      rw [list, List.mem_append, List.mem_singleton] at hd
      rcases hd with hd | rfl
      · exact all d hd here
      · omega
    · have before : dialogue s.server.nextClient s.log = [] :=
        dialogue_other fun p mem => Nat.ne_of_lt (spoken.known p mem)
      have now :
          dialogue s.server.nextClient [(c.id, Turn.told WELCOME_MSG)] = [.told WELCOME_MSG] := by
        simp [dialogue, fresh]
      rw [before, now]
      refine ⟨_, _, .greeted, ?_⟩
      intro d hd here
      rw [list, List.mem_append, List.mem_singleton] at hd
      rcases hd with hd | rfl
      · exact absurd here (Nat.ne_of_lt (inv.ids_old d hd))
      · exact begins

/-- A command is executed. -/
theorem Spoken.execute {u : Server} (spoken : Spoken shown s) (inv : Inv s.server)
    (hc : c ∈ s.server.clientList)
    (count : u.nextClient = s.server.nextClient) (here : shown s.server.queue.toLists)
    (spoke : Spoke s.server c command u) :
    Spoken shown ⟨u, s.log ++ [(c.id, .heard command)] ++ toldNow s.server u⟩ := by
  cases spoke with
  | @replied msg _ list sent same reply =>
    refine spoken.change inv hc [.heard command, .told msg] list same ?_ count ?_
    · simp [toldNow_eq sent]
    · exact fun _ led => .replied led (reply.mono (by rintro _ rfl; exact here))
  | idle waits next sent list =>
    subst next
    have unchanged := list.trans (modify_self s.server c.id).symm
    refine spoken.change inv hc [.heard (text "next")] unchanged (fun _ => rfl) ?_ count ?_
    · have nothing : toldNow s.server u = [] := by
        rw [toldNow, sent, List.drop_length, List.map_nil]
      simp [nothing]
    · rw [waits]
      exact fun _ led => .next led
  | called waits next there named sent list =>
    subst next
    have asked : Spoken shown ⟨s.server, s.log ++ [(c.id, .heard (text "next"))]⟩ := by
      refine spoken.change inv hc [.heard (text "next")] (modify_self s.server c.id).symm
        (fun _ => rfl) rfl rfl ?_
      rw [waits]
      exact fun _ led => .next led
    refine asked.change inv there [.told STU_ACCEPT_MSG] list (fun _ => rfl) ?_ count ?_
    · rw [toldNow_eq sent]
      rfl
    · rw [named]
      exact fun _ led => .called led

theorem nextClient_executed {s u : Server} (h : Executed e c command s u) :
    u.nextClient = s.nextClient := by
  cases h <;> rfl

theorem setInput_kept {s : Server} (input : Input) {d : Client}
    (hd : d ∈ (s.setInput c input).clientList) :
    ∃ b ∈ s.clientList, b.id = d.id ∧ b.state = d.state ∧ b.name = d.name := by
  obtain ⟨b, hb, rfl⟩ := List.mem_map.mp hd
  refine ⟨b, hb, ?_⟩
  split <;> exact ⟨rfl, rfl, rfl⟩

/-- A turn in which no command is complete. -/
theorem Spoken.unheard {u : Server} (spoken : Spoken shown s) (inv : Inv s.server)
    (silent : line s.server e = none)
    (h : s.server.step e = .ok u) : Spoken shown ⟨u, s.log ++ toldNow s.server u⟩ := by
  have quiet : ∀ {u : Server}, u.sent = s.server.sent → s.log ++ toldNow s.server u = s.log := by
    intro u sent
    rw [toldNow, sent, List.drop_length, List.map_nil, List.append_nil]
  cases outcome_of_step h with
  | selected ready hr => exact spoken.quiet (quiet rfl) rfl fun d hd => ⟨d, hd, rfl, rfl, rfl⟩
  | accepted rest client hr live low high new =>
    subst new
    exact spoken.greet inv rfl ⟨rfl, rfl⟩ rfl (by rw [toldNow_eq rfl]; rfl) rfl
  | removed fd rest c name queue hr hl hf gone hclose hn hq =>
    refine spoken.quiet (quiet rfl) rfl fun d hd => ?_
    rcases remaining_nodes hf inv.ids hd with old | rfl
    · exact ⟨d, old, rfl, rfl, rfl⟩
    · exact ⟨c, (findClient_mem hf).1, rfl, rfl, rfl⟩
  | waited fd rest c input hr hl hf heard hw =>
    exact spoken.quiet (quiet rfl) rfl fun d hd =>
      setInput_kept (s := { s.server with readFdSet := rest }) _ hd
  | executed fd rest c input w u hr hl hf heard hw =>
    simp [line, heard, hw] at silent

/-- A turn in which one is. -/
theorem Spoken.heard {u : Server} (spoken : Spoken shown s) (inv : Inv s.server)
    (clean : CleanNames s.server)
    (here : shown s.server.queue.toLists) (spoke : line s.server e = some (c, command))
    (h : s.server.step e = .ok u) :
    Spoken shown ⟨u, s.log ++ [(c.id, .heard command)] ++ toldNow s.server u⟩ := by
  obtain ⟨input, w, heard, hw, rfl⟩ := line_some spoke
  obtain ⟨fd, rest, hr, hf, taken⟩ := step_line heard hw
  obtain ⟨v, run, rest'⟩ := bind_ok_iff.mp (taken.symm.trans h)
  split at rest'
  · cases rest'
  obtain rfl := Except.ok.inj rest'
  have hc := (findClient_mem hf).1
  have active := active_of_reads heard
  have visited : Spoken shown ⟨{ s.server with readFdSet := rest }, s.log⟩ :=
    spoken.quiet rfl rfl fun d hd => ⟨d, hd, rfl, rfl, rfl⟩
  have after :=
    visited.execute (inv.visit hr) hc (nextClient_executed (executed_of_ok run active)) here
    (spoke_of_execute (inv.consistent c hc) clean.lists run active)
  exact after.quiet rfl rfl fun d hd => setInput_kept _ hd

/-- What has been written stays written. -/
theorem sent_grows {u v : Server} (h : u.step e = .ok v) : u.sent <+: v.sent := by
  cases outcome_of_step h with
  | executed fd rest c input w t hr hl hf heard hw hle run =>
    cases run <;> first | exact List.prefix_append _ _ | exact List.prefix_rfl
  | accepted => exact List.prefix_append _ _
  | _ => exact List.prefix_rfl

theorem Spoken.step (spoken : Spoken shown s) (inv : Inv s.server) (clean : CleanNames s.server)
    (here : shown s.server.queue.toLists) (h : Dialogues.step s e = .ok t) : Spoken shown t := by
  obtain ⟨server, moved, h⟩ := bind_ok_iff.mp h
  obtain rfl := Except.ok.inj h
  cases spoke : line s.server e with
  | none =>
    rw [heardNow, spoke, Option.toList_none, List.map_nil, List.append_nil]
    exact spoken.unheard inv spoke moved
  | some r =>
    rw [heardNow, spoke]
    exact spoken.heard inv clean here spoke moved

end Records

section Results

variable {usable : Server → Event → Nat → Nat} {s : Session} {listenFd : Int}

theorem spoken_start (shown : Lists → Prop) (listenFd : Int) : Spoken shown (start listenFd) where
  known := by simp [start]
  each := fun _ low => absurd low (Nat.not_lt_zero _)

/-- The steps of a session are the steps of its server. -/
theorem server_reachable (reached : Reachable step (Legal usable) (start listenFd) s) :
    Reachable Server.step HelpServer.Legal (HelpServer.start listenFd) s.server := by
  induction reached with
  | start => exact .start
  | next e _ legal h ih =>
    obtain ⟨server, moved, h⟩ := bind_ok_iff.mp h
    obtain rfl := Except.ok.inj h
    exact .next e ih legal.1 moved

theorem cleanNames_reachable {u : Server}
    (reached : Reachable Server.step HelpServer.Legal (HelpServer.start listenFd) u) :
    CleanNames u := by
  induction reached with
  | start => exact ⟨⟨by simp [HelpServer.start, Queue.empty],
        by simp [HelpServer.start, Queue.empty]⟩, by simp [HelpServer.start]⟩
  | next e before _ h ih => exact ih.step (inv_reachable before) h

/-- The lists of the states that the server has been in. -/
def Seen (listenFd : Int) (lists : Lists) : Prop :=
  ∃ u, Reachable Server.step HelpServer.Legal (HelpServer.start listenFd) u ∧
    u.queue.toLists = lists

/-- The messages of the record are those that the server has written. -/
theorem messages_reachable (reached : Reachable step (Legal usable) (start listenFd) s) :
    messages s.log = s.server.sent := by
  induction reached with
  | start => rfl
  | @next s t e _ _ h ih =>
    obtain ⟨server, moved, h⟩ := bind_ok_iff.mp h
    obtain rfl := Except.ok.inj h
    obtain ⟨sent, grown⟩ := sent_grows moved
    have heard : ∀ r : Option (Client × CString),
      messages (r.toList.map fun (c, command) => (c.id, .heard command)) = [] := by
      rintro (_ | r) <;> rfl
    have told : ∀ sent : List (Nat × CString),
      messages (sent.map fun (id, msg) => (id, .told msg)) = sent := by
      intro sent
      induction sent with
      | nil => rfl
      | cons p sent ih => exact congrArg (p :: ·) ih
    have parts :
        ∀ a b : List (Nat × Turn), messages (a ++ b) = messages a ++ messages b := fun a b =>
      List.filterMap_append
    rw [parts, parts, ih, heardNow, heard, toldNow_eq grown.symm, told, List.append_nil, grown]

/-- A student and a TA: the student is told that it waits, and is called. -/
def session : List Event :=
  connects 4 ++ sends 4 (text "ann") ++ connects 5 ++ sends 5 (text "bob") ++ sends 4 (text "S") ++
    sends 5 (text "T") ++ sends 4 (text "CSC108") ++ sends 5 (text "stats") ++ sends 5 (text "next")

end Results

end Dialogues
