import CSC209.A3.WordList
import CSC209.StreamIO

/-!
# The index files

`write_list` writes each node as the bytes of its struct, the stale `next`
pointer included, and the file names as lines of text. `read_list` reads whole
structs into new nodes, links them one behind the other and drops the node
that was allocated for the record that did not come; then it reads the lines.
Opening and closing files succeeds. How the machine stores a pointer, and what
a new node holds before it is written, are parameters: no result depends on
them.
-/

namespace IndexFiles

open CStrings StreamIO NodeMemory LinkedChain FreqList WordList

/-- A pointer takes eight bytes. -/
structure PointerFormat where
  bytes : Pointer → List Byte
  pointer : List Byte → Pointer
  width : ∀ p, (bytes p).length = 8

/-- `sizeof(Node)`; the fields leave no gap. -/
def NODESIZE : Nat := MAXWORD + 4 * MAXFILES + 8

inductive Halt where
  | tooManyFilenames
  | emptyLine
  | fault (f : Fault)
  deriving DecidableEq, Repr

/-- What `read_list` leaves in memory and in its two output parameters. -/
structure Loaded where
  nodes : Memory Node
  head : Pointer
  filenames : List (Option CString)
  deriving DecidableEq, Repr

section Source

variable (fmt : PointerFormat)

def nodeBytes (n : Node) : List Byte :=
  n.word ++ n.freq.flatMap intBytes ++ fmt.bytes n.next

def nodeOf (block : List Byte) : Node where
  word := block.take MAXWORD
  freq := intsOf ((block.drop MAXWORD).take (4 * MAXFILES))
  next := fmt.pointer (block.drop (MAXWORD + 4 * MAXFILES))

/-- One line for each name before the first NULL. -/
def nameLines : List (Option CString) → List Byte
  | some name :: rest => name ++ [LF] ++ nameLines rest
  | _ => []

/-- The contents of the list file and of the name file. -/
def writeList (x : Index) : Except Fault (List Byte × List Byte) := do
  let visited ← x.nodes.visit Node.next x.nodes.size x.head
  .ok ((visited.filterMap x.nodes.get).flatMap (nodeBytes fmt), nameLines x.filenames)

/-- The loop over `fread`: the memory and `cur` when no record is left. `junk` is what a new
node holds. -/
def readNodes (junk : Node) :
    Nat → List Byte → Memory Node → Pointer → Pointer → Pointer →
    Except Fault (Memory Node × Pointer)
  | 0, _, _, _, _, _ => .error .outOfFuel
  | fuel + 1, file, m, head, prev, cur =>
    match fread NODESIZE file with
    | none => .ok (m, cur)
    | some (block, rest) => do
      let m ← m.update cur fun _ => { nodeOf fmt block with next := none }
      let m ← if cur = head then .ok m else m.update prev fun n => { n with next := cur }
      readNodes junk fuel rest (m.alloc junk) head cur (some m.size)

/-- The loop over `fgets`, from slot `i` on. -/
def readNames : List (List Byte) → Nat → List (Option CString) → Except Halt (List (Option CString))
  | [], _, filenames => .ok filenames
  | line :: rest, i, filenames =>
    match chop line with
    | none => .error .emptyLine
    | some name =>
      if i + 1 = MAXFILES then .error .tooManyFilenames
      else readNames rest (i + 1) (filenames.set i (some name))

def readList (junk : Node) (listfile namefile : List Byte) (m : Memory Node)
    (filenames : List (Option CString)) : Except Halt Loaded := do
  let first : Pointer := some m.size
  let (m, cur) ←
    (readNodes fmt junk (listfile.length + 1) listfile (m.alloc junk) first none first).mapError
    .fault
  let m ← (m.free cur).mapError .fault
  let filenames ← readNames (lines MAXLINE namefile) 0 filenames
  .ok ⟨m, if first = cur then none else first, filenames⟩

end Source

/-- The fields of the struct have their sizes, and the frequencies are values of `int`. -/
structure Sized (e : Entry) : Prop where
  word : e.word.length = MAXWORD
  freq : e.freq.length = MAXFILES
  ints : ∀ v ∈ e.freq, IsInt v

variable {fmt : PointerFormat} {junk n : Node} {m m' : Memory Node} {p : Pointer}
  {cells before : List Cell} {c : Cell} {ns : List Node} {fuel : Nat} {names : List CString}
  {filenames : List (Option CString)}

section Nodes

theorem length_nodeBytes (sized : Sized n.toEntry) : (nodeBytes fmt n).length = NODESIZE := by
  simp only [nodeBytes, List.length_append, sized.word, length_flatMap_intBytes,
    sized.freq, fmt.width, NODESIZE]

/-- What is read from a record is the node that was written, but for its pointer. -/
theorem nodeOf_nodeBytes (sized : Sized n.toEntry) :
    ({ nodeOf fmt (nodeBytes fmt n) with next := none } : Node) = { n with next := none } := by
  have ints : (n.freq.flatMap intBytes).length = 4 * MAXFILES := by
    rw [length_flatMap_intBytes, sized.freq]
  have word : (n.word ++ (n.freq.flatMap intBytes ++ fmt.bytes n.next)).take MAXWORD = n.word :=
    List.take_left' sized.word
  have rest : (n.word ++ (n.freq.flatMap intBytes ++ fmt.bytes n.next)).drop MAXWORD =
      n.freq.flatMap intBytes ++ fmt.bytes n.next := List.drop_left' sized.word
  have freq :
      (n.freq.flatMap intBytes ++ fmt.bytes n.next).take (4 * MAXFILES) = n.freq.flatMap intBytes :=
    List.take_left' ints
  simp only [nodeOf, nodeBytes, List.append_assoc, word, rest, freq, intsOf_flatMap sized.ints]

/-- Every record takes a byte at least, so the length of the file is fuel enough. -/
theorem length_le_bytes (fmt : PointerFormat) (sized : ∀ n ∈ ns, Sized n.toEntry) :
    ns.length ≤ (ns.flatMap (nodeBytes fmt)).length := by
  induction ns with
  | nil => rfl
  | cons n rest ih =>
    have here : (nodeBytes fmt n).length = 240 := length_nodeBytes (sized n List.mem_cons_self)
    have later := ih fun k hk => sized k (List.mem_cons_of_mem n hk)
    simp only [List.length_cons, List.flatMap_cons, List.length_append]
    omega

theorem fread_node (sized : Sized n.toEntry) (rest : List Byte) :
    fread NODESIZE (nodeBytes fmt n ++ rest) = some (nodeBytes fmt n, rest) := by
  have size : (nodeBytes fmt n).length = NODESIZE := length_nodeBytes sized
  rw [← size]
  exact fread_append _ rest

/-- Equal nodes at the cells make the same list. -/
theorem holds_congr (holds : Holds m p cells) (agree : ∀ c ∈ cells, m'.get c.1 = m.get c.1) :
    Holds m' p cells := by
  refine ⟨segment_congr ?_ holds.chain, fun c hc => ?_⟩
  · intro a ha
    obtain ⟨c, hc, rfl⟩ := List.mem_map.mp ha
    exact Memory.link_congr (agree c hc)
  · rw [agree c hc]
    exact holds.stored c hc

/-- The last node is pointed at a new node without a successor. -/
theorem holds_snoc {e : Entry} {a : Addr} (holds : Holds m p (before ++ [c]))
    (fresh : a ∉ (before ++ [c]).map Prod.fst) (new : m'.get a = some { e with next := none })
    (last : m'.get c.1 = some { c.2 with next := some a })
    (agree : ∀ b, b ≠ c.1 → b ≠ a → m'.get b = m.get b) :
        Holds m' p (before ++ [c] ++ [(a, e)]) := by
  refine ⟨?_, fun d hd => ?_⟩
  · have chain := holds.chain
    rw [List.map_append] at chain
    simpa using chain.snoc a (by simpa using fresh) (Memory.link_of_get new)
      (fun b hb ha => Memory.link_congr (agree b hb ha)) (Memory.link_of_get last)
  · rcases List.mem_append.mp hd with hd | hd
    · have away : d.1 ≠ a := fun same => fresh (same ▸ List.mem_map_of_mem hd)
      rcases mem_middle.mp hd with rfl | elsewhere
      · simp [last]
      · rw [agree d.1 (holds.apart elsewhere) away]
        exact holds.stored d hd
    · obtain rfl := List.mem_singleton.mp hd
      simp [new]

theorem head_mem {h : Addr} (holds : Holds m (some h) cells) : h ∈ cells.map Prod.fst := by
  have first : some h = (cells.map Prod.fst).head? := Chain.pointer_eq holds.chain
  exact List.mem_of_head? first.symm

/-- The loop after the first record: what is read is appended, and the node that waits for the
next record is in no cell. -/
theorem readNodes_append (fmt : PointerFormat) (junk : Node) {h a : Addr} {j : Node}
    (holds : Holds m (some h) (before ++ [c]))
    (fresh : a ∉ (before ++ [c]).map Prod.fst) (waits : m.get a = some j)
    (sized : ∀ n ∈ ns, Sized n.toEntry) (enough : ns.length < fuel) :
    ∃ m' a' new,
      readNodes fmt junk fuel (ns.flatMap (nodeBytes fmt)) m (some h) (some c.1) (some a) =
        .ok (m', some a') ∧
      Holds m' (some h) (before ++ [c] ++ new) ∧ new.map Prod.snd = ns.map Node.toEntry ∧
      a' ∉ (before ++ [c] ++ new).map Prod.fst ∧ ∃ j, m'.get a' = some j := by
  induction ns generalizing m before c a j fuel with
  | nil =>
    obtain ⟨fuel, rfl⟩ := exists_fuel enough
    refine ⟨m, a, [], ?_, by simpa using holds, rfl, by simpa using fresh, j, waits⟩
    simp [readNodes, fread, NODESIZE]
  | cons n ns ih =>
    obtain ⟨fuel, rfl⟩ := exists_fuel enough
    have sizedN := sized n List.mem_cons_self
    have apart : c.1 ≠ a := fun same => fresh (same ▸ by simp)
    have first : a ≠ h := fun same => fresh (same ▸ head_mem holds)
    -- the record goes into `cur`, then `prev` is pointed at it
    let node : Node := { n with next := none }
    let prev : Node := { c.2 with next := some a }
    let m2 := (m.store a (some node)).store c.1 (some prev)
    have hc : (m.store a (some node)).get c.1 = some { c.2 with next := none } :=
      (Memory.get_store_of_ne apart _).trans holds.node
    have ha : (m.store a (some node)).get a = some node := Memory.get_store_same waits _
    have new : m2.get a = some node := (Memory.get_store_of_ne (Ne.symm apart) _).trans ha
    have last : m2.get c.1 = some prev := Memory.get_store_same hc _
    have linked : Holds m2 (some h) (before ++ [c] ++ [(a, n.toEntry)]) := by
      refine holds_snoc holds fresh new last fun b hb hba => ?_
      exact (Memory.get_store_of_ne hb _).trans (Memory.get_store_of_ne hba _)
    have holds2 : Holds (m2.alloc junk) (some h) (before ++ [c] ++ [(a, n.toEntry)]) :=
      holds_congr linked fun d hd => Memory.get_alloc_of_ne (Nat.ne_of_lt (linked.lt_size hd))
    obtain ⟨m', a', more, hrun, done, same, away, there⟩ :=
      ih holds2 linked.fresh Memory.get_alloc_new
      (fun k hk => sized k (List.mem_cons_of_mem n hk)) (Nat.lt_of_succ_lt_succ enough)
    refine ⟨m', a', (a, n.toEntry) :: more, ?_, by simpa using done, by simp [same],
      by simpa using away, there⟩
    rw [readNodes, List.flatMap_cons, fread_node sizedN]
    simp only [nodeOf_nodeBytes sizedN, Memory.update_of_get waits, bind, Except.bind]
    have notFirst : ¬ some a = some h := by simpa using first
    rw [if_neg notFirst, Memory.update_of_get hc]
    exact hrun

/-- The list that is read, and the allocation that was not needed. -/
theorem readNodes_spec (fmt : PointerFormat) (junk : Node) (m : Memory Node)
    (sized : ∀ n ∈ ns, Sized n.toEntry) (enough : ns.length < fuel) :
    ∃ m' a' new,
      readNodes fmt junk fuel (ns.flatMap (nodeBytes fmt)) (m.alloc junk) (some m.size) none
        (some m.size) = .ok (m', some a') ∧
      Holds m' (if some m.size = some a' then none else some m.size) new ∧
      new.map Prod.snd = ns.map Node.toEntry ∧ a' ∉ new.map Prod.fst ∧ ∃ j, m'.get a' = some j := by
  obtain ⟨fuel, rfl⟩ := exists_fuel enough
  cases ns with
  | nil =>
    refine ⟨m.alloc junk, m.size, [], ?_, ?_, rfl, by simp, junk, Memory.get_alloc_new⟩
    · simp [readNodes, fread, NODESIZE]
    · rw [if_pos rfl]
      exact ⟨rfl, by simp⟩
  | cons n ns =>
    have sizedN := sized n List.mem_cons_self
    let node : Node := { n with next := none }
    let m1 := (m.alloc junk).store m.size (some node)
    have new : m1.get m.size = some node := Memory.get_store_same Memory.get_alloc_new _
    have one : Holds m1 (some m.size) ([] ++ [(m.size, n.toEntry)]) := by
      refine ⟨⟨rfl, none, Memory.link_of_get new, rfl⟩, fun d hd => ?_⟩
      obtain rfl := List.mem_singleton.mp hd
      simp [new, node]
    have holds : Holds (m1.alloc junk) (some m.size) ([] ++ [(m.size, n.toEntry)]) :=
      holds_congr one fun d hd => Memory.get_alloc_of_ne (Nat.ne_of_lt (one.lt_size hd))
    obtain ⟨m', a', more, hrun, done, same, away, there⟩ :=
      readNodes_append fmt junk holds one.fresh
      Memory.get_alloc_new (fun k hk => sized k (List.mem_cons_of_mem n hk))
        (Nat.lt_of_succ_lt_succ enough)
    have apart : ¬ some m.size = some a' := by
      intro first
      exact away (Option.some.inj first ▸ head_mem done)
    refine ⟨m', a', [] ++ [(m.size, n.toEntry)] ++ more, ?_, ?_, by simp [same], away, there⟩
    · rw [readNodes, List.flatMap_cons, fread_node sizedN]
      simp only [nodeOf_nodeBytes sizedN, Memory.update_of_get Memory.get_alloc_new, bind,
        Except.bind, if_true]
      exact hrun
    · rw [if_neg apart]
      exact done

end Nodes

section Names

/-- The lines of the name file. -/
theorem nameLines_slots (names : List CString) (k : Nat) :
    nameLines (slots names k) = names.flatMap (· ++ [LF]) := by
  induction names with
  | nil => cases k <;> rfl
  | cons name rest ih => simpa [slots, nameLines] using ih

/-- Names go into consecutive slots as long as the last slot of the array stays free. -/
theorem readNames_spec (filenames : List (Option CString)) {i : Nat} (clean : ∀ f ∈ names, NUL ∉ f)
    (few : i + names.length < MAXFILES) (room : i + names.length ≤ filenames.length) :
    readNames (names.map (· ++ [LF])) i filenames =
      .ok (filenames.take i ++ names.map some ++ filenames.drop (i + names.length)) := by
  induction names generalizing i filenames with
  | nil => simp [readNames]
  | cons name rest ih =>
    simp only [List.length_cons] at few room
    have body : chop (name ++ [LF]) = some name := chop_newline (clean name List.mem_cons_self)
    have free : ¬ i + 1 = MAXFILES := by omega
    simp only [List.map_cons, readNames, body, if_neg free]
    rw [ih _ (fun f hf => clean f (List.mem_cons_of_mem name hf)) (by omega) (by simp; omega)]
    have inside : i < (filenames.set i (some name)).length := by
      rw [List.length_set]
      omega
    rw [List.take_succ_eq_append_getElem inside, List.take_set_of_le (Nat.le_refl i),
      List.getElem_set_self, List.drop_set_of_lt (by omega)]
    simp [Nat.add_assoc, Nat.add_comm 1]

/-- The name that fills the last slot ends the program. -/
theorem readNames_full (filenames : List (Option CString)) {i : Nat} (clean : ∀ f ∈ names, NUL ∉ f)
    (before : i < MAXFILES) (many : MAXFILES ≤ i + names.length) :
    readNames (names.map (· ++ [LF])) i filenames = .error .tooManyFilenames := by
  induction names generalizing i filenames with
  | nil =>
    simp only [List.length_nil] at many
    omega
  | cons name rest ih =>
    simp only [List.length_cons] at many
    have body : chop (name ++ [LF]) = some name := chop_newline (clean name List.mem_cons_self)
    simp only [List.map_cons, readNames, body]
    split
    · rfl
    · exact ih _ (fun f hf => clean f (List.mem_cons_of_mem name hf)) (by omega) (by omega)

end Names

section Results

variable {x : Index}

/-- What is written for a list: a record for each entry, in order, and the names. -/
theorem writeList_spec (fmt : PointerFormat) (holds : Holds x.nodes x.head cells)
    (sized : ∀ c ∈ cells, Sized c.2) :
    ∃ ns : List Node, writeList fmt x = .ok (ns.flatMap (nodeBytes fmt), nameLines x.filenames) ∧
      ns.map Node.toEntry = cells.map Prod.snd ∧ ∀ n ∈ ns, Sized n.toEntry := by
  have enough : (cells.map Prod.fst).length ≤ x.nodes.size := Memory.chain_length_le holds.chain
  have walked := Memory.visit_chain holds.chain enough
  have entries :
      ((cells.map Prod.fst).filterMap x.nodes.get).map Node.toEntry = cells.map Prod.snd := by
    rw [List.map_filterMap, List.filterMap_map]
    exact (List.filterMap_congr holds.stored).trans (congrFun List.filterMap_eq_map' cells)
  refine ⟨_, by simp only [writeList, walked, bind, Except.bind], entries, fun n hn => ?_⟩
  have listed : n.toEntry ∈ cells.map Prod.snd := entries ▸ List.mem_map_of_mem hn
  obtain ⟨c, hc, same⟩ := List.mem_map.mp listed
  exact same ▸ sized c hc

/-- Reading back the two files: the same list, and the names in their slots unless they fill
the array. -/
theorem readList_spec (fmt : PointerFormat) (junk : Node) (m : Memory Node)
    (filenames : List (Option CString)) (sized : ∀ n ∈ ns, Sized n.toEntry)
    (wellFormed : ∀ f ∈ names, f.length < PATHLENGTH ∧ NUL ∉ f ∧ LF ∉ f)
    (room : names.length ≤ filenames.length) :
    if names.length < MAXFILES then
      ∃ loaded,
        readList fmt junk (ns.flatMap (nodeBytes fmt)) (names.flatMap (· ++ [LF])) m filenames =
          .ok loaded ∧
        listFrom loaded.nodes loaded.head = .ok (ns.map Node.toEntry) ∧
        loaded.filenames = names.map some ++ filenames.drop names.length
    else
      readList fmt junk (ns.flatMap (nodeBytes fmt)) (names.flatMap (· ++ [LF])) m filenames =
        .error .tooManyFilenames := by
  have enough : ns.length < (ns.flatMap (nodeBytes fmt)).length + 1 :=
    Nat.lt_succ_of_le (length_le_bytes fmt sized)
  have clean : ∀ f ∈ names, NUL ∉ f := fun f hf => (wellFormed f hf).2.1
  have read : lines MAXLINE (names.flatMap (· ++ [LF])) = names.map (· ++ [LF]) :=
    lines_of_newlines (fun f hf => (wellFormed f hf).2.2) fun f hf => by
      have short := (wellFormed f hf).1
      simp only [PATHLENGTH, MAXLINE] at short ⊢
      omega
  obtain ⟨m', a, new, hrun, holds, same, away, j, there⟩ := readNodes_spec fmt junk m sized enough
  split
  · rename_i few
    have slotted :=
      readNames_spec filenames (i := 0) clean (by simpa using few) (by simpa using room)
    simp only [List.take_zero, List.nil_append, Nat.zero_add] at slotted
    have apart : ∀ c ∈ new, c.1 ≠ a := by
      rintro c hc rfl
      exact away (List.mem_map_of_mem hc)
    have kept : Holds (m'.store a none) (if some m.size = some a then none else some m.size) new :=
      holds_congr holds fun c hc => Memory.get_store_of_ne (apart c hc) _
    let loaded : Loaded :=
      ⟨m'.store a none, if some m.size = some a then none else some m.size,
        names.map some ++ filenames.drop names.length⟩
    refine ⟨loaded, ?_, ?_, rfl⟩
    · simp only [readList, hrun, Except.mapError, bind, Except.bind, Memory.free_of_get there, read,
        slotted, loaded]
    · rw [← same]
      exact kept.listFrom
  · rename_i many
    have full := readNames_full filenames (i := 0) clean (by decide) (by simpa using many)
    simp only [readList, hrun, Except.mapError, bind, Except.bind,
      Memory.free_of_get there, read, full]

/-- The two files give back the list, terminated, and every name in its slot; the other slots of
the array that is filled are left alone. -/
def RoundTrips (fmt : PointerFormat) (x : Index) (junk : Node) (m : Memory Node)
    (filenames : List (Option CString)) : Prop :=
  ∃ listfile namefile loaded entries,
    writeList fmt x = .ok (listfile, namefile) ∧
    readList fmt junk listfile namefile m filenames = .ok loaded ∧
    x.contents = .ok entries ∧ listFrom loaded.nodes loaded.head = .ok entries ∧
    ∀ i, (loaded.filenames[i]?).join = (x.fileAt i).or (filenames[i]?).join

/-- The files come back exactly when fewer than `MAXFILES` files were indexed. -/
theorem round_trip_iff (fmt : PointerFormat) (x : Index) (cells : List Cell) (names : List CString)
    (junk : Node) (m : Memory Node) (filenames : List (Option CString))
    (holds : Holds x.nodes x.head cells) (sized : ∀ c ∈ cells, Sized c.2)
    (array : x.filenames = slots names (MAXFILES - names.length))
    (wellFormed : ∀ f ∈ names, f.length < PATHLENGTH ∧ NUL ∉ f ∧ LF ∉ f)
    (room : names.length ≤ filenames.length) :
    RoundTrips fmt x junk m filenames ↔ names.length < MAXFILES := by
  obtain ⟨ns, hwrite, entries, sizedNs⟩ := writeList_spec fmt holds sized
  rw [array, nameLines_slots] at hwrite
  have hread := readList_spec fmt junk m filenames sizedNs wellFormed room
  constructor
  · rintro ⟨listfile, namefile, loaded, _, hwrite', hread', _⟩
    obtain ⟨rfl, rfl⟩ := Prod.mk.inj (Except.ok.inj (hwrite.symm.trans hwrite'))
    by_contra many
    rw [if_neg many] at hread
    rw [hread'] at hread
    cases hread
  · intro free
    rw [if_pos free] at hread
    obtain ⟨loaded, hloaded, hlist, hnames⟩ := hread
    refine ⟨_, _, loaded, _, hwrite, hloaded, holds.listFrom, entries ▸ hlist, fun i => ?_⟩
    rw [hnames, slot_of_names, Index.fileAt, array, slot_of_slots]

/-- Eight bytes, the lowest first; zero is the null pointer. -/
def wordPointers : PointerFormat where
  bytes p := leBytes 8 (p.elim 0 (· + 1))
  pointer bytes := if leNat bytes = 0 then none else some (leNat bytes - 1)
  width _ := length_leBytes 8 _

/-- Two nodes, the second one made first. -/
theorem round_trip_iff_two :
    let node (word : CString) (next : Pointer) : Node := { createEntry word 3 1 with next }
    let names : List CString := [text "./d/a", text "./d/b"]
    let x : Index := ⟨⟨[some (node (text "tree") none), some (node (text "list") (some 0))]⟩,
      some 1, slots names 48, 2⟩
    RoundTrips wordPointers x (node [] none) ⟨[]⟩ initFilenames ↔ names.length < MAXFILES :=
  round_trip_iff wordPointers _ [(1, createEntry (text "list") 3 1),
    (0, createEntry (text "tree") 3 1)] _ _ _ _
    ⟨⟨rfl, some 0, rfl, rfl, none, rfl, rfl⟩, by decide⟩
    (by
      intro c hc
      rcases List.mem_pair.mp hc with rfl | rfl <;> exact ⟨by decide, by decide, by decide⟩)
    rfl (by decide) (by decide)

/-- Fifty file names of one character fill the array, and the list may even be empty. -/
theorem full_array_not_read :
    ¬ ∀ (fmt : PointerFormat) (x : Index) (cells : List Cell) (names : List CString) (junk : Node)
      (m : Memory Node) (filenames : List (Option CString)),
      Holds x.nodes x.head cells → (∀ c ∈ cells, Sized c.2) →
      x.filenames = slots names (MAXFILES - names.length) → names.length ≤ MAXFILES → names.Nodup →
      (∀ f ∈ names, f.length < PATHLENGTH ∧ NUL ∉ f ∧ LF ∉ f) → names.length ≤ filenames.length →
      RoundTrips fmt x junk m filenames := by
  intro back
  let names : List CString := (List.range 50).map fun i => [UInt8.ofNat (i + 33)]
  let x : Index := ⟨⟨[]⟩, none, slots names 0, 0⟩
  have wellFormed : ∀ f ∈ names, f.length < PATHLENGTH ∧ NUL ∉ f ∧ LF ∉ f := by decide
  obtain ⟨listfile, namefile, loaded, _, hwrite, hread, _⟩ :=
    back wordPointers x [] names ⟨⟨[], []⟩, none⟩ ⟨[]⟩ initFilenames ⟨rfl, by simp⟩ (by simp) rfl
      (by decide) (by decide) wellFormed (by decide)
  obtain ⟨rfl, rfl⟩ : ([] : List Byte) = listfile ∧ nameLines (slots names 0) = namefile :=
    Prod.mk.inj (Except.ok.inj hwrite)
  have noNodes : ∀ n ∈ ([] : List Node), Sized n.toEntry := by simp
  have full :=
    readList_spec wordPointers ⟨⟨[], []⟩, none⟩ ⟨[]⟩ initFilenames noNodes wellFormed (by decide)
  rw [if_neg (by decide), ← nameLines_slots names 0] at full
  rw [List.flatMap_nil, hread] at full
  cases full

end Results

end IndexFiles
