import CSC209.A3.FreqList

/-!
# The linked list refines a list of entries

On the list, `add_word` is one recursion: it raises the frequency of the first
entry that equals the word, or puts a new entry before the first one that is
greater. The source does this with a test of the head, a loop with two
pointers and five exits; each exit is one edit of the chain.
-/

namespace WordList

open CStrings NodeMemory LinkedChain FreqList

def add (word : CString) (filenum : Nat) : List Entry → List Entry
  | [] => [createEntry word 1 filenum]
  | e :: rest =>
    match strcmp e.str word with
    | .eq => e.bump filenum :: rest
    | .gt => createEntry word 1 filenum :: e :: rest
    | .lt => e :: add word filenum rest

/-- The list and the names of the files in the order of their first use. -/
structure Store where
  entries : List Entry
  names : List CString
  deriving DecidableEq, Repr

def Store.addWord (s : Store) (c : Call) : Store :=
  ⟨add c.word (s.names.idxOf c.fname) s.entries, noteName s.names c.fname⟩

/-- What a sequence of calls leaves in an index that was empty. -/
def stored (calls : List Call) : Store := calls.foldl Store.addWord ⟨[], []⟩

abbrev Cell := Addr × Entry

/-- The chain from a pointer visits these addresses, and finds these entries there. -/
structure Holds (m : Memory Node) (p : Pointer) (cells : List Cell) : Prop where
  chain : Chain (m.link Node.next) p (cells.map Prod.fst)
  stored : ∀ c ∈ cells, (m.get c.1).map Node.toEntry = some c.2

structure Layout (x : Index) (cells : List Cell) : Prop extends Holds x.nodes x.head cells where
  counted : x.numWords = cells.length

/-- The index holds the entries and knows the files of a store. -/
structure Represents (x : Index) (s : Store) : Prop where
  listed : ∃ cells, Layout x cells ∧ cells.map Prod.snd = s.entries
  named : x.filenames = slots s.names (MAXFILES - s.names.length)
  room : s.names.length ≤ MAXFILES
  distinct : s.names.Nodup

variable {x : Index} {s : Store} {cells before rest : List Cell} {c : Cell} {word fname : CString}
  {filenum : Nat}

theorem represents_opened : Represents opened (stored []) :=
  ⟨⟨[], ⟨⟨rfl, by simp⟩, rfl⟩, rfl⟩, rfl, by decide, List.nodup_nil⟩

@[simp] theorem stored_snoc (calls : List Call) (c : Call) :
    stored (calls ++ [c]) = (stored calls).addWord c := by
  simp [stored]

section Edits

variable {m : Memory Node} {p : Pointer}

theorem mem_middle {d : Cell} : d ∈ before ++ c :: rest ↔ d = c ∨ d ∈ before ++ rest := by
  rw [List.perm_middle.mem_iff, List.mem_cons]

/-- The node of a cell, with the address that it points to. -/
theorem Holds.node (holds : Holds m p (before ++ c :: rest)) :
    m.get c.1 = some { c.2 with next := (rest.map Prod.fst).head? } := by
  have chain := holds.chain
  rw [List.map_append, List.map_cons] at chain
  obtain ⟨q, _, _, next, hlink, hrest⟩ := segment_append.mp chain
  obtain ⟨n, hn, rfl⟩ := Memory.get_of_link hlink
  have entry := holds.stored c (by simp)
  rw [hn] at entry
  have first : n.next = (rest.map Prod.fst).head? := Chain.pointer_eq hrest
  have same : n.toEntry = c.2 := by simpa using entry
  rw [hn, ← first, ← same]

theorem Holds.lt_size (holds : Holds m p cells) (hc : c ∈ cells) : c.1 < m.size := by
  obtain ⟨n, hn, _⟩ := Option.map_eq_some_iff.mp (holds.stored c hc)
  exact Memory.lt_size_of_get hn

theorem Holds.fresh (holds : Holds m p cells) : m.size ∉ cells.map Prod.fst := by
  intro met
  obtain ⟨c, hc, same⟩ := List.mem_map.mp met
  exact absurd same (Nat.ne_of_lt (holds.lt_size hc))

/-- Two cells of one list have different addresses. -/
theorem Holds.apart (holds : Holds m p (before ++ c :: rest)) {d : Cell}
    (hd : d ∈ before ++ rest) : d.1 ≠ c.1 := by
  have nodup : ((c :: (before ++ rest)).map Prod.fst).Nodup :=
    (List.perm_middle.map Prod.fst).nodup_iff.mp holds.chain.nodup
  intro same
  exact (List.nodup_cons.mp nodup).1 (same ▸ List.mem_map_of_mem hd)

/-- A walk over the list reads its entries. -/
theorem Holds.listFrom (holds : Holds m p cells) : listFrom m p = .ok (cells.map Prod.snd) := by
  have enough : (cells.map Prod.fst).length ≤ m.size := Memory.chain_length_le holds.chain
  have walked := Memory.visit_chain holds.chain enough
  simp only [FreqList.listFrom, walked, bind, Except.bind, List.filterMap_map]
  congr 1
  exact (List.filterMap_congr holds.stored).trans (congrFun List.filterMap_eq_map' cells)

/-- `cur->freq[filenum] += 1`. -/
theorem Layout.bump (lay : Layout x (before ++ c :: rest)) (filenum : Nat) :
    ∃ nodes, x.nodes.update (some c.1) (fun n => { n with toEntry := n.bump filenum }) = .ok nodes ∧
      Layout { x with nodes } (before ++ (c.1, c.2.bump filenum) :: rest) := by
  have hn := lay.node
  refine ⟨_, Memory.update_of_get hn _, ⟨?_, ?_⟩, ?_⟩
  · simpa [Memory.link_store_same hn] using lay.chain
  · intro d hd
    rcases mem_middle.mp hd with rfl | elsewhere
    · simp [Memory.get_store_same hn]
    · rw [Memory.get_store_of_ne (lay.apart elsewhere)]
      exact lay.stored d (mem_middle.mpr (.inr elsewhere))
  · simpa using lay.counted

/-- A new node in front of the list. -/
theorem Layout.createHead (lay : Layout x cells) (word : CString) (filenum : Nat) :
    Layout (x.createHead word filenum) ((x.nodes.size, createEntry word 1 filenum) :: cells) := by
  have kept : ∀ c ∈ cells, ∀ n, (x.nodes.alloc n).get c.1 = x.nodes.get c.1 :=
    fun c hc n => Memory.get_alloc_of_ne (Nat.ne_of_lt (lay.lt_size hc))
  refine ⟨⟨?_, ?_⟩, ?_⟩
  · refine lay.chain.push x.nodes.size (Memory.link_of_get Memory.get_alloc_new) ?_
    intro a ha
    obtain ⟨c, hc, rfl⟩ := List.mem_map.mp ha
    exact Memory.link_congr (kept c hc _)
  · intro d hd
    rcases List.mem_cons.mp hd with rfl | hd
    · simp [Index.createHead, Index.create, createNode]
    · have same := kept d hd { createNode word 1 filenum with next := x.head }
      simp only [Index.createHead, Index.create, same]
      exact lay.stored d hd
  · simp [Index.createHead, Index.create, lay.counted]

/-- A new node after the one that `prev` points to. -/
theorem Layout.createAfter (lay : Layout x (before ++ c :: rest)) (word : CString) (filenum : Nat) :
    ∃ y, x.createAfter word filenum (some c.1) (rest.map Prod.fst).head? = .ok y ∧
      Layout y (before ++ c :: (x.nodes.size, createEntry word 1 filenum) :: rest) ∧
      y.filenames = x.filenames := by
  let new : Node := { createNode word 1 filenum with next := (rest.map Prod.fst).head? }
  have hn := Memory.get_alloc_of_some lay.node new
  have old : ∀ d ∈ before ++ rest, d ∈ before ++ c :: rest := fun d hd => mem_middle.mpr (.inr hd)
  have made : (x.nodes.alloc new).get x.nodes.size = some new := Memory.get_alloc_new
  have below : c.1 < x.nodes.size := lay.lt_size (by simp)
  have written : x.createAfter word filenum (some c.1) new.next =
      .ok { x with
        nodes := (x.nodes.alloc new).store c.1 (some { c.2 with next := some x.nodes.size })
        numWords := x.numWords + 1 } := by
    change ((x.nodes.alloc new).update (some c.1) _ >>= _) = _
    rw [Memory.update_of_get hn]
    rfl
  refine ⟨_, written, ⟨⟨?_, ?_⟩, ?_⟩, rfl⟩
  · have chain := lay.chain
    rw [List.map_append, List.map_cons] at chain
    rw [List.map_append, List.map_cons, List.map_cons]
    apply chain.insertAfter
    · simpa using lay.fresh
    · exact Memory.link_of_get (Memory.get_store_same hn _)
    · rw [Memory.link_congr (Memory.get_store_of_ne (Nat.ne_of_gt below) _)]
      exact Memory.link_of_get made
    · intro a ha hnew
      rw [Memory.link_congr (Memory.get_store_of_ne ha _)]
      exact Memory.link_congr (Memory.get_alloc_of_ne hnew)
  · intro d hd
    have apart : d = c ∨ d = (x.nodes.size, createEntry word 1 filenum) ∨ d ∈ before ++ rest := by
      rcases mem_middle.mp hd with same | hd
      · exact .inl same
      · exact .inr (mem_middle.mp hd)
    rcases apart with rfl | rfl | elsewhere
    · simp [Memory.get_store_same hn]
    · simp [Memory.get_store_of_ne (Nat.ne_of_gt below), new, createNode]
    · rw [Memory.get_store_of_ne (lay.apart elsewhere),
        Memory.get_alloc_of_ne (Nat.ne_of_lt (lay.lt_size (old d elsewhere)))]
      exact lay.stored d (old d elsewhere)
  · simp [lay.counted, Nat.add_assoc]

end Edits

section Search

variable {p : Cell} {fuel : Nat}

/-- The loop after the first node, where `prev` is the node before `cur`. -/
theorem Layout.look (lay : Layout x (before ++ p :: rest)) (word : CString) (filenum : Nat)
    (enough : rest.length ≤ fuel) :
    ∃ y after, x.look word filenum fuel (rest.map Prod.fst).head? (some p.1) = .ok y ∧
      Layout y (before ++ p :: after) ∧ after.map Prod.snd = add word filenum (rest.map Prod.snd) ∧
      y.filenames = x.filenames := by
  induction rest generalizing before p fuel with
  | nil =>
    obtain ⟨y, hy, made, names⟩ := lay.createAfter word filenum
    refine ⟨y, _, ?_, made, rfl, names⟩
    cases fuel <;> exact hy
  | cons c rest ih =>
    obtain ⟨fuel, rfl⟩ := exists_fuel enough
    have lay' : Layout x ((before ++ [p]) ++ c :: rest) := by simpa using lay
    have hc := lay'.node
    simp only [List.map_cons, List.head?_cons, Index.look, Memory.read_some_of_get hc, bind,
      Except.bind, add]
    cases order : strcmp c.2.str word with
    | lt =>
      obtain ⟨y, after, hy, made, same, names⟩ := ih lay' (by simpa using enough)
      exact ⟨y, c :: after, hy, by simpa using made, by simp [same], names⟩
    | eq =>
      obtain ⟨nodes, hnodes, raised⟩ := lay'.bump filenum
      exact ⟨{ x with nodes }, (c.1, c.2.bump filenum) :: rest, by simp only [hnodes],
        by simpa using raised, rfl, rfl⟩
    | gt =>
      obtain ⟨y, hy, made, names⟩ := lay.createAfter word filenum
      have differ : ¬ some c.1 = some p.1 := by
        simpa using Ne.symm (lay'.apart (d := p) (by simp))
      exact ⟨y, _ :: c :: rest, (if_neg differ).trans hy, made, rfl, names⟩

/-- The head test, the loop and the two ways of leaving it are one insertion. -/
theorem Layout.insertWord (lay : Layout x cells) (word : CString) (filenum : Nat) :
    ∃ y after, x.insertWord word filenum = .ok y ∧ Layout y after ∧
      after.map Prod.snd = add word filenum (cells.map Prod.snd) ∧ y.filenames = x.filenames := by
  have enough : cells.length ≤ x.nodes.size := by
    simpa using Memory.chain_length_le lay.chain
  have start : x.head = (cells.map Prod.fst).head? := Chain.pointer_eq lay.chain
  have created := lay.createHead word filenum
  cases cells with
  | nil =>
    refine ⟨_, _, ?_, created, rfl, rfl⟩
    have empty : x.head = none := start
    simp only [Index.insertWord, Index.headFollows, empty, bind, Except.bind]
    cases x.nodes.size <;> rfl
  | cons c rest =>
    obtain ⟨fuel, hfuel⟩ := exists_fuel enough
    have first : x.head = some c.1 := start
    have lay' : Layout x ([] ++ c :: rest) := lay
    have hc := lay'.node
    simp only [Index.insertWord, Index.headFollows, first, Memory.read_some_of_get hc, bind,
      Except.bind]
    cases order : strcmp c.2.str word with
    | lt =>
      rw [hfuel] at enough ⊢
      have later : rest.length ≤ fuel := by simpa using enough
      obtain ⟨y, after, hy, made, same, names⟩ := lay'.look word filenum later
      refine ⟨y, c :: after, ?_, made, by simp [add, order, same], names⟩
      simpa [Index.look, Memory.read_some_of_get hc, bind, Except.bind, order] using hy
    | eq =>
      obtain ⟨nodes, hnodes, raised⟩ := lay'.bump filenum
      refine ⟨_, (c.1, c.2.bump filenum) :: rest, ?_, raised, by simp [add, order], rfl⟩
      rw [hfuel]
      simp [Index.look, Memory.read_some_of_get hc, bind, Except.bind, order, hnodes]
    | gt => exact ⟨_, _, by simp, created, by simp [add, order], rfl⟩

end Search

section Calls

/-- A call with a known file, or with a free slot, adds the word to the list; a call with a new
file and no slot exits. -/
theorem addWord_refines (rep : Represents x s) (c : Call) :
    if c.fname ∈ s.names ∨ s.names.length < MAXFILES then
      ∃ y, addWord x c = .ok y ∧ Represents y (s.addWord c)
    else addWord x c = .error .tooManyFiles := by
  obtain ⟨⟨cells, lay, listed⟩, named, room, distinct⟩ := rep
  by_cases known : c.fname ∈ s.names
  · obtain ⟨y, after, hy, made, same, kept⟩ := lay.insertWord c.word (s.names.idxOf c.fname)
    have found := getFilenum_mem known (MAXFILES - s.names.length)
    have unchanged : (s.addWord c).names = s.names := if_pos known
    rw [if_pos (.inl known)]
    refine ⟨y, ?_, ⟨after, made, same.trans (by rw [listed]; rfl)⟩, ?_, ?_, ?_⟩
    · rw [addWord, named, found]
      simp only [← named, hy, Except.mapError]
    · rw [unchanged, kept, named]
    · exact unchanged ▸ room
    · exact unchanged ▸ distinct
  · by_cases free : s.names.length < MAXFILES
    · have slot : MAXFILES - s.names.length = (MAXFILES - (s.names.length + 1)) + 1 := by omega
      have found := getFilenum_new known (MAXFILES - (s.names.length + 1))
      rw [← slot, ← named] at found
      have longer : (s.addWord c).names = s.names ++ [c.fname] := if_neg known
      have lay' : Layout
          { x with filenames := slots (s.names ++ [c.fname]) (MAXFILES - (s.names.length + 1)) }
            cells :=
        ⟨lay.toHolds, lay.counted⟩
      obtain ⟨y, after, hy, made, same, kept⟩ := lay'.insertWord c.word s.names.length
      rw [if_pos (.inr free)]
      refine ⟨y, ?_, ⟨after, made, ?_⟩, ?_, ?_, ?_⟩
      · rw [addWord, found]
        simp only [hy, Except.mapError]
      · rw [same, listed, Store.addWord, List.idxOf_eq_length known]
      · rw [longer, kept, List.length_append, List.length_singleton]
      · rw [longer, List.length_append, List.length_singleton]
        exact free
      · rw [longer]
        refine List.nodup_append.mpr ⟨distinct, by simp, fun a ha b hb same => known ?_⟩
        rwa [← List.mem_singleton.mp hb, ← same]
    · have full : MAXFILES - s.names.length = 0 := by omega
      rw [if_neg (by simp [known, free]), addWord, named, full, getFilenum_full known]

theorem contents_eq (rep : Represents x s) : x.contents = .ok s.entries := by
  obtain ⟨⟨cells, lay, listed⟩, -⟩ := rep
  rw [← listed]
  exact lay.listFrom

theorem fileAt_eq (rep : Represents x s) (i : Nat) : x.fileAt i = s.names[i]? := by
  rw [Index.fileAt, rep.named, slot_of_slots]

theorem numWords_eq (rep : Represents x s) : x.numWords = s.entries.length := by
  obtain ⟨⟨cells, lay, listed⟩, -⟩ := rep
  simp [lay.counted, ← listed]

end Calls

end WordList
