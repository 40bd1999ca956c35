import CSC209.LinkedChain
import Mathlib.Data.Finset.Card

/-!
# A memory of nodes

Addresses are handed out in order and are never used again: a new node lives
at the number of nodes made before it. A freed node keeps its address and
loses its contents. Reading through the null pointer, and reading, updating or
freeing an address without a node, are faults, and so is writing past the end
of what a node points to. The loops that follow links have a fuel argument, and
running out of it is a fault too; on a chain the number of nodes made so far is
always enough.
-/

namespace NodeMemory

open LinkedChain

variable {Node : Type}

abbrev Addr := Nat

abbrev Pointer := Option Addr

inductive Fault where
  | nullPointer
  | deadPointer
  | outOfFuel
  | overrun
  deriving DecidableEq, Repr

/-- The cell of a node is empty once the node has been freed. -/
structure Memory (Node : Type) where
  cells : List (Option Node)
  deriving DecidableEq, Repr

namespace Memory

variable {m m' : Memory Node} {a b : Addr} {n : Node}

def size (m : Memory Node) : Nat := m.cells.length

def get (m : Memory Node) (a : Addr) : Option Node := m.cells[a]?.join

/-- The new node lives at `m.size`. -/
def alloc (m : Memory Node) (n : Node) : Memory Node := ⟨m.cells ++ [some n]⟩

def store (m : Memory Node) (a : Addr) (c : Option Node) : Memory Node := ⟨m.cells.set a c⟩

def read (m : Memory Node) : Pointer → Except Fault Node
  | none => .error .nullPointer
  | some a =>
    match m.get a with
    | none => .error .deadPointer
    | some n => .ok n

def update (m : Memory Node) (p : Pointer) (f : Node → Node) : Except Fault (Memory Node) :=
  match p with
  | none => .error .nullPointer
  | some a =>
    match m.get a with
    | none => .error .deadPointer
    | some n => .ok (m.store a (some (f n)))

def free (m : Memory Node) (p : Pointer) : Except Fault (Memory Node) :=
  match p with
  | none => .error .nullPointer
  | some a =>
    match m.get a with
    | none => .error .deadPointer
    | some _ => .ok (m.store a none)

/-- The address was handed out and its node is gone. -/
def Freed (m : Memory Node) (a : Addr) : Prop := a < m.size ∧ m.get a = none

/-- One link of every node, as chains need it. -/
def link (m : Memory Node) (next : Node → Pointer) (a : Addr) : Option Pointer :=
  (m.get a).map next

@[simp] theorem size_alloc : (m.alloc n).size = m.size + 1 := by simp [alloc, size]

@[simp] theorem size_store (c : Option Node) : (m.store a c).size = m.size := by
  simp [store, size]

theorem lt_size_of_get (h : m.get a = some n) : a < m.size := by
  by_contra hlt
  simp [get, List.getElem?_eq_none (Nat.le_of_not_lt hlt)] at h

@[simp] theorem get_size : m.get m.size = none := by simp [get, size]

@[simp] theorem get_alloc_new : (m.alloc n).get m.size = some n := by simp [get, alloc, size]

theorem get_alloc_of_ne (h : a ≠ m.size) : (m.alloc n).get a = m.get a := by
  rcases Nat.lt_or_gt_of_ne h with hlt | hgt
  · simp [get, alloc, List.getElem?_append_left hlt]
  · have past : m.cells.length + 1 ≤ a := hgt
    simp only [get, alloc]
    rw [List.getElem?_eq_none (by simpa using past), List.getElem?_eq_none (by omega)]

theorem get_alloc_of_some (h : m.get a = some n) (n' : Node) : (m.alloc n').get a = some n :=
  (get_alloc_of_ne (Nat.ne_of_lt (lt_size_of_get h))).trans h

theorem get_store_same (h : m.get a = some n) (c : Option Node) : (m.store a c).get a = c := by
  have hlt : a < m.cells.length := lt_size_of_get h
  simp [get, store, hlt]

theorem get_store_of_ne (h : b ≠ a) (c : Option Node) : (m.store a c).get b = m.get b := by
  simp [get, store, List.getElem?_set_ne (Ne.symm h)]

theorem Freed.alloc (h : m.Freed a) (n : Node) : (m.alloc n).Freed a :=
  ⟨size_alloc.symm ▸ Nat.lt_succ_of_lt h.1, (get_alloc_of_ne (Nat.ne_of_lt h.1)).trans h.2⟩

/-- Storing what is there changes nothing. -/
theorem store_get (h : m.get a = some n) : m.store a (some n) = m := by
  have lt : a < m.cells.length := lt_size_of_get h
  have cell : m.cells[a] = some n := by simpa [get, lt] using h
  rw [store, ← cell, List.set_getElem_self]

@[simp] theorem read_some_of_get (h : m.get a = some n) : m.read (some a) = .ok n := by
  simp [read, h]

theorem update_of_get (h : m.get a = some n) (f : Node → Node) :
    m.update (some a) f = .ok (m.store a (some (f n))) := by
  simp [update, h]

theorem free_of_get (h : m.get a = some n) : m.free (some a) = .ok (m.store a none) := by
  simp [free, h]

theorem link_congr {next : Node → Pointer} (h : m'.get a = m.get a) :
    m'.link next a = m.link next a := by
  simp [link, h]

theorem link_of_get {next : Node → Pointer} (h : m.get a = some n) :
    m.link next a = some (next n) := by
  simp [link, h]

/-- Replacing a node by one with the same link keeps every link. -/
theorem link_store_same {next : Node → Pointer} {n' : Node} (h : m.get a = some n)
    (same : next n' = next n) : (m.store a (some n')).link next = m.link next := by
  funext b
  by_cases hb : b = a
  · subst hb
    simp [link, get_store_same h, h, same]
  · exact link_congr (get_store_of_ne hb _)

theorem link_store {next : Node → Pointer} {n' : Node} (h : m.get a = some n) :
    (m.store a (some n')).link next = Function.update (m.link next) a (some (next n')) := by
  funext b
  by_cases hb : b = a
  · subst hb
    simp [link, get_store_same h]
  · rw [Function.update_of_ne hb]
    exact link_congr (get_store_of_ne hb _)

/-- A chain has at most as many nodes as were ever made. -/
theorem chain_length_le {next : Node → Pointer} {p : Pointer} {l : List Addr}
    (chain : Chain (m.link next) p l) : l.length ≤ m.size := by
  have inside : l ⊆ List.range m.size := by
    intro b hb
    obtain ⟨q, hq⟩ := chain.readable hb
    obtain ⟨k, hk, _⟩ := Option.map_eq_some_iff.mp hq
    exact List.mem_range.mpr (lt_size_of_get hk)
  simpa using (List.subperm_of_subset chain.nodup inside).length_le

section Walks

variable (m) (next : Node → Pointer)

/-- `while (p != NULL && !stop(p)) p = p->next;` -/
def seek (stop : Addr → Node → Bool) : Nat → Pointer → Except Fault Pointer
  | _, none => .ok none
  | 0, some _ => .error .outOfFuel
  | fuel + 1, some a => do
    let n ← m.read (some a)
    if stop a n then .ok (some a) else seek stop fuel (next n)

/-- `while (p->next != NULL && !stop(p->next)) p = p->next;` -/
def seekBefore (stop : Addr → Except Fault Bool) : Nat → Pointer → Except Fault Pointer
  | 0, _ => .error .outOfFuel
  | fuel + 1, p => do
    let n ← m.read p
    match next n with
    | none => .ok p
    | some b => do
      if ← stop b then .ok p else seekBefore stop fuel (some b)

/-- The nodes that `while (p != NULL) p = p->next;` visits. -/
def visit : Nat → Pointer → Except Fault (List Addr)
  | _, none => .ok []
  | 0, some _ => .error .outOfFuel
  | fuel + 1, some a => do
    let n ← m.read (some a)
    let rest ← visit fuel (next n)
    .ok (a :: rest)

variable {m next} {p : Pointer} {l r : List Addr} {fuel : Nat}

theorem get_of_link {q : Pointer} (h : m.link next a = some q) :
    ∃ n, m.get a = some n ∧ next n = q := by
  simpa [link] using h

theorem seek_chain (stop : Addr → Node → Bool) (chain : Chain (m.link next) p l)
    (enough : l.length ≤ fuel) :
    m.seek next stop fuel p = .ok (l.find? fun a => (m.get a).any (stop a)) := by
  induction l generalizing p fuel with
  | nil =>
    obtain rfl : p = none := chain
    cases fuel <;> simp [seek]
  | cons a rest ih =>
    obtain ⟨rfl, q, hq, hrest⟩ := chain
    obtain ⟨n, hn, rfl⟩ := get_of_link hq
    obtain ⟨fuel, rfl⟩ := exists_fuel enough
    simp only [seek, read_some_of_get hn, bind, Except.bind, List.find?_cons, hn, Option.any_some]
    cases stop a n with
    | true => rfl
    | false => exact ih hrest (by simpa using enough)

theorem visit_chain (chain : Chain (m.link next) p l) (enough : l.length ≤ fuel) :
    m.visit next fuel p = .ok l := by
  induction l generalizing p fuel with
  | nil =>
    obtain rfl : p = none := chain
    cases fuel <;> simp [visit]
  | cons a rest ih =>
    obtain ⟨rfl, q, hq, hrest⟩ := chain
    obtain ⟨n, hn, rfl⟩ := get_of_link hq
    obtain ⟨fuel, rfl⟩ := exists_fuel enough
    simp [visit, read_some_of_get hn, bind, Except.bind, ih hrest (by simpa using enough)]

/-- The walk ends at the first node that is last or stands before a node that stops it. -/
theorem seekBefore_chain {stop : Addr → Except Fault Bool}
    (chain : Chain (m.link next) p (l ++ a :: r)) (enough : l.length < fuel)
    (passes : ∀ b ∈ (l ++ [a]).tail, stop b = .ok false)
    (stops : ∀ b ∈ r.head?, stop b = .ok true) :
    m.seekBefore next stop fuel p = .ok (some a) := by
  induction l generalizing p fuel with
  | nil =>
    obtain ⟨fuel, rfl⟩ := exists_fuel enough
    obtain ⟨rfl, q, hq, hrest⟩ := chain
    obtain ⟨n, hn, rfl⟩ := get_of_link hq
    have first : next n = r.head? := Chain.pointer_eq hrest
    simp only [seekBefore, read_some_of_get hn, bind, Except.bind, first]
    cases r with
    | nil => rfl
    | cons b rest => simp [stops b (by simp)]
  | cons c rest ih =>
    obtain ⟨fuel, rfl⟩ := exists_fuel enough
    obtain ⟨rfl, q, hq, hrest⟩ := chain
    obtain ⟨n, hn, rfl⟩ := get_of_link hq
    have first : next n = (rest ++ a :: r).head? := Chain.pointer_eq hrest
    obtain ⟨d, hd, passed⟩ : ∃ d, next n = some d ∧ stop d = .ok false := by
      rw [first]
      cases rest with
      | nil => exact ⟨a, rfl, passes a (by simp)⟩
      | cons d later => exact ⟨d, rfl, passes d (by simp)⟩
    simp only [seekBefore, read_some_of_get hn, bind, Except.bind, hd, passed, Bool.false_eq_true,
      if_false]
    rw [← hd]
    apply ih hrest (by simpa using enough)
    intro b hb
    exact passes b (List.mem_of_mem_tail (by simpa using hb))

end Walks

end Memory

end NodeMemory
