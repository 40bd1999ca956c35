import Mathlib.Data.List.Nodup
import Mathlib.Logic.Function.Basic

/-!
# Singly linked chains in a memory

`link a` is the pointer stored in the node at address `a`, or `none` when no
readable node is there; a pointer is an optional address. `Segment link p l q`
says that following links from `p` meets exactly the addresses `l` and then
holds the pointer `q`; a chain is a segment that ends in the null pointer.
Any shape of node and any address type can be used.
-/

namespace LinkedChain

universe u
variable {Addr : Type u}

def Segment (link : Addr → Option (Option Addr)) : Option Addr → List Addr → Option Addr → Prop
  | p, [], q => p = q
  | p, a :: rest, q => p = some a ∧ ∃ next, link a = some next ∧ Segment link next rest q

/-- An acyclic chain of readable nodes, terminated by the null pointer. -/
def Chain (link : Addr → Option (Option Addr)) (p : Option Addr) (l : List Addr) : Prop :=
  Segment link p l none

variable {link link' : Addr → Option (Option Addr)} {p q : Option Addr} {a b : Addr}
  {l r : List Addr}

/-- A walk that is not at its end has a turn left. -/
theorem exists_fuel {turns fuel : Nat} (enough : turns < fuel) : ∃ left, fuel = left + 1 :=
  ⟨fuel - 1, by omega⟩

theorem segment_append :
    Segment link p (l ++ r) q ↔ ∃ m, Segment link p l m ∧ Segment link m r q := by
  induction l generalizing p with
  | nil => simp [Segment]
  | cons a rest ih =>
    simp only [List.cons_append, Segment, ih]
    constructor
    · rintro ⟨hp, n, hn, m, h1, h2⟩
      exact ⟨m, ⟨hp, n, hn, h1⟩, h2⟩
    · rintro ⟨m, ⟨hp, n, hn, h1⟩, h2⟩
      exact ⟨hp, n, hn, m, h1, h2⟩

theorem segment_congr (agree : ∀ a ∈ l, link' a = link a) (h : Segment link p l q) :
    Segment link' p l q := by
  induction l generalizing p with
  | nil => exact h
  | cons a rest ih =>
    obtain ⟨hp, n, hn, hrest⟩ := h
    exact ⟨hp, n, (agree a List.mem_cons_self).trans hn,
      ih (fun b hb => agree b (List.mem_cons_of_mem a hb)) hrest⟩

theorem Chain.pointer_eq (h : Chain link p l) : p = l.head? := by
  cases l with
  | nil => exact h
  | cons a rest => exact h.1

/-- A chain is determined by its first pointer. -/
theorem Chain.unique (h : Chain link p l) (h' : Chain link p r) : l = r := by
  induction l generalizing p r with
  | nil =>
    obtain rfl : p = none := h
    cases r with
    | nil => rfl
    | cons b rest => cases h'.1
  | cons a rest ih =>
    obtain ⟨rfl, n, hn, hrest⟩ := h
    cases r with
    | nil => exact absurd h' (Option.some_ne_none a)
    | cons b rest' =>
      obtain ⟨hp', n', hn', hrest'⟩ := h'
      obtain rfl : a = b := Option.some.inj hp'
      obtain rfl : n = n' := Option.some.inj (hn.symm.trans hn')
      rw [ih hrest hrest']

/-- No address occurs twice: the chain would never end. -/
theorem Chain.nodup (h : Chain link p l) : l.Nodup := by
  induction l generalizing p with
  | nil => exact List.nodup_nil
  | cons a rest ih =>
    have whole := h
    obtain ⟨hp, n, hn, hrest⟩ := h
    refine List.nodup_cons.mpr ⟨?_, ih hrest⟩
    intro again
    obtain ⟨s, t, rfl⟩ := List.append_of_mem again
    obtain ⟨m, _, hm⟩ := segment_append.mp hrest
    have same : Chain link p (a :: t) := by
      have hma := hm.1
      rw [Chain, hp, ← hma]
      exact hm
    have hlen := congrArg List.length (Chain.unique whole same)
    simp at hlen
    omega

theorem Chain.readable (h : Chain link p l) (ha : a ∈ l) : ∃ next, link a = some next := by
  induction l generalizing p with
  | nil => cases ha
  | cons b rest ih =>
    obtain ⟨_, n, hn, hrest⟩ := h
    rcases List.mem_cons.mp ha with rfl | ha
    · exact ⟨n, hn⟩
    · exact ih hrest ha

/-- The links inside a chain: the last node before a suffix points at the suffix. -/
theorem Chain.link_of_split (h : Chain link p (l ++ a :: b :: r)) : link a = some (some b) := by
  obtain ⟨m, _, _, n, hn, hb, _⟩ := segment_append.mp h
  rw [hn, hb]

/-- Routing the predecessor around a node removes exactly that node. -/
theorem Chain.unlink [DecidableEq Addr] (h : Chain link p (l ++ a :: b :: r))
    (past : link b = some q) :
    Chain (Function.update link a (some q)) p (l ++ a :: r) := by
  have nodup := h.nodup
  obtain ⟨m, hl, ha, n, hn, hb, n', hn', hr⟩ := segment_append.mp h
  have hq : n' = q := Option.some.inj (hn'.symm.trans past)
  have nd := List.nodup_append.mp nodup
  have tail := List.nodup_cons.mp nd.2.1
  refine segment_append.mpr ⟨m, segment_congr ?_ hl, ha, q, by simp, segment_congr ?_ (hq ▸ hr)⟩
  · intro c hc
    have hne : c ≠ a := nd.2.2 c hc a List.mem_cons_self
    simp [hne]
  · intro c hc
    have hne : c ≠ a := fun h => tail.1 (h ▸ List.mem_cons_of_mem b hc)
    simp [hne]

/-- Routing a node to a fresh one that points at the rest inserts exactly that node. -/
theorem Chain.insertAfter (h : Chain link p (l ++ a :: r)) (new : Addr) (fresh : new ∉ l ++ a :: r)
    (points : link' a = some (some new)) (goes_on : link' new = some r.head?)
    (agree : ∀ c, c ≠ a → c ≠ new → link' c = link c) : Chain link' p (l ++ a :: new :: r) := by
  have nd := List.nodup_append.mp h.nodup
  obtain ⟨m, hl, ha, n, _, hr⟩ := segment_append.mp h
  have first : n = r.head? := Chain.pointer_eq hr
  refine segment_append.mpr ⟨m, segment_congr ?_ hl, ha, some new, points, rfl, r.head?, goes_on,
    first ▸ segment_congr ?_ hr⟩
  · intro c hc
    apply agree c (nd.2.2 c hc a List.mem_cons_self)
    rintro rfl
    exact fresh (List.mem_append_left _ hc)
  · intro c hc
    apply agree c
    · rintro rfl
      exact (List.nodup_cons.mp nd.2.1).1 hc
    · rintro rfl
      exact fresh (List.mem_append_right _ (List.mem_cons_of_mem a hc))

/-- Pointing the last node at a fresh terminated node appends it. -/
theorem Chain.snoc (h : Chain link p (l ++ [a])) (new : Addr) (fresh : new ∉ l ++ [a])
    (ends : link' new = some none) (agree : ∀ c, c ≠ a → c ≠ new → link' c = link c)
    (points : link' a = some (some new)) : Chain link' p (l ++ [a] ++ [new]) := by
  simpa using h.insertAfter new fresh points ends agree

/-- Prepending a fresh node that points at the old chain. -/
theorem Chain.push (h : Chain link p l) (new : Addr) (points : link' new = some p)
    (agree : ∀ c ∈ l, link' c = link c) : Chain link' (some new) (new :: l) :=
  ⟨rfl, p, points, segment_congr agree h⟩

section Entries

variable {β γ : Type u}

/-- The entries of a chain's nodes, where every node has one. -/
def Reads (link : Addr → Option (Option Addr)) (entry : Addr → Option β) (p : Option Addr)
    (l : List β) :
    Prop := ∃ nodes, Chain link p nodes ∧ nodes.map entry = l.map some

theorem reads_map {entry : Addr → Option β} {node : γ → Addr} {f : γ → β} {l : List γ}
    (chain : Chain link p (l.map node)) (entries : ∀ x ∈ l, entry (node x) = some (f x)) :
    Reads link entry p (l.map f) := by
  refine ⟨l.map node, chain, ?_⟩
  rw [List.map_map, List.map_map]
  exact List.map_congr_left entries

end Entries

end LinkedChain
