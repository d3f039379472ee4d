import Mathlib.Data.List.Nodup
import Mathlib.Logic.Function.Basic

/-!
# Linked lists in a store

Nodes hold their links in a store, so a list is a pointer to its first node together with the maps
`next` and `prev` from nodes to pointers, where a null pointer is `none`. `Chain next p l` says
that the walk from `p` through `next` visits the nodes of `l` and ends. `Back prev p l` says that
each node of `l` points back to the one before it, and the first to `p`.

A walk determines the nodes that it visits (`Chain.unique`), and visits none twice (`Chain.nodup`).
A write to a node outside a list leaves the list as it is (`Chain.congr`, `Back.congr`). In a list
that is linked both ways, a node links to the next one exactly where that one links back
(`Chain.next_eq_iff`). The other lemmas follow the two list operations: pushing a node in front and
unlinking a node from any place.
-/

namespace Linked

variable {ν : Type*}

/-- The walk from `p` through `next` visits the nodes of `l` and ends. -/
def Chain (next : ν → Option ν) : Option ν → List ν → Prop
  | p, [] => p = none
  | p, n :: l => p = some n ∧ Chain next (next n) l

/-- Each node of `l` points back to the one before it, and the first to `p`. -/
def Back (prev : ν → Option ν) : Option ν → List ν → Prop
  | _, [] => True
  | p, n :: l => prev n = p ∧ Back prev (some n) l

variable {next next' prev prev' : ν → Option ν} {p q : Option ν} {l m : List ν} {n : ν}

/-- The chain of no nodes starts nowhere. -/
@[simp]
theorem chain_nil : Chain next p [] ↔ p = none := Iff.rfl

/-- A chain starts at its first node, and goes on from the successor of it. -/
@[simp]
theorem chain_cons : Chain next p (n :: l) ↔ p = some n ∧ Chain next (next n) l := Iff.rfl

/-- A walk from the null pointer visits nothing. -/
@[simp]
theorem chain_none : Chain next none l ↔ l = [] := by
  cases l <;> simp

/-- A walk determines the nodes that it visits. -/
theorem Chain.unique (hl : Chain next p l) (hm : Chain next p m) : l = m := by
  induction l generalizing p m with
  | nil =>
    rw [chain_nil.mp hl, chain_none] at hm
    exact hm.symm
  | cons n l ih =>
    obtain ⟨rfl, hl⟩ := hl
    cases m with
    | nil => simp at hm
    | cons n' m =>
      obtain ⟨hn, hm⟩ := hm
      obtain rfl := Option.some.inj hn
      rw [ih hl hm]

/-- A walk starts at the first node that it visits. -/
theorem Chain.head (h : Chain next p l) : p = l.head? := by
  cases l with
  | nil => exact h
  | cons n l => exact h.1

/-- The walk goes on from every node that it visits. -/
theorem Chain.suffix (h : Chain next p (l ++ n :: m)) : Chain next (some n) (n :: m) := by
  induction l generalizing p with
  | nil =>
    obtain ⟨rfl, h⟩ := h
    exact ⟨rfl, h⟩
  | cons x l ih => exact ih h.2

/-- A walk that ends visits no node twice. -/
theorem Chain.nodup (h : Chain next p l) : l.Nodup := by
  induction l generalizing p with
  | nil => exact List.nodup_nil
  | cons n l ih =>
    refine List.nodup_cons.mpr ⟨?_, ih h.2⟩
    intro hn
    obtain ⟨a, b, rfl⟩ := List.append_of_mem hn
    -- The walk from `n` would visit both what follows its first and its second place.
    have h1 : Chain next (some n) (n :: (a ++ n :: b)) := ⟨rfl, h.2⟩
    have h2 : Chain next (some n) (n :: b) := h.2.suffix
    have hlen := congrArg List.length (h1.unique h2)
    simp only [List.length_cons, List.length_append] at hlen
    omega

/-- A walk depends on the links of the nodes that it visits only. -/
theorem Chain.congr (hn : ∀ x ∈ l, next x = next' x) (h : Chain next p l) : Chain next' p l := by
  induction l generalizing p with
  | nil => exact h
  | cons x l ih =>
    obtain ⟨rfl, h⟩ := h
    obtain ⟨hx, hl⟩ := List.forall_mem_cons.mp hn
    exact ⟨rfl, hx ▸ ih hl h⟩

/-- A walk over the places of some objects depends on these places and their links only. -/
theorem Chain.map_congr {κ : Type*} {place place' : κ → ν} {l : List κ}
    (h : Chain next p (l.map place))
    (hn : ∀ k ∈ l, place' k = place k ∧ next' (place k) = next (place k)) :
    Chain next' p (l.map place') := by
  have hmap : l.map place' = l.map place := List.map_congr_left fun k hk => (hn k hk).1
  rw [hmap]
  apply h.congr
  intro a ha
  obtain ⟨k, hk, rfl⟩ := List.mem_map.mp ha
  exact (hn k hk).2.symm

/-- Back links are those of the list's nodes only. -/
theorem Back.congr (hp : ∀ x ∈ l, prev x = prev' x) (h : Back prev p l) : Back prev' p l := by
  induction l generalizing p with
  | nil => exact h
  | cons x l ih =>
    obtain ⟨hx, hl⟩ := List.forall_mem_cons.mp hp
    exact ⟨hx ▸ h.1, ih hl h.2⟩

/-- The back link of a node is to the one before it. -/
theorem Back.prev_eq (h : Back prev p (l ++ n :: m)) : prev n = l.getLast?.or p := by
  induction l generalizing p with
  | nil => exact h.1
  | cons x l ih =>
    rw [ih h.2]
    cases l with
    | nil => rfl
    | cons y l => simp [List.getLast?_cons]

/-! ## Neighbours -/

/-- The link of a node is to the one after it. -/
theorem Chain.next_eq (h : Chain next p (l ++ n :: m)) : next n = m.head? := h.suffix.2.head

/-- What a node of a walk links to is visited by the walk. -/
theorem Chain.mem_of_next {a b : ν} (h : Chain next p l) (ha : a ∈ l) (hb : next a = some b) :
    b ∈ l := by
  obtain ⟨x, y, rfl⟩ := List.append_of_mem ha
  rw [h.next_eq] at hb
  exact List.mem_append_right x (List.mem_cons_of_mem a (List.mem_of_mem_head? hb))

/-- A node of a walk is its first one or has one that links to it. -/
theorem Chain.exists_prev {b : ν} (h : Chain next p l) (hb : b ∈ l) :
    p = some b ∨ ∃ a ∈ l, next a = some b := by
  induction l generalizing p with
  | nil => exact (List.not_mem_nil hb).elim
  | cons x l ih =>
    obtain ⟨rfl, h⟩ := h
    rcases List.mem_cons.mp hb with rfl | hb
    · exact .inl rfl
    · right
      rcases ih h hb with hx | ⟨a, ha, hab⟩
      · exact ⟨x, List.mem_cons_self, hx⟩
      · exact ⟨a, List.mem_cons_of_mem x ha, hab⟩

/-- The first node of a list links back to nothing. -/
theorem Back.prev_head (hb : Back prev none l) (hn : l.head? = some n) : prev n = none := by
  cases l with
  | nil => simp at hn
  | cons x l =>
    obtain rfl := Option.some.inj hn
    exact hb.1

/-- In a list that is linked both ways, a node links to another one exactly where that one links
back to it. -/
theorem Chain.next_eq_iff {a b : ν} (h : Chain next p l) (hb : Back prev none l) (ha : a ∈ l)
    (hbl : b ∈ l) : next a = some b ↔ prev b = some a := by
  have hforth : ∀ a ∈ l, ∀ b, next a = some b → prev b = some a := by
    intro a ha b hab
    obtain ⟨x, y, rfl⟩ := List.append_of_mem ha
    rw [h.next_eq] at hab
    cases y with
    | nil => simp at hab
    | cons z y =>
      obtain rfl := Option.some.inj hab
      rw [← List.singleton_append, ← List.append_assoc] at hb
      rw [hb.prev_eq, List.getLast?_concat, Option.some_or]
  refine ⟨hforth a ha b, fun hba => ?_⟩
  rcases h.exists_prev hbl with hhead | ⟨c, hc, hcb⟩
  · -- The first node links back to nothing.
    rw [hb.prev_head (h.head.symm.trans hhead)] at hba
    simp at hba
  · rw [hforth c hc b hcb] at hba
    rwa [Option.some.inj hba] at hcb

/-- The places of a list determine its back links. -/
theorem Back.prev_unique (h : Back prev p l) (h' : Back prev' p l) (hn : n ∈ l) :
    prev n = prev' n := by
  obtain ⟨x, y, rfl⟩ := List.append_of_mem hn
  rw [h.prev_eq, h'.prev_eq]

variable [DecidableEq ν]

/-- Pushing a node in front: the node links to the old first node. -/
theorem Chain.push (h : Chain next p l) (hn : n ∉ l) :
    Chain (Function.update next n p) (some n) (n :: l) := by
  refine ⟨rfl, ?_⟩
  rw [Function.update_self]
  apply h.congr
  intro x hx
  rw [Function.update_of_ne]
  rintro rfl
  exact hn hx

/-- Pushing a node in front: the old first node links back to it. -/
theorem Back.push (h : Back prev none l) (hd : l.Nodup) (hn : n ∉ l)
    (hprev : ∀ x ∈ l, prev' x = if l.head? = some x then some n else prev x)
    (hself : prev' n = none) : Back prev' none (n :: l) := by
  refine ⟨hself, ?_⟩
  cases l with
  | nil => trivial
  | cons x l =>
    obtain ⟨hx, hl⟩ := List.nodup_cons.mp hd
    refine ⟨by rw [hprev x List.mem_cons_self, List.head?_cons, if_pos rfl], ?_⟩
    apply h.2.congr
    intro y hy
    have hne : (x :: l).head? ≠ some y := by
      rw [List.head?_cons]
      rintro ⟨⟩
      exact hx hy
    rw [hprev y (List.mem_cons_of_mem _ hy), if_neg hne]

/-- Unlinking a node further on: its predecessor links to its successor. -/
theorem Chain.unlink {x : ν} (h : Chain next p (l ++ x :: n :: m)) :
    Chain (Function.update next x (next n)) p (l ++ x :: m) := by
  induction l generalizing p with
  | nil =>
    have hd := h.nodup
    obtain ⟨rfl, -, hm⟩ := h
    obtain ⟨hx, -⟩ := List.nodup_cons.mp hd
    refine ⟨rfl, ?_⟩
    rw [Function.update_self]
    apply hm.congr
    intro y hy
    rw [Function.update_of_ne]
    rintro rfl
    exact hx (List.mem_cons_of_mem _ hy)
  | cons y l ih =>
    have hd := h.nodup
    obtain ⟨rfl, h⟩ := h
    obtain ⟨hy, -⟩ := List.nodup_cons.mp hd
    refine ⟨rfl, ?_⟩
    rw [Function.update_of_ne]
    · exact ih h
    · rintro rfl
      exact hy (by simp)

/-- Unlinking a node: its successor links back to its predecessor. -/
theorem Back.unlink (h : Back prev p (l ++ n :: m)) (hd : (l ++ n :: m).Nodup)
    (hprev : ∀ x ∈ l ++ m, prev' x = if m.head? = some x then prev n else prev x) :
    Back prev' p (l ++ m) := by
  induction l generalizing p with
  | nil =>
    obtain ⟨rfl, h⟩ := h
    cases m with
    | nil => trivial
    | cons y m =>
      refine ⟨by rw [hprev y (by simp), List.head?_cons, if_pos rfl], ?_⟩
      apply h.2.congr
      intro x hx
      have hne : (y :: m).head? ≠ some x := by
        rw [List.head?_cons]
        rintro ⟨⟩
        exact (List.nodup_cons.mp (List.nodup_cons.mp hd).2).1 hx
      rw [hprev x (by simp [hx]), if_neg hne]
  | cons y l ih =>
    obtain ⟨hy, hd'⟩ := List.nodup_cons.mp hd
    have hne : m.head? ≠ some y := by
      intro e
      have := List.mem_of_mem_head? e
      exact hy (by simp [this])
    refine ⟨by rw [hprev y (by simp), if_neg hne]; exact h.1, ?_⟩
    exact ih h.2 hd' fun x hx => hprev x (List.mem_cons_of_mem _ hx)

end Linked
