/-
Rooted trees of mutable nodes, kept in an arena.

A node is a number; its record holds a parent pointer, a dictionary of children and a payload.
The nodes of the tree are those reached from the root through the dictionaries, so a record that
is no longer filed anywhere is simply not in the tree, whatever its own parent pointer says.

Three operations change the links: a node is spliced between a parent and its child, a fresh leaf
is attached, a leaf is detached. For each of them this file says which nodes the tree has
afterwards, that the links stay consistent, and what becomes of the two ways of reading a tree:
what is read along the path from the root to a node, and a total over all nodes.
-/
import Mathlib.Algebra.BigOperators.Group.Finset.Basic
import Mathlib.Tactic.Abel
import LightningH3.Lib.OrderedDict

set_option autoImplicit false

/-- The record of a node: where it hangs, what hangs below it, and its payload. -/
structure Cell (κ δ : Type) where
  parent : Option ℕ
  children : OrderedDict κ ℕ
  data : δ

/-- All node records, the number of the next fresh node, and the root. -/
structure Arena (κ δ : Type) where
  cell : ℕ → Cell κ δ
  counter : ℕ
  root : ℕ

namespace Arena

open List Function OrderedDict

variable {κ δ α : Type}

/-! ## Writing records -/

/-- Overwrite the record of one node. -/
def write (a : Arena κ δ) (n : ℕ) (c : Cell κ δ) : Arena κ δ :=
  { a with cell := Function.update a.cell n c }

/-- Overwrite the payload of one node. -/
def setData (a : Arena κ δ) (n : ℕ) (d : δ) : Arena κ δ :=
  a.write n { a.cell n with data := d }

/-- The payload of a node. -/
def data (a : Arena κ δ) (n : ℕ) : δ := (a.cell n).data

variable {m : ℕ}

section setData

variable {a : Arena κ δ} {n : ℕ} {d : δ}

@[simp] theorem root_setData : (a.setData n d).root = a.root := rfl
@[simp] theorem counter_setData : (a.setData n d).counter = a.counter := rfl

@[simp] theorem parent_setData (m : ℕ) : ((a.setData n d).cell m).parent = (a.cell m).parent := by
  by_cases h : m = n
  · subst h
    simp [setData, write]
  · simp [setData, write, h]

@[simp] theorem children_setData (m : ℕ) :
    ((a.setData n d).cell m).children = (a.cell m).children := by
  by_cases h : m = n
  · subst h
    simp [setData, write]
  · simp [setData, write, h]

theorem data_setData (m : ℕ) : (a.setData n d).data m = if m = n then d else a.data m := by
  by_cases h : m = n
  · subst h
    simp [setData, write, data]
  · simp [setData, write, data, h]

@[simp] theorem data_setData_self : (a.setData n d).data n = d := by
  rw [data_setData, if_pos rfl]

theorem data_setData_ne (h : m ≠ n) : (a.setData n d).data m = a.data m := by
  rw [data_setData, if_neg h]

end setData

section ops

variable [DecidableEq κ]

/-- The child filed under a key. -/
def child? (a : Arena κ δ) (n : ℕ) (k : κ) : Option ℕ := (a.cell n).children.get? k

/-- Put a fresh node between `p` and its child `c`: the new node takes `c`'s place under `k` and
files `c` under `k'`; both payloads are given anew. -/
def splice (a : Arena κ δ) (p c : ℕ) (k k' : κ) (new old : δ) : Arena κ δ :=
  let b := a.write a.counter ⟨some p, OrderedDict.empty.set k' c, new⟩
  let b := b.write c { b.cell c with parent := some a.counter, data := old }
  let b := b.write p { b.cell p with children := (b.cell p).children.set k a.counter }
  { b with counter := a.counter + 1 }

/-- Hang a fresh leaf below `p` under `k`. -/
def attach (a : Arena κ δ) (p : ℕ) (k : κ) (d : δ) : Arena κ δ :=
  let b := a.write a.counter ⟨some p, OrderedDict.empty, d⟩
  let b := b.write p { b.cell p with children := (b.cell p).children.set k a.counter }
  { b with counter := a.counter + 1 }

/-- Take the entry `k` out of the children of `p`; the record of the child itself stays. -/
def detach (a : Arena κ δ) (p : ℕ) (k : κ) : Arena κ δ :=
  a.write p { a.cell p with children := (a.cell p).children.erase k }

/-! ## Membership and consistent links -/

/-- The nodes reached from the root. -/
inductive InTree (a : Arena κ δ) : ℕ → Prop
  | root : InTree a a.root
  | child {p c : ℕ} {k : κ} : InTree a p → a.child? p k = some c → InTree a c

/-- **Consistent links.** Nodes in use are below the counter, the root hangs nowhere, a filed
child points back to its parent, and no child is filed twice. -/
structure Linked (a : Arena κ δ) : Prop where
  fresh : ∀ n, InTree a n → n < a.counter
  root_parent : (a.cell a.root).parent = none
  child_parent : ∀ p k c, InTree a p → a.child? p k = some c → (a.cell c).parent = some p
  filed_once : ∀ p k k' c, InTree a p → a.child? p k = some c → a.child? p k' = some c → k = k'

/-- What is read along the path from the root to a node, `f` giving the part of each node. -/
inductive Reads (a : Arena κ δ) (f : δ → List α) : ℕ → List α → Prop
  | root : Reads a f a.root []
  | child {p c : ℕ} {k : κ} {us : List α} :
      Reads a f p us → a.child? p k = some c → Reads a f c (us ++ f (a.data c))

/-- The nodes on the path from the root (left out) to a node, root side first. -/
inductive Trail (a : Arena κ δ) : ℕ → List ℕ → Prop
  | root : Trail a a.root []
  | child {p c : ℕ} {k : κ} {l : List ℕ} :
      Trail a p l → a.child? p k = some c → Trail a c (l ++ [c])

namespace InTree

variable {a : Arena κ δ} {n : ℕ}

theorem reads (h : InTree a n) (f : δ → List α) : ∃ us, Reads a f n us := by
  induction h with
  | root => exact ⟨[], .root⟩
  | child _ hk ih =>
    obtain ⟨us, hus⟩ := ih
    exact ⟨_, .child hus hk⟩

theorem trail (h : InTree a n) : ∃ l, Trail a n l := by
  induction h with
  | root => exact ⟨[], .root⟩
  | child _ hk ih =>
    obtain ⟨l, hl⟩ := ih
    exact ⟨_, .child hl hk⟩

theorem exists_parent (h : InTree a n) (hn : n ≠ a.root) :
    ∃ p k, InTree a p ∧ a.child? p k = some n := by
  cases h with
  | root => exact absurd rfl hn
  | child hp hk => exact ⟨_, _, hp, hk⟩

end InTree

variable {a : Arena κ δ} {n : ℕ} {f : δ → List α} {us : List α}

theorem Reads.inTree (h : Reads a f n us) : InTree a n := by
  induction h with
  | root => exact .root
  | child _ hk ih => exact .child ih hk

theorem Trail.inTree {l : List ℕ} (h : Trail a n l) : InTree a n := by
  induction h with
  | root => exact .root
  | child _ hk ih => exact .child ih hk

namespace Linked

variable {a : Arena κ δ}

theorem ne_root (h : Linked a) {p c : ℕ} {k : κ} (hp : InTree a p) (hk : a.child? p k = some c) :
    c ≠ a.root := by
  rintro rfl
  have hc := h.child_parent p k _ hp hk
  rw [h.root_parent] at hc
  cases hc

theorem parent_unique (h : Linked a) {p q c : ℕ} {k k' : κ} (hp : InTree a p) (hq : InTree a q)
    (hk : a.child? p k = some c) (hk' : a.child? q k' = some c) : p = q := by
  have h₁ := h.child_parent p k c hp hk
  have h₂ := h.child_parent q k' c hq hk'
  exact Option.some.inj (h₁.symm.trans h₂)

variable {n : ℕ}

theorem reads_unique (h : Linked a) {us vs : List α} (hu : Reads a f n us)
    (hv : Reads a f n vs) : us = vs := by
  induction hu generalizing vs with
  | root =>
    generalize hm : a.root = m at hv
    cases hv with
    | root => rfl
    | child hp hk => exact absurd hm.symm (h.ne_root hp.inTree hk)
  | @child p c k us hp hk ih =>
    generalize hm : c = m at hv
    cases hv with
    | root => exact absurd hm (h.ne_root hp.inTree hk)
    | @child q _ k' ws hq hk' =>
      subst hm
      have hpq : p = q := h.parent_unique hp.inTree hq.inTree hk hk'
      subst hpq
      rw [ih hq]

variable {l : List ℕ}

theorem trail_unique (h : Linked a) {m : List ℕ} (hl : Trail a n l) (hm : Trail a n m) : l = m := by
  induction hl generalizing m with
  | root =>
    generalize hr : a.root = r at hm
    cases hm with
    | root => rfl
    | child hp hk => exact absurd hr.symm (h.ne_root hp.inTree hk)
  | @child p c k l hp hk ih =>
    generalize hr : c = r at hm
    cases hm with
    | root => exact absurd hr (h.ne_root hp.inTree hk)
    | @child q _ k' m hq hk' =>
      subst hr
      have hpq : p = q := h.parent_unique hp.inTree hq.inTree hk hk'
      subst hpq
      rw [ih hq]

theorem trail_of_mem (hl : Trail a n l) (hm : m ∈ l) : ∃ l', Trail a m l' ∧ l' <+: l := by
  induction hl with
  | root => cases hm
  | @child p c k l hp hk ih =>
    rcases mem_append.mp hm with h | h
    · obtain ⟨l', hl', hpre⟩ := ih h
      exact ⟨l', hl', hpre.trans (prefix_append _ _)⟩
    · rw [mem_singleton] at h
      subst h
      exact ⟨_, .child hp hk, prefix_refl _⟩

/-- A trail never visits a node twice: a second visit would have a shorter trail. -/
theorem trail_nodup (h : Linked a) (hl : Trail a n l) : l.Nodup := by
  induction hl with
  | root => exact nodup_nil
  | @child p c k l hp hk ih =>
    rw [nodup_append]
    refine ⟨ih, nodup_singleton c, ?_⟩
    rintro x hx y hy rfl
    rw [mem_singleton] at hy
    subst hy
    obtain ⟨l', hl', hpre⟩ := trail_of_mem hp hx
    have heq := h.trail_unique hl' (.child hp hk)
    have hlen := hpre.length_le
    rw [heq, length_append, length_singleton] at hlen
    omega

theorem trail_length_le (h : Linked a) (hl : Trail a n l) : l.length ≤ a.counter := by
  have hsub : l ⊆ List.range a.counter := by
    intro m hm
    obtain ⟨l', hl', _⟩ := trail_of_mem hl hm
    exact mem_range.mpr (h.fresh m hl'.inTree)
  have hle := ((h.trail_nodup hl).subperm hsub).length_le
  rwa [length_range] at hle

end Linked

theorem Linked.child_ne (h : Linked a) {p c : ℕ} {k : κ} (hp : InTree a p)
    (hk : a.child? p k = some c) : p ≠ c := by
  rintro rfl
  obtain ⟨l, hl⟩ := hp.trail
  have heq := congrArg List.length (h.trail_unique hl (.child hl hk))
  rw [length_append, length_singleton] at heq
  omega

/-! ## Payload writes -/

section setData

variable {a : Arena κ δ} {n : ℕ} {d : δ}

@[simp] theorem child?_setData (m : ℕ) (k : κ) : (a.setData n d).child? m k = a.child? m k := by
  rw [child?, child?, children_setData]

variable {m : ℕ}

@[simp] theorem inTree_setData : InTree (a.setData n d) m ↔ InTree a m := by
  constructor
  · intro h
    induction h with
    | root => exact .root
    | child _ hk ih =>
      rw [child?_setData] at hk
      exact .child ih hk
  · intro h
    induction h with
    | root => exact .root
    | child _ hk ih => exact .child ih (by rw [child?_setData]; exact hk)

theorem Linked.setData (h : Linked a) : Linked (a.setData n d) where
  fresh m hm := h.fresh m (inTree_setData.mp hm)
  root_parent := by
    rw [parent_setData]
    exact h.root_parent
  child_parent p k c hp hk := by
    rw [parent_setData]
    rw [child?_setData] at hk
    exact h.child_parent p k c (inTree_setData.mp hp) hk
  filed_once p k k' c hp hk hk' := by
    rw [child?_setData] at hk hk'
    exact h.filed_once p k k' c (inTree_setData.mp hp) hk hk'

theorem Trail.setData {l : List ℕ} (h : Trail a m l) : Trail (a.setData n d) m l := by
  induction h with
  | root => exact .root
  | child _ hk ih => exact .child ih (by rw [child?_setData]; exact hk)

/-- A payload write that `f` does not see leaves every reading as it was. -/
theorem Reads.setData (hf : f d = f (a.data n)) (h : Reads a f m us) :
    Reads (a.setData n d) f m us := by
  have hdata : ∀ m, f ((a.setData n d).data m) = f (a.data m) := by
    intro m
    by_cases hm : m = n
    · subst hm
      rw [data_setData_self, hf]
    · rw [data_setData_ne hm]
  induction h with
  | root => exact .root
  | @child p c k us _ hk ih =>
    rw [← hdata c]
    exact .child ih (by rw [child?_setData]; exact hk)

end setData

/-! ## Splicing -/

/-- What a splice starts from: `c` hangs below `p` under `k`. -/
structure Spliceable (a : Arena κ δ) (p c : ℕ) (k : κ) : Prop where
  linked : Linked a
  parent : InTree a p
  filed : a.child? p k = some c

variable {key : κ} {q m : ℕ}

section splice

variable {a : Arena κ δ} {p c : ℕ} {k k' : κ} {new old : δ}

@[simp] theorem root_splice : (a.splice p c k k' new old).root = a.root := rfl
namespace Spliceable

variable (h : Spliceable a p c k)

include h

theorem child : InTree a c := .child h.parent h.filed

theorem parent_lt : p < a.counter := h.linked.fresh p h.parent

theorem child_lt : c < a.counter := h.linked.fresh c h.child

theorem ne : p ≠ c := h.linked.child_ne h.parent h.filed

theorem child?_new (key : κ) :
    (a.splice p c k k' new old).child? a.counter key = if key = k' then some c else none := by
  have hp := h.parent_lt.ne
  have hc := h.child_lt.ne
  simp only [splice, write, child?, ne_eq, hp.symm, hc.symm, not_false_eq_true,
    update_of_ne, update_self]
  rw [get?_set, get?_empty]

theorem child?_parent (key : κ) : (a.splice p c k k' new old).child? p key
      = if key = k then some a.counter else a.child? p key := by
  have hp := h.parent_lt.ne
  simp only [splice, write, child?, ne_eq, hp, h.ne, not_false_eq_true, update_of_ne, update_self]
  rw [get?_set]

theorem child?_other (key : κ) (hm : m ≠ p) (hn : m ≠ a.counter) :
    (a.splice p c k k' new old).child? m key = a.child? m key := by
  by_cases hmc : m = c
  · subst hmc
    simp [splice, write, child?, hm, hn]
  · simp [splice, write, child?, hm, hn, hmc]

theorem data_new : (a.splice p c k k' new old).data a.counter = new := by
  simp [splice, write, data, h.parent_lt.ne', h.child_lt.ne']

theorem data_child : (a.splice p c k k' new old).data c = old := by
  simp [splice, write, data, h.ne.symm]

variable {m : ℕ}

theorem data_other (hm : m ≠ c) (hn : m ≠ a.counter) :
    (a.splice p c k k' new old).data m = a.data m := by
  by_cases hmp : m = p
  · subst hmp
    simp [splice, write, data, hm, hn]
  · simp [splice, write, data, hm, hn, hmp]

theorem parent_new : ((a.splice p c k k' new old).cell a.counter).parent = some p := by
  simp [splice, write, h.parent_lt.ne', h.child_lt.ne']

theorem parent_child : ((a.splice p c k k' new old).cell c).parent = some a.counter := by
  simp [splice, write, h.ne.symm]

theorem parent_other (hm : m ≠ c) (hn : m ≠ a.counter) :
    ((a.splice p c k k' new old).cell m).parent = (a.cell m).parent := by
  by_cases hmp : m = p
  · subst hmp
    simp [splice, write, hm, hn]
  · simp [splice, write, hm, hn, hmp]

variable (k' new old) in
theorem filed_new : (a.splice p c k k' new old).child? p k = some a.counter := by
  rw [h.child?_parent, if_pos rfl]

variable (k' new old) in
theorem filed_child : (a.splice p c k k' new old).child? a.counter k' = some c := by
  rw [h.child?_new, if_pos rfl]

variable (k' new old) in
theorem edge_kept (hq : InTree a q) (hm : a.child? q key = some m)
    (hne : m ≠ c) : (a.splice p c k k' new old).child? q key = some m := by
  by_cases hqp : q = p
  · subst hqp
    have hkey : key ≠ k := by
      rintro rfl
      exact hne (Option.some.inj (hm.symm.trans h.filed))
    rw [h.child?_parent, if_neg hkey]
    exact hm
  · rw [h.child?_other key hqp (h.linked.fresh q hq).ne]
    exact hm

theorem edge_cut {q : ℕ} (hq : InTree a q) (hm : a.child? q key = some c) : q = p ∧ key = k := by
  have hqp := h.linked.parent_unique hq h.parent hm h.filed
  subst hqp
  exact ⟨rfl, h.linked.filed_once q key k c hq hm h.filed⟩

theorem edge_cases (hq : InTree a q ∨ q = a.counter)
    (hm : (a.splice p c k k' new old).child? q key = some m) :
    (q = a.counter ∧ key = k' ∧ m = c) ∨ (q = p ∧ key = k ∧ m = a.counter) ∨
      (InTree a q ∧ a.child? q key = some m ∧ m ≠ c) := by
  rcases hq with hq | rfl
  · have hqn := (h.linked.fresh q hq).ne
    by_cases hqp : q = p
    · subst hqp
      rw [h.child?_parent] at hm
      by_cases hkey : key = k
      · rw [if_pos hkey] at hm
        exact .inr (.inl ⟨rfl, hkey, (Option.some.inj hm).symm⟩)
      · rw [if_neg hkey] at hm
        refine .inr (.inr ⟨hq, hm, ?_⟩)
        rintro rfl
        exact hkey (h.edge_cut hq hm).2
    · rw [h.child?_other key hqp hqn] at hm
      refine .inr (.inr ⟨hq, hm, ?_⟩)
      rintro rfl
      exact hqp (h.edge_cut hq hm).1
  · rw [h.child?_new] at hm
    split at hm
    · rename_i hkey
      exact .inl ⟨rfl, hkey, (Option.some.inj hm).symm⟩
    · cases hm

/-- **A splice adds one node.** -/
theorem inTree_iff : InTree (a.splice p c k k' new old) m ↔ InTree a m ∨ m = a.counter := by
  have hold : ∀ {m}, InTree a m → InTree (a.splice p c k k' new old) m := by
    intro m hm
    induction hm with
    | root => exact .root
    | @child q m key hq hm ih =>
      by_cases hmc : m = c
      · subst hmc
        obtain ⟨rfl, rfl⟩ := h.edge_cut hq hm
        exact .child (.child ih (h.filed_new _ _ _)) (h.filed_child _ _ _)
      · exact .child ih (h.edge_kept _ _ _ hq hm hmc)
  constructor
  · intro hm
    induction hm with
    | root => exact .inl .root
    | @child q m key _ hk ih =>
      rcases h.edge_cases ih hk with ⟨-, -, rfl⟩ | ⟨-, -, rfl⟩ | ⟨hq, hm, -⟩
      · exact .inl h.child
      · exact .inr rfl
      · exact .inl (.child hq hm)
  · rintro (hm | rfl)
    · exact hold hm
    · exact .child (hold h.parent) (h.filed_new _ _ _)

theorem inTree_old (hm : InTree a m) : InTree (a.splice p c k k' new old) m :=
  h.inTree_iff.mpr (.inl hm)

theorem inTree_new : InTree (a.splice p c k k' new old) a.counter :=
  h.inTree_iff.mpr (.inr rfl)

theorem linked_splice : Linked (a.splice p c k k' new old) where
  fresh m hm := by
    rcases h.inTree_iff.mp hm with hm | rfl
    · exact Nat.lt_succ_of_lt (h.linked.fresh m hm)
    · exact Nat.lt_succ_self _
  root_parent := by
    have hrc : a.root ≠ c := (h.linked.ne_root h.parent h.filed).symm
    have hrn : a.root ≠ a.counter := (h.linked.fresh a.root .root).ne
    rw [root_splice, h.parent_other hrc hrn]
    exact h.linked.root_parent
  child_parent q key m hq hm := by
    rcases h.edge_cases (h.inTree_iff.mp hq) hm with ⟨rfl, -, rfl⟩ | ⟨rfl, -, rfl⟩ | ⟨hq', hm', hmc⟩
    · exact h.parent_child
    · exact h.parent_new
    · have hmn : m ≠ a.counter := (h.linked.fresh m (.child hq' hm')).ne
      rw [h.parent_other hmc hmn]
      exact h.linked.child_parent q key m hq' hm'
  filed_once q key key' m hq hm hm' := by
    have hin := h.inTree_iff.mp hq
    rcases h.edge_cases hin hm with ⟨-, rfl, rfl⟩ | ⟨-, rfl, rfl⟩ | ⟨hq', hm₁, hmc⟩ <;>
      rcases h.edge_cases hin hm' with ⟨-, hk₂, hm₂⟩ | ⟨-, hk₂, hm₂⟩ | ⟨hq₂, hm₂, hne₂⟩
    · exact hk₂.symm
    · exact hk₂ ▸ absurd hm₂ h.child_lt.ne
    · exact absurd rfl hne₂
    · exact absurd hm₂.symm h.child_lt.ne
    · exact hk₂.symm
    · exact absurd rfl (h.linked.fresh _ (.child hq₂ hm₂)).ne
    · exact absurd hm₂ hmc
    · subst hm₂
      exact absurd rfl (h.linked.fresh _ (.child hq' hm₁)).ne
    · exact h.linked.filed_once q key key' m hq' hm₁ hm₂

theorem reads (hf : f new ++ f old = f (a.data c))
    (hm : Reads a f m us) : Reads (a.splice p c k k' new old) f m us := by
  induction hm with
  | root => exact .root
  | @child q m key us hq hm ih =>
    by_cases hmc : m = c
    · subst hmc
      obtain ⟨rfl, rfl⟩ := h.edge_cut hq.inTree hm
      have h₁ : Reads (a.splice q m key k' new old) f a.counter (us ++ f new) := by
        have hr := Reads.child ih (h.filed_new k' new old)
        rwa [h.data_new] at hr
      have h₂ := Reads.child h₁ (h.filed_child k' new old)
      rw [h.data_child, append_assoc, hf] at h₂
      exact h₂
    · have hr := Reads.child ih (h.edge_kept k' new old hq.inTree hm hmc)
      rwa [h.data_other hmc (h.linked.fresh m (.child hq.inTree hm)).ne] at hr

theorem reads_new (hf : f new ++ f old = f (a.data c)) (hp : Reads a f p us) :
    Reads (a.splice p c k k' new old) f a.counter (us ++ f new) := by
  have hr := Reads.child (h.reads hf hp) (h.filed_new k' new old)
  rwa [h.data_new] at hr

end Spliceable

end splice

/-! ## Attaching a leaf -/

/-- What an attachment starts from: a node of the tree with nothing filed under `k`. -/
structure Attachable (a : Arena κ δ) (p : ℕ) (k : κ) : Prop where
  linked : Linked a
  parent : InTree a p
  vacant : a.child? p k = none

section attach

variable {a : Arena κ δ} {p : ℕ} {k : κ} {d : δ}

@[simp] theorem root_attach : (a.attach p k d).root = a.root := rfl
namespace Attachable

variable (h : Attachable a p k)

include h

theorem parent_lt : p < a.counter := h.linked.fresh p h.parent

theorem children_new : ((a.attach p k d).cell a.counter).children = OrderedDict.empty := by
  simp [attach, write, h.parent_lt.ne']

theorem child?_new (key : κ) : (a.attach p k d).child? a.counter key = none := by
  rw [child?, h.children_new, get?_empty]

theorem child?_parent (key : κ) :
    (a.attach p k d).child? p key = if key = k then some a.counter else a.child? p key := by
  have hp := h.parent_lt.ne
  simp only [attach, write, child?, ne_eq, hp, not_false_eq_true, update_of_ne, update_self]
  rw [get?_set]

omit h in
theorem children_other (hm : m ≠ p) (hn : m ≠ a.counter) :
    ((a.attach p k d).cell m).children = (a.cell m).children := by
  simp [attach, write, hm, hn]

omit h in
theorem child?_other (key : κ) (hm : m ≠ p) (hn : m ≠ a.counter) :
    (a.attach p k d).child? m key = a.child? m key := by
  rw [child?, child?, children_other hm hn]

theorem data_new : (a.attach p k d).data a.counter = d := by
  simp [attach, write, data, h.parent_lt.ne']

theorem data_old (hn : m ≠ a.counter) : (a.attach p k d).data m = a.data m := by
  by_cases hmp : m = p
  · subst hmp
    simp [attach, write, data, hn]
  · simp [attach, write, data, hn, hmp]

theorem parent_new : ((a.attach p k d).cell a.counter).parent = some p := by
  simp [attach, write, h.parent_lt.ne']

theorem parent_old (hn : m ≠ a.counter) : ((a.attach p k d).cell m).parent = (a.cell m).parent := by
  by_cases hmp : m = p
  · subst hmp
    simp [attach, write, hn]
  · simp [attach, write, hn, hmp]

variable (d) in
theorem filed_new : (a.attach p k d).child? p k = some a.counter := by
  rw [h.child?_parent, if_pos rfl]

variable (d) in
theorem edge_kept (hq : InTree a q) (hm : a.child? q key = some m) :
    (a.attach p k d).child? q key = some m := by
  by_cases hqp : q = p
  · subst hqp
    have hkey : key ≠ k := by
      rintro rfl
      rw [h.vacant] at hm
      cases hm
    rw [h.child?_parent, if_neg hkey]
    exact hm
  · rw [child?_other key hqp (h.linked.fresh q hq).ne]
    exact hm

theorem edge_cases (hq : InTree a q ∨ q = a.counter) (hm : (a.attach p k d).child? q key = some m) :
    (q = p ∧ key = k ∧ m = a.counter) ∨ (InTree a q ∧ a.child? q key = some m) := by
  rcases hq with hq | rfl
  · by_cases hqp : q = p
    · subst hqp
      rw [h.child?_parent] at hm
      by_cases hkey : key = k
      · rw [if_pos hkey] at hm
        exact .inl ⟨rfl, hkey, (Option.some.inj hm).symm⟩
      · rw [if_neg hkey] at hm
        exact .inr ⟨hq, hm⟩
    · rw [child?_other key hqp (h.linked.fresh q hq).ne] at hm
      exact .inr ⟨hq, hm⟩
  · rw [h.child?_new] at hm
    cases hm

/-- **An attachment adds one node.** -/
theorem inTree_iff : InTree (a.attach p k d) m ↔ InTree a m ∨ m = a.counter := by
  have hold : ∀ {m}, InTree a m → InTree (a.attach p k d) m := by
    intro m hm
    induction hm with
    | root => exact .root
    | child hq hm ih => exact .child ih (h.edge_kept d hq hm)
  constructor
  · intro hm
    induction hm with
    | root => exact .inl .root
    | child _ hk ih =>
      rcases h.edge_cases ih hk with ⟨-, -, rfl⟩ | ⟨hq, hm⟩
      · exact .inr rfl
      · exact .inl (.child hq hm)
  · rintro (hm | rfl)
    · exact hold hm
    · exact .child (hold h.parent) (h.filed_new d)

theorem linked_attach : Linked (a.attach p k d) where
  fresh m hm := by
    rcases h.inTree_iff.mp hm with hm | rfl
    · exact Nat.lt_succ_of_lt (h.linked.fresh m hm)
    · exact Nat.lt_succ_self _
  root_parent := by
    rw [root_attach, h.parent_old (h.linked.fresh a.root .root).ne]
    exact h.linked.root_parent
  child_parent q key m hq hm := by
    rcases h.edge_cases (h.inTree_iff.mp hq) hm with ⟨rfl, -, rfl⟩ | ⟨hq', hm'⟩
    · exact h.parent_new
    · rw [h.parent_old (h.linked.fresh m (.child hq' hm')).ne]
      exact h.linked.child_parent q key m hq' hm'
  filed_once q key key' m hq hm hm' := by
    have hin := h.inTree_iff.mp hq
    rcases h.edge_cases hin hm with ⟨-, hk₁, rfl⟩ | ⟨hq₁, hm₁⟩
    · rcases h.edge_cases hin hm' with ⟨-, hk₂, -⟩ | ⟨hq₂, hm₂⟩
      · exact hk₁.trans hk₂.symm
      · exact absurd rfl (h.linked.fresh _ (.child hq₂ hm₂)).ne
    · rcases h.edge_cases hin hm' with ⟨-, -, rfl⟩ | ⟨-, hm₂⟩
      · exact absurd rfl (h.linked.fresh _ (.child hq₁ hm₁)).ne
      · exact h.linked.filed_once q key key' m hq₁ hm₁ hm₂

theorem reads (hm : Reads a f m us) : Reads (a.attach p k d) f m us := by
  induction hm with
  | root => exact .root
  | child hq hm ih =>
    have hr := Reads.child ih (h.edge_kept d hq.inTree hm)
    rwa [h.data_old (h.linked.fresh _ (.child hq.inTree hm)).ne] at hr

theorem reads_new (hp : Reads a f p us) : Reads (a.attach p k d) f a.counter (us ++ f d) := by
  have hr := Reads.child (h.reads hp) (h.filed_new d)
  rwa [h.data_new] at hr

end Attachable

end attach

/-! ## Detaching a leaf -/

/-- What a detachment starts from: a childless node filed below `p` under `k`. -/
structure Detachable (a : Arena κ δ) (p c : ℕ) (k : κ) : Prop where
  linked : Linked a
  parent : InTree a p
  filed : a.child? p k = some c
  leaf : ∀ key, a.child? c key = none

section detach

variable {a : Arena κ δ} {p c : ℕ} {k : κ}

@[simp] theorem root_detach : (a.detach p k).root = a.root := rfl
@[simp] theorem parent_detach (m : ℕ) : ((a.detach p k).cell m).parent = (a.cell m).parent := by
  by_cases h : m = p
  · subst h
    simp [detach, write]
  · simp [detach, write, h]

@[simp] theorem data_detach (m : ℕ) : (a.detach p k).data m = a.data m := by
  by_cases h : m = p
  · subst h
    simp [detach, write, data]
  · simp [detach, write, data, h]

theorem children_detach (m : ℕ) : ((a.detach p k).cell m).children
    = if m = p then (a.cell m).children.erase k else (a.cell m).children := by
  by_cases h : m = p
  · subst h
    simp [detach, write]
  · simp [detach, write, h]

theorem child?_detach (m : ℕ) (key : κ) :
    (a.detach p k).child? m key = if m = p ∧ key = k then none else a.child? m key := by
  rw [child?, children_detach]
  by_cases hm : m = p
  · rw [if_pos hm, get?_erase]
    by_cases hk : key = k
    · rw [if_pos hk, if_pos ⟨hm, hk⟩]
    · rw [if_neg hk, if_neg (fun h => hk h.2)]
      rfl
  · rw [if_neg hm, if_neg (fun h => hm h.1)]
    rfl

namespace Detachable

variable (h : Detachable a p c k)

include h

theorem child : InTree a c := .child h.parent h.filed

theorem ne : p ≠ c := h.linked.child_ne h.parent h.filed

theorem ne_root : c ≠ a.root := h.linked.ne_root h.parent h.filed

theorem edge_iff (hq : InTree a q) :
    (a.detach p k).child? q key = some m ↔ a.child? q key = some m ∧ m ≠ c := by
  rw [child?_detach]
  by_cases hcut : q = p ∧ key = k
  · obtain ⟨rfl, rfl⟩ := hcut
    rw [if_pos ⟨rfl, rfl⟩]
    constructor
    · intro hm
      cases hm
    · rintro ⟨hm, hne⟩
      exact absurd (Option.some.inj (hm.symm.trans h.filed)) hne
  · rw [if_neg hcut]
    constructor
    · intro hm
      refine ⟨hm, ?_⟩
      rintro rfl
      have hqp := h.linked.parent_unique hq h.parent hm h.filed
      subst hqp
      exact hcut ⟨rfl, h.linked.filed_once _ _ _ _ hq hm h.filed⟩
    · exact fun hm => hm.1

/-- **A detachment removes exactly the leaf.** -/
theorem inTree_iff : InTree (a.detach p k) m ↔ InTree a m ∧ m ≠ c := by
  constructor
  · intro hm
    induction hm with
    | root => exact ⟨.root, h.ne_root.symm⟩
    | @child q m key _ hk ih =>
      obtain ⟨hold, hne⟩ := (h.edge_iff ih.1).mp hk
      exact ⟨.child ih.1 hold, hne⟩
  · rintro ⟨hm, hne⟩
    induction hm with
    | root => exact .root
    | @child q m key hq hk ih =>
      -- the leaf is nobody's parent, so the path above `m` avoids it
      have hqc : q ≠ c := by
        rintro rfl
        rw [h.leaf] at hk
        cases hk
      exact .child (ih hqc) ((h.edge_iff hq).mpr ⟨hk, hne⟩)

theorem linked_detach : Linked (a.detach p k) where
  fresh m hm := h.linked.fresh m (h.inTree_iff.mp hm).1
  root_parent := by
    rw [parent_detach]
    exact h.linked.root_parent
  child_parent q key m hq hm := by
    rw [parent_detach]
    have hq' := (h.inTree_iff.mp hq).1
    exact h.linked.child_parent q key m hq' ((h.edge_iff hq').mp hm).1
  filed_once q key key' m hq hm hm' := by
    have hq' := (h.inTree_iff.mp hq).1
    exact h.linked.filed_once q key key' m hq' ((h.edge_iff hq').mp hm).1 ((h.edge_iff hq').mp hm').1

theorem reads_iff : Reads (a.detach p k) f m us ↔ Reads a f m us ∧ m ≠ c := by
  constructor
  · intro hm
    induction hm with
    | root => exact ⟨.root, h.ne_root.symm⟩
    | @child q m key us _ hk ih =>
      obtain ⟨hold, hne⟩ := (h.edge_iff ih.1.inTree).mp hk
      have hr := Reads.child ih.1 hold
      rw [← data_detach (p := p) (k := k) m] at hr
      exact ⟨hr, hne⟩
  · rintro ⟨hm, hne⟩
    induction hm with
    | root => exact .root
    | @child q m key us hq hk ih =>
      have hqc : q ≠ c := by
        rintro rfl
        rw [h.leaf] at hk
        cases hk
      have hr := Reads.child (ih hqc) ((h.edge_iff hq.inTree).mpr ⟨hk, hne⟩)
      rwa [data_detach] at hr

end Detachable

end detach

/-! ## The nodes above a node -/

/-- `n` lies on the path from the root (left out) to `h`. -/
inductive Above (a : Arena κ δ) (n : ℕ) : ℕ → Prop
  | self : InTree a n → n ≠ a.root → Above a n n
  | child {p c : ℕ} {k : κ} : Above a n p → a.child? p k = some c → Above a n c

section above

variable {a : Arena κ δ} {n m : ℕ}

theorem Above.inTree (h : Above a n m) : InTree a m := by
  induction h with
  | self hn _ => exact hn
  | child _ hk ih => exact .child ih hk

theorem Above.inTree_left (h : Above a n m) : InTree a n ∧ n ≠ a.root := by
  induction h with
  | self hn hr => exact ⟨hn, hr⟩
  | child _ _ ih => exact ih

theorem Linked.mem_trail_iff (h : Linked a) {l : List ℕ} (hl : Trail a m l) :
    n ∈ l ↔ Above a n m := by
  induction hl with
  | root =>
    constructor
    · intro hn
      cases hn
    · intro hn
      generalize hr : a.root = r at hn
      cases hn with
      | self _ hne => exact absurd hr.symm hne
      | child hp hk => exact absurd hr.symm (h.ne_root hp.inTree hk)
  | @child p c k l hp hk ih =>
    have hc : InTree a c := .child hp.inTree hk
    have hne : c ≠ a.root := h.ne_root hp.inTree hk
    rw [mem_append, mem_singleton]
    constructor
    · rintro (hn | rfl)
      · exact .child (ih.mp hn) hk
      · exact .self hc hne
    · intro hn
      generalize hr : c = r at hn
      cases hn with
      | self _ _ => exact .inr rfl
      | @child q _ k' hq hk' =>
        subst hr
        have hpq : q = p := h.parent_unique hq.inTree hp.inTree hk' hk
        subst hpq
        exact .inl (ih.mpr hq)

theorem above_of_parent {p c : ℕ} {k : κ} (hk : a.child? p k = some c) (hp : p ≠ a.root)
    (h : Above a c m) (hin : InTree a p) : Above a p m := by
  induction h with
  | self _ _ => exact .child (.self hin hp) hk
  | child _ hk' ih => exact .child ih hk'

@[simp] theorem above_setData {x : ℕ} {d : δ} : Above (a.setData x d) n m ↔ Above a n m := by
  constructor
  · intro h
    induction h with
    | self hn hr => exact .self (inTree_setData.mp hn) hr
    | child _ hk ih =>
      rw [child?_setData] at hk
      exact .child ih hk
  · intro h
    induction h with
    | self hn hr => exact .self (inTree_setData.mpr hn) hr
    | child _ hk ih => exact .child ih (by rw [child?_setData]; exact hk)

namespace Spliceable

variable {p c : ℕ} {k k' : κ} {new old : δ} (h : Spliceable a p c k)

include h

theorem above_old (hn : InTree a n) (hm : InTree a m) :
    Above (a.splice p c k k' new old) n m ↔ Above a n m := by
  constructor
  · intro hab
    have hgen : (InTree a m → Above a n m) ∧ (m = a.counter → Above a n p) := by
      clear hm
      induction hab with
      | self _ hr => exact ⟨fun _ => .self hn hr, fun he => absurd he (h.linked.fresh n hn).ne⟩
      | @child q m key hq hk ih =>
        rcases h.edge_cases (h.inTree_iff.mp hq.inTree) hk with
          ⟨hq', -, rfl⟩ | ⟨rfl, -, rfl⟩ | ⟨hq', hm', -⟩
        · exact ⟨fun _ => .child (ih.2 hq') h.filed, fun he => absurd he h.child_lt.ne⟩
        · refine ⟨fun he => absurd rfl (h.linked.fresh _ he).ne, fun _ => ih.1 h.parent⟩
        · refine ⟨fun _ => .child (ih.1 hq') hm', fun he => ?_⟩
          exact absurd he (h.linked.fresh m (.child hq' hm')).ne
    exact hgen.1 hm
  · intro hab
    clear hm
    induction hab with
    | self _ hr => exact .self (h.inTree_old hn) hr
    | @child q m key hq hk ih =>
      by_cases hmc : m = c
      · subst hmc
        obtain ⟨rfl, rfl⟩ := h.edge_cut hq.inTree hk
        exact .child (.child ih (h.filed_new _ _ _)) (h.filed_child _ _ _)
      · exact .child ih (h.edge_kept _ _ _ hq.inTree hk hmc)

theorem above_new (hm : InTree a m) :
    Above (a.splice p c k k' new old) a.counter m ↔ Above a c m := by
  have hne : a.counter ≠ a.root := (h.linked.fresh a.root .root).ne'
  constructor
  · intro hab
    induction hab with
    | self _ _ => exact absurd rfl (h.linked.fresh _ hm).ne
    | @child q m key hq hk ih =>
      rcases h.edge_cases (h.inTree_iff.mp hq.inTree) hk with
        ⟨-, -, rfl⟩ | ⟨-, -, rfl⟩ | ⟨hq', hm', -⟩
      · exact .self h.child (h.linked.ne_root h.parent h.filed)
      · exact absurd rfl (h.linked.fresh _ hm).ne
      · exact .child (ih hq') hm'
  · intro hab
    clear hm
    induction hab with
    | self _ _ => exact .child (.self h.inTree_new hne) (h.filed_child _ _ _)
    | @child q m key hq hk ih =>
      by_cases hmc : m = c
      · subst hmc
        exact .child (.self h.inTree_new hne) (h.filed_child _ _ _)
      · exact .child ih (h.edge_kept _ _ _ hq.inTree hk hmc)

end Spliceable

namespace Attachable

variable {p : ℕ} {k : κ} {d : δ} (h : Attachable a p k)

include h

theorem above_old (hm : InTree a m) : Above (a.attach p k d) n m ↔ Above a n m := by
  constructor
  · intro hab
    induction hab with
    | self _ hr => exact .self hm hr
    | @child q m key hq hk ih =>
      rcases h.edge_cases (h.inTree_iff.mp hq.inTree) hk with ⟨-, -, rfl⟩ | ⟨hq', hm'⟩
      · exact absurd rfl (h.linked.fresh _ hm).ne
      · exact .child (ih hq') hm'
  · intro hab
    clear hm
    induction hab with
    | self hn hr => exact .self (h.inTree_iff.mpr (.inl hn)) hr
    | child hq hk ih => exact .child ih (h.edge_kept d hq.inTree hk)

end Attachable

namespace Detachable

variable {p c : ℕ} {k : κ} (h : Detachable a p c k)

include h

theorem above_iff (hm : m ≠ c) : Above (a.detach p k) n m ↔ Above a n m := by
  constructor
  · intro hab
    clear hm
    induction hab with
    | self hn hr => exact .self (h.inTree_iff.mp hn).1 hr
    | child hq hk ih => exact .child ih ((h.edge_iff (h.inTree_iff.mp hq.inTree).1).mp hk).1
  · intro hab
    induction hab with
    | self hn hr => exact .self (h.inTree_iff.mpr ⟨hn, hm⟩) hr
    | @child q m key hq hk ih =>
      have hqc : q ≠ c := by
        rintro rfl
        rw [h.leaf] at hk
        cases hk
      exact .child (ih hqc) ((h.edge_iff hq.inTree).mpr ⟨hk, hm⟩)

end Detachable

end above

/-! ## Totals over the nodes -/

open Classical in
/-- The nodes of the tree other than the root. -/
noncomputable def nodes (a : Arena κ δ) : Finset ℕ :=
  (Finset.range a.counter).filter fun n => InTree a n ∧ n ≠ a.root

theorem Linked.mem_nodes (h : Linked a) : n ∈ a.nodes ↔ InTree a n ∧ n ≠ a.root := by
  classical
  rw [nodes, Finset.mem_filter, Finset.mem_range]
  exact ⟨fun hn => hn.2, fun hn => ⟨h.fresh n hn.1, hn⟩⟩

/-- The sum of a weight over the nodes of the tree. -/
noncomputable def total {M : Type} [AddCommMonoid M] (a : Arena κ δ) (w : δ → M) : M :=
  ∑ n ∈ a.nodes, w (a.data n)

section totals

variable {M : Type} [AddCommMonoid M] {a : Arena κ δ} {w : δ → M}

@[simp] theorem nodes_setData {n : ℕ} {d : δ} : (a.setData n d).nodes = a.nodes := by
  classical
  ext m
  rw [nodes, nodes, Finset.mem_filter, Finset.mem_filter, inTree_setData, root_setData,
    counter_setData]

theorem Linked.total_setData (h : Linked a) {n : ℕ} {d : δ} (hn : InTree a n) (hr : n ≠ a.root) :
    (a.setData n d).total w + w (a.data n) = a.total w + w d := by
  have hmem : n ∈ a.nodes := h.mem_nodes.mpr ⟨hn, hr⟩
  have hrest : ∑ m ∈ a.nodes.erase n, w ((a.setData n d).data m)
      = ∑ m ∈ a.nodes.erase n, w (a.data m) := by
    apply Finset.sum_congr rfl
    intro m hm
    rw [data_setData_ne (Finset.ne_of_mem_erase hm)]
  rw [total, total, nodes_setData, ← Finset.add_sum_erase _ _ hmem,
    ← Finset.add_sum_erase _ (fun m => w (a.data m)) hmem, hrest, data_setData_self]
  abel

namespace Spliceable

variable {p c : ℕ} {k k' : κ} {new old : δ} (h : Spliceable a p c k)

include h

theorem counter_notMem : a.counter ∉ a.nodes := by
  intro hm
  exact absurd rfl (h.linked.fresh _ (h.linked.mem_nodes.mp hm).1).ne

theorem nodes_splice : (a.splice p c k k' new old).nodes = insert a.counter a.nodes := by
  ext m
  have hroot : a.counter ≠ a.root := (h.linked.fresh a.root .root).ne'
  rw [h.linked_splice.mem_nodes, Finset.mem_insert, h.linked.mem_nodes, h.inTree_iff]
  constructor
  · rintro ⟨hm | rfl, hr⟩
    · exact .inr ⟨hm, hr⟩
    · exact .inl rfl
  · rintro (rfl | ⟨hm, hr⟩)
    · exact ⟨.inr rfl, hroot⟩
    · exact ⟨.inl hm, hr⟩

theorem child_mem : c ∈ a.nodes :=
  h.linked.mem_nodes.mpr ⟨h.child, h.linked.ne_root h.parent h.filed⟩

theorem total_splice (hw : w new + w old = w (a.data c)) :
    (a.splice p c k k' new old).total w = a.total w := by
  have hrest : ∑ m ∈ a.nodes.erase c, w ((a.splice p c k k' new old).data m)
      = ∑ m ∈ a.nodes.erase c, w (a.data m) := by
    apply Finset.sum_congr rfl
    intro m hm
    have hmn : m ≠ a.counter := by
      rintro rfl
      exact h.counter_notMem (Finset.mem_of_mem_erase hm)
    rw [h.data_other (Finset.ne_of_mem_erase hm) hmn]
  calc (a.splice p c k k' new old).total w
      = w new + ∑ m ∈ a.nodes, w ((a.splice p c k k' new old).data m) := by
        rw [total, h.nodes_splice, Finset.sum_insert h.counter_notMem, h.data_new]
    _ = w new + (w old + ∑ m ∈ a.nodes.erase c, w (a.data m)) := by
        rw [← Finset.add_sum_erase _ _ h.child_mem, h.data_child, hrest]
    _ = a.total w := by
        rw [← add_assoc, hw, total, Finset.add_sum_erase _ (fun m => w (a.data m)) h.child_mem]

end Spliceable

namespace Attachable

variable {p : ℕ} {k : κ} {d : δ} (h : Attachable a p k)

include h

theorem counter_notMem : a.counter ∉ a.nodes := by
  intro hm
  exact absurd rfl (h.linked.fresh _ (h.linked.mem_nodes.mp hm).1).ne

theorem nodes_attach : (a.attach p k d).nodes = insert a.counter a.nodes := by
  ext m
  have hroot : a.counter ≠ a.root := (h.linked.fresh a.root .root).ne'
  rw [h.linked_attach.mem_nodes, Finset.mem_insert, h.linked.mem_nodes, h.inTree_iff]
  constructor
  · rintro ⟨hm | rfl, hr⟩
    · exact .inr ⟨hm, hr⟩
    · exact .inl rfl
  · rintro (rfl | ⟨hm, hr⟩)
    · exact ⟨.inr rfl, hroot⟩
    · exact ⟨.inl hm, hr⟩

theorem total_attach : (a.attach p k d).total w = a.total w + w d := by
  have hold : ∑ m ∈ a.nodes, w ((a.attach p k d).data m) = a.total w := by
    apply Finset.sum_congr rfl
    intro m hm
    have hmn : m ≠ a.counter := by
      rintro rfl
      exact h.counter_notMem hm
    rw [h.data_old hmn]
  rw [total, h.nodes_attach, Finset.sum_insert h.counter_notMem, h.data_new, hold, add_comm]

end Attachable

namespace Detachable

variable {p c : ℕ} {k : κ} (h : Detachable a p c k)

include h

theorem child_mem : c ∈ a.nodes := h.linked.mem_nodes.mpr ⟨h.child, h.ne_root⟩

theorem nodes_detach : (a.detach p k).nodes = a.nodes.erase c := by
  ext m
  rw [h.linked_detach.mem_nodes, Finset.mem_erase, h.linked.mem_nodes, h.inTree_iff]
  tauto

theorem total_detach : (a.detach p k).total w + w (a.data c) = a.total w := by
  have hold : (a.detach p k).total w = ∑ m ∈ a.nodes.erase c, w (a.data m) := by
    rw [total, h.nodes_detach]
    apply Finset.sum_congr rfl
    intro m _
    rw [data_detach]
  rw [hold, add_comm, total, Finset.add_sum_erase _ (fun m => w (a.data m)) h.child_mem]

end Detachable

end totals

end ops

end Arena
