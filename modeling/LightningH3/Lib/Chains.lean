/-
Chains of keys in which every key determines the chain it ends: what a chained hash gives, where
the hash of a block covers the whole sequence of blocks before it.

`Determined path l` says that the keys of `l` agree with the function `path` that names each key's
chain. A `Chains` is such a function that agrees with itself. The lemmas are the ones a tree keyed
by such hashes rests on: a chain is found again from its last key, the parent of a key is unique,
and all keys of a chain share its first key.
-/
import Mathlib.Data.List.Basic

set_option autoImplicit false

/-- Every key of the list has the part of the list up to it as its chain. -/
def Determined {α : Type} (path : α → List α) (l : List α) : Prop :=
  ∀ pre a post, l = pre ++ a :: post → path a = pre ++ [a]

/-- Checked key by key: the key at each place has the list up to that place. -/
theorem determined_iff {α : Type} {path : α → List α} {l : List α} :
    Determined path l ↔ ∀ i : Fin l.length, path (l.get i) = l.take (i + 1) := by
  constructor
  · intro h i
    have hsplit : l = l.take i ++ l.get i :: l.drop (i + 1) := by
      rw [List.get_eq_getElem, List.getElem_cons_drop, List.take_append_drop]
    rw [h _ _ _ hsplit, List.get_eq_getElem, List.take_append_getElem]
  · intro h pre a post hl
    subst hl
    have hi : pre.length < (pre ++ a :: post).length := by simp
    have hat := h ⟨pre.length, hi⟩
    have htake : (pre ++ a :: post).take (pre.length + 1) = pre ++ [a] := by
      rw [List.take_append, List.take_of_length_le (Nat.le_succ _)]
      simp
    simpa [htake] using hat

instance {α : Type} [DecidableEq α] (path : α → List α) (l : List α) :
    Decidable (Determined path l) :=
  decidable_of_iff _ determined_iff.symm

theorem determined_singleton {α : Type} {path : α → List α} {a : α} (h : path a = [a]) :
    Determined path [a] := by
  intro pre b post hl
  cases pre with
  | nil =>
    obtain ⟨rfl, -⟩ := List.cons.inj hl
    exact h
  | cons c pre => simp at hl

/-- A chain for every key, each ending in its key and agreeing with the chains of the keys on
it. -/
structure Chains (α : Type) where
  path : α → List α
  ends : ∀ a, ∃ pre, path a = pre ++ [a]
  closed : ∀ a, Determined path (path a)

namespace Chains

open List

variable {α : Type} (C : Chains α)

/-- The chain that ends at an optional parent: none for the start of a chain. -/
def path_to (parent : Option α) : List α := parent.elim [] C.path

/-- The first key of the chain of a key. -/
def head (a : α) : α := (C.path a).headD a

@[simp] theorem path_to_some (a : α) : C.path_to (some a) = C.path a := rfl

/-- `a` comes right after the optional parent on its chain. -/
def Below (parent : Option α) (a : α) : Prop := C.path a = C.path_to parent ++ [a]

theorem path_ne_nil (a : α) : C.path a ≠ [] := by
  obtain ⟨pre, hpre⟩ := C.ends a
  rw [hpre]
  exact append_ne_nil_of_right_ne_nil _ (cons_ne_nil _ _)

variable {a : α}

theorem path_inj {b : α} (h : C.path a = C.path b) : a = b := by
  obtain ⟨pre, ha⟩ := C.ends a
  obtain ⟨pre', hb⟩ := C.ends b
  rw [ha, hb] at h
  exact (append_singleton_inj.mp h).2

variable {o : Option α}

theorem path_to_inj {o' : Option α} (h : C.path_to o = C.path_to o') : o = o' := by
  cases o with
  | none =>
    cases o' with
    | none => rfl
    | some b => exact absurd h.symm (C.path_ne_nil b)
  | some a =>
    cases o' with
    | none => exact absurd h (C.path_ne_nil a)
    | some b => exact congrArg some (C.path_inj h)

theorem parent_unique {o' : Option α} (h : C.path a = C.path_to o ++ [a])
    (h' : C.path a = C.path_to o' ++ [a]) : o = o' := by
  apply C.path_to_inj
  rw [h] at h'
  exact (append_singleton_inj.mp h').1

/-! ## Walking along a chain -/

variable {rest : List α}

theorem below_of_determined (h : Determined C.path (C.path_to o ++ a :: rest)) :
    C.path a = C.path_to o ++ [a] :=
  h (C.path_to o) a rest rfl

theorem determined_step (h : Determined C.path (C.path_to o ++ a :: rest)) :
    Determined C.path (C.path_to (some a) ++ rest) := by
  rw [path_to_some, C.below_of_determined h, append_assoc]
  exact h

/-! ## The first key -/

theorem head_of_root (h : C.path a = C.path_to none ++ [a]) : C.head a = a := by
  unfold head
  rw [h]
  rfl

theorem head_of_below {p : α} (h : C.path a = C.path_to (some p) ++ [a]) : C.head a = C.head p := by
  unfold head
  rw [h, path_to_some]
  cases hp : C.path p with
  | nil => exact absurd hp (C.path_ne_nil p)
  | cons b rest => rfl

theorem head_of_determined_below {p : α} :
    ∀ {rest : List α}, Determined C.path (C.path_to (some p) ++ rest) →
      ∀ a ∈ rest, C.head a = C.head p := by
  intro rest
  induction rest generalizing p with
  | nil =>
    intro _ a ha
    exact absurd ha not_mem_nil
  | cons b rest ih =>
    intro h a ha
    have hb : C.head b = C.head p := C.head_of_below (C.below_of_determined h)
    rcases mem_cons.mp ha with rfl | ha
    · exact hb
    · rw [ih (C.determined_step h) a ha, hb]

theorem head_of_determined {first : α} (h : Determined C.path (C.path_to none ++ first :: rest)) :
    ∀ a ∈ first :: rest, C.head a = first := by
  have hfirst : C.head first = first := C.head_of_root (C.below_of_determined h)
  intro a ha
  rcases mem_cons.mp ha with rfl | ha
  · exact hfirst
  · rw [C.head_of_determined_below (C.determined_step h) a ha, hfirst]

end Chains
