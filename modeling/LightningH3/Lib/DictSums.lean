/-
Sums over the entries of a dictionary, and what one assignment or one removal does to them.

A counter that is kept beside a dictionary is right when it equals `total f d` for its weight `f`.
Each rule below moves one term: an overwritten entry swaps its weight, a fresh one adds it, an
erased one takes it away.
-/
import LightningH3.Lib.OrderedDict
import Mathlib.Algebra.GroupWithZero.Nat
import Mathlib.Algebra.Order.BigOperators.Group.List
import Mathlib.Algebra.Order.Group.Nat

set_option autoImplicit false

namespace OrderedDict

variable {κ ν : Type}

/-- The weights of all entries added up. -/
def total (f : ν → ℕ) (d : OrderedDict κ ν) : ℕ := (d.items.map fun p => f p.2).sum

@[simp] theorem total_empty (f : ν → ℕ) : total f (empty : OrderedDict κ ν) = 0 := rfl

section Entries

variable [DecidableEq κ] {f : ν → ℕ} {d : OrderedDict κ ν} {k : κ}

variable {v : ν}

theorem total_erase (h : d.get? k = some v) : total f (d.erase k) + f v = total f d := by
  have hperm := (items_perm_cons_erase h).map fun p => f p.2
  unfold total
  rw [hperm.sum_eq, List.map_cons, List.sum_cons, Nat.add_comm]

theorem total_set_of_get? (h : d.get? k = some v) (w : ν) :
    total f (d.set k w) + f v = total f d + f w := by
  have hperm := (items_set_perm_of_get? (w := w) h).map fun p => f p.2
  have hset : total f (d.set k w) = f w + total f (d.erase k) := by
    unfold total
    rw [hperm.sum_eq, List.map_cons, List.sum_cons]
  have herase := total_erase (f := f) h
  omega

theorem total_set_of_none (h : d.get? k = none) (w : ν) :
    total f (d.set k w) = total f d + f w := by
  unfold total
  rw [items_set_of_notMem (get?_eq_none_iff.mp h), List.map_append, List.sum_append,
    List.map_singleton, List.sum_singleton]

theorem le_total (h : d.get? k = some v) : f v ≤ total f d := by
  have herase := total_erase (f := f) h
  omega

end Entries

end OrderedDict
