/-
Doubly linked lists of cells, the `std::list` of the host language.

An iterator is the address of a cell: it stays with its cell while the list around it changes.
Addresses are never used twice, and no two cells of a list share one; both facts are fields of the
carrier. Clients hold iterators and read lists, so every operation is stated twice: what becomes of
the elements (`values`), and which cells are still there (`Holds`).
-/
import Mathlib.Data.List.Dedup

set_option autoImplicit false

/-- A list of cells, each an address and an element. -/
structure CellList (α : Type) where
  cells : List (ℕ × α)
  next : ℕ
  fresh : ∀ c ∈ cells, c.1 < next
  nodup : (cells.map Prod.fst).Nodup

namespace CellList

open List

variable {α : Type}

/-- The elements, front first. -/
def values (l : CellList α) : List α := l.cells.map Prod.snd

/-- The iterator points to a cell with this element. -/
def Holds (l : CellList α) (pos : ℕ) (v : α) : Prop := (pos, v) ∈ l.cells

def empty : CellList α where
  cells := []
  next := 0
  fresh := fun _ h => absurd h not_mem_nil
  nodup := nodup_nil

@[simp] theorem values_empty : (empty : CellList α).values = [] := rfl

variable {l : CellList α} {pos : ℕ} {v w : α}

theorem Holds.unique (h : l.Holds pos v) (h' : l.Holds pos w) : v = w := by
  have hinj := inj_on_of_nodup_map l.nodup h h' rfl
  exact (Prod.mk.inj hinj).2

variable {pos' : ℕ}

theorem Holds.pos_unique (hnodup : l.values.Nodup) (h : l.Holds pos v) (h' : l.Holds pos' v) :
    pos = pos' := by
  have hinj := inj_on_of_nodup_map hnodup h h' rfl
  exact (Prod.mk.inj hinj).1

/-! ## At the ends -/

/-- `emplace_front`, with the iterator to the new cell. -/
def emplace_front (l : CellList α) (v : α) : CellList α × ℕ :=
  (⟨(l.next, v) :: l.cells, l.next + 1,
      fun c h => (mem_cons.mp h).elim (fun heq => heq ▸ Nat.lt_succ_self _)
        fun hmem => Nat.lt_succ_of_lt (l.fresh c hmem), nodup_cons.mpr ⟨fun hbad => by
        obtain ⟨c, hc, heq⟩ := mem_map.mp hbad
        exact absurd (l.fresh c hc) (heq ▸ Nat.lt_irrefl _), l.nodup⟩⟩, l.next)

/-- `emplace_back`, with the iterator to the new cell. -/
def emplace_back (l : CellList α) (v : α) : CellList α × ℕ :=
  (⟨l.cells ++ [(l.next, v)], l.next + 1,
      fun c h => (mem_append.mp h).elim (fun hmem => Nat.lt_succ_of_lt (l.fresh c hmem))
        fun heq => (mem_singleton.mp heq) ▸ Nat.lt_succ_self _,
      by
        rw [map_append]
        refine List.Nodup.append l.nodup (nodup_singleton _) ?_
        intro a ha hb
        obtain ⟨c, hc, rfl⟩ := mem_map.mp ha
        rw [map_singleton, mem_singleton] at hb
        exact absurd (l.fresh c hc) (by rw [hb]; exact Nat.lt_irrefl _)⟩, l.next)

@[simp] theorem values_emplace_front (l : CellList α) (v : α) :
    (l.emplace_front v).1.values = v :: l.values := rfl

@[simp] theorem values_emplace_back (l : CellList α) (v : α) :
    (l.emplace_back v).1.values = l.values ++ [v] := by
  show ((l.cells ++ [(l.next, v)]).map Prod.snd) = _
  rw [map_append]
  rfl

theorem holds_emplace_front (l : CellList α) (v : α) :
    (l.emplace_front v).1.Holds (l.emplace_front v).2 v := mem_cons_self

theorem Holds.emplace_front (h : l.Holds pos w) (v : α) :
    (l.emplace_front v).1.Holds pos w := mem_cons_of_mem _ h

theorem holds_emplace_back (l : CellList α) (v : α) :
    (l.emplace_back v).1.Holds (l.emplace_back v).2 v :=
  mem_concat_self

theorem Holds.emplace_back (h : l.Holds pos w) (v : α) :
    (l.emplace_back v).1.Holds pos w := mem_append_left _ h

/-- `back`. -/
def back? (l : CellList α) : Option α := l.values.getLast?

def pop_back (l : CellList α) : CellList α where
  cells := l.cells.dropLast
  next := l.next
  fresh c h := l.fresh c (dropLast_subset _ h)
  nodup := l.nodup.sublist ((dropLast_sublist l.cells).map Prod.fst)

@[simp] theorem values_pop_back (l : CellList α) : l.pop_back.values = l.values.dropLast := by
  unfold pop_back values
  rw [map_dropLast]

theorem Holds.pop_back (h : l.Holds pos v) (hne : l.back? ≠ some v) : l.pop_back.Holds pos v := by
  unfold back? values at hne
  rw [getLast?_map] at hne
  have hnil : l.cells ≠ [] := ne_nil_of_mem h
  rw [getLast?_eq_some_getLast hnil, Option.map_some] at hne
  have hsplit := dropLast_append_getLast hnil
  have hmem : (pos, v) ∈ l.cells.dropLast ++ [l.cells.getLast hnil] := by
    rw [hsplit]
    exact h
  rcases mem_append.mp hmem with hmem | hlast
  · exact hmem
  · exfalso
    apply hne
    rw [← mem_singleton.mp hlast]

/-! ## By iterator -/

/-- `erase(pos)`. -/
def erase (l : CellList α) (pos : ℕ) : CellList α where
  cells := l.cells.filter fun c => decide (c.1 ≠ pos)
  next := l.next
  fresh c h := l.fresh c (mem_of_mem_filter h)
  nodup := l.nodup.sublist (filter_sublist.map Prod.fst)

/-- `splice(begin(), *this, pos)`: the cell moves to the front and keeps its address. -/
def splice_front (l : CellList α) (pos : ℕ) : CellList α :=
  match h : l.cells.find? fun c => decide (c.1 = pos) with
  | none => l
  | some c =>
    { cells := c :: l.cells.filter fun d => decide (d.1 ≠ c.1)
      next := l.next
      fresh := fun d hd => (mem_cons.mp hd).elim
        (fun heq => heq ▸ l.fresh c (mem_of_find?_eq_some h))
        fun hmem => l.fresh d (mem_of_mem_filter hmem)
      nodup := nodup_cons.mpr ⟨fun hbad => by
          obtain ⟨d, hd, heq⟩ := mem_map.mp hbad
          exact of_decide_eq_true (mem_filter.mp hd).2 heq,
        l.nodup.sublist (filter_sublist.map Prod.fst)⟩ }

theorem holds_erase_iff : (l.erase pos).Holds pos' v ↔ l.Holds pos' v ∧ pos' ≠ pos := by
  unfold Holds erase
  rw [mem_filter, decide_eq_true_eq]

section

variable (h : l.Holds pos v)
include h

/-- Where no element is there twice, the elements but the one at an iterator are those of the other
cells. -/
theorem map_filter_ne [DecidableEq α] (hnodup : l.values.Nodup) :
    (l.cells.filter fun c => decide (c.1 ≠ pos)).map Prod.snd
      = l.values.filter fun w => decide (w ≠ v) := by
  unfold values
  rw [filter_map]
  congr 1
  apply filter_congr
  intro c hc
  rw [Function.comp_apply, decide_eq_decide]
  apply not_congr
  constructor
  · intro heq
    exact Holds.unique (show l.Holds pos c.2 by rw [← heq]; exact hc) h
  · intro heq
    exact Holds.pos_unique hnodup (show l.Holds c.1 v by rw [← heq]; exact hc) h

theorem values_erase [DecidableEq α] (hnodup : l.values.Nodup) :
    (l.erase pos).values = l.values.filter fun w => decide (w ≠ v) :=
  map_filter_ne h hnodup

/-- The cells after a splice: the one at the iterator, and then the others. -/
theorem cells_splice_front :
    (l.splice_front pos).cells = (pos, v) :: l.cells.filter fun c => decide (c.1 ≠ pos) := by
  unfold splice_front
  split
  · next hnone =>
    have hno := find?_eq_none.mp hnone (pos, v) h
    exact absurd (decide_eq_true rfl) hno
  · next c hc =>
    have hfound := find?_some hc
    have hpos : c.1 = pos := of_decide_eq_true hfound
    have hmem : l.Holds pos c.2 := by
      rw [← hpos]
      exact mem_of_find?_eq_some hc
    have heq : c = (pos, v) := Prod.ext hpos (hmem.unique h)
    dsimp only
    rw [heq]

theorem values_splice_front [DecidableEq α] (hnodup : l.values.Nodup) :
    (l.splice_front pos).values = v :: l.values.filter fun w => decide (w ≠ v) := by
  have hrest := map_filter_ne h hnodup
  unfold values at hrest ⊢
  rw [cells_splice_front h, map_cons, hrest]

theorem holds_splice_front_iff : (l.splice_front pos).Holds pos' w ↔ l.Holds pos' w := by
  unfold Holds
  rw [cells_splice_front h, mem_cons, mem_filter, decide_eq_true_eq]
  constructor
  · rintro (heq | ⟨hmem, -⟩)
    · cases heq
      exact h
    · exact hmem
  · intro hmem
    by_cases hpos : pos' = pos
    · left
      subst hpos
      rw [Holds.unique hmem h]
    · exact Or.inr ⟨hmem, hpos⟩

end

end CellList
