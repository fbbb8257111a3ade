/-
What the n-gram trie is for: the paths of the windows, the most recent first, and how many windows
went along each of them.
-/
import LightningH3.NgramTrie
import Mathlib.Data.List.Infix

set_option autoImplicit false

namespace LightningH3.NgramTrie

open List

/-- What callers do to a trie. -/
inductive Op
  | insert (tokens : List Token)
  | squeeze (count : ℕ)
  | reset
  deriving DecidableEq, Repr

/-- The paths that a window goes along. -/
def Along (window path : List Token) : Prop := path ≠ [] ∧ path <+: window

instance (window path : List Token) : Decidable (Along window path) :=
  inferInstanceAs (Decidable (_ ∧ _))

/-- The paths of a window, the shortest first. -/
def paths (window : List Token) : List (List Token) := window.inits.tail

theorem mem_paths {window path : List Token} : path ∈ paths window ↔ Along window path := by
  unfold paths Along
  cases window with
  | nil =>
    constructor
    · intro h
      exact absurd h not_mem_nil
    · rintro ⟨hne, hp⟩
      exact absurd (prefix_nil.mp hp) hne
  | cons token window =>
    rw [← mem_inits, inits_cons, mem_cons]
    constructor
    · intro h
      refine ⟨?_, Or.inr h⟩
      obtain ⟨u, -, rfl⟩ := mem_map.mp h
      exact cons_ne_nil _ _
    · rintro ⟨hne, hnil | hmem⟩
      · exact absurd hnil hne
      · exact hmem

theorem length_paths (window : List Token) : (paths window).length = window.length := by
  unfold paths
  rw [List.length_tail, length_inits, Nat.add_sub_cancel]

/-- The windows that `insert` takes from a list of tokens, in this order. -/
def windows (max_trie_depth : ℕ) : List Token → List (List Token)
  | [] => []
  | token :: rest => (token :: rest).take max_trie_depth :: windows max_trie_depth rest

/-! ## 1. The model -/

/-- The paths that are known, the most recent first, and for each path the windows that went along it
since it became known. -/
structure Recency where
  order : List (List Token)
  passes : List Token → ℕ

namespace Recency

def empty : Recency := ⟨[], fun _ => 0⟩

def window (w : List Token) (r : Recency) : Recency where
  order := paths w ++ r.order.filter fun path => decide (¬ Along w path)
  passes path := if Along w path then r.passes path + 1 else r.passes path

/-- The last path is forgotten. -/
def evict (r : Recency) : Recency where
  order := r.order.dropLast
  passes path := if r.order.getLast? = some path then 0 else r.passes path

/-- A window passes, after so many paths were forgotten that it fits: a node is the root's. -/
def insert_at (capacity : ℕ) (w : List Token) (r : Recency) : Recency :=
  (evict^[w.length - (capacity - 1 - r.order.length)] r).window w

def insert_all (capacity : ℕ) (ws : List (List Token)) (r : Recency) : Recency :=
  ws.foldl (fun r w => r.insert_at capacity w) r

/-- A caller's step; more than there is cannot be forgotten. -/
def step (capacity max_trie_depth : ℕ) (r : Recency) : Op → Recency
  | .insert tokens => r.insert_all capacity (windows max_trie_depth tokens)
  | .squeeze count => if count ≤ r.order.length then evict^[count] r else r
  | .reset => .empty

def run (capacity max_trie_depth : ℕ) (ops : List Op) : Recency :=
  ops.foldl (step capacity max_trie_depth) .empty

/-! ## 2. What is kept -/

theorem order_evicts (k : ℕ) (r : Recency) :
    (evict^[k] r).order = r.order.take (r.order.length - k) := by
  induction k with
  | zero => rw [Nat.sub_zero, take_length]; rfl
  | succ k ih =>
    rw [Function.iterate_succ_apply']
    show (evict^[k] r).order.dropLast = _
    rw [dropLast_eq_take, ih, take_take, length_take]
    congr 1
    omega

variable {n : ℕ}

theorem mem_take_filter {α : Type} {keep : α → Bool} {l : List α} {a : α} (ha : a ∈ l.take n)
    (hkeep : keep a = true) : a ∈ (l.filter keep).take n := by
  have hsplit : l.filter keep = (l.take n).filter keep ++ (l.drop n).filter keep := by
    rw [← filter_append, take_append_drop]
  have hlen : ((l.take n).filter keep).length ≤ n :=
    (length_filter_le _ _).trans (length_take_le n l)
  rw [hsplit, take_append, take_of_length_le hlen]
  exact mem_append_left _ (mem_filter.mpr ⟨ha, hkeep⟩)

/-- The paths of these windows are among the first `n`. -/
def Keeps (r : Recency) (n : ℕ) (ws : List (List Token)) : Prop :=
  ∀ w ∈ ws, ∀ path, Along w path → path ∈ r.order.take n

theorem keeps_window {r : Recency} {ws : List (List Token)} (h : r.Keeps n ws) (w : List Token) :
    (r.window w).Keeps (w.length + n) (w :: ws) := by
  intro v hv path hpath
  show path ∈ (paths w ++ _).take (w.length + n)
  rw [← length_paths, take_length_add_append]
  by_cases hw : Along w path
  · exact mem_append_left _ (mem_paths.mpr hw)
  · rcases mem_cons.mp hv with rfl | hv
    · exact absurd hpath hw
    · exact mem_append_right _ (mem_take_filter (h v hv path hpath) (decide_eq_true hw))

variable {capacity : ℕ}

/-- **Room for one more window** costs no window that still fits beside it. -/
theorem keeps_insert_at {r : Recency} {ws : List (List Token)} (h : r.Keeps n ws) (w : List Token)
    (hfit : w.length + n ≤ capacity - 1) :
    (r.insert_at capacity w).Keeps (w.length + n) (w :: ws) := by
  apply keeps_window
  intro v hv path hpath
  have hold := h v hv path hpath
  rw [order_evicts, take_take]
  by_cases hlen : n ≤ r.order.length - (w.length - (capacity - 1 - r.order.length))
  · rw [Nat.min_eq_left hlen]
    exact hold
  · have hall : r.order.length - (w.length - (capacity - 1 - r.order.length))
        = r.order.length := by omega
    rw [hall, Nat.min_eq_right (by omega), take_length]
    exact mem_of_mem_take hold

theorem keeps_insert_all (ws : List (List Token)) {r : Recency} {n : ℕ}
    {before : List (List Token)} : r.Keeps n before → (ws.map List.length).sum + n ≤ capacity - 1 →
    (r.insert_all capacity ws).Keeps ((ws.map List.length).sum + n) (ws.reverse ++ before) := by
  induction ws generalizing r n before with
  | nil =>
    intro h _
    rw [map_nil, sum_nil, Nat.zero_add]
    exact h
  | cons w ws ih =>
    intro h hfit
    rw [map_cons, sum_cons] at hfit ⊢
    have hstep := keeps_insert_at h w (show w.length + n ≤ capacity - 1 by omega)
    have hrest := ih hstep (by omega)
    rw [reverse_cons, append_assoc]
    have hsum : w.length + (ws.map List.length).sum + n
        = (ws.map List.length).sum + (w.length + n) := by omega
    rw [hsum]
    exact hrest

/-- **The last windows are known** as long as together they fit. -/
theorem mem_insert_all (r : Recency) (ws last : List (List Token))
    (hfit : (last.map List.length).sum ≤ capacity - 1) {w path : List Token} (hw : w ∈ last)
    (hpath : Along w path) : path ∈ (r.insert_all capacity (ws ++ last)).order := by
  have hempty : (r.insert_all capacity ws).Keeps 0 [] := fun v hv =>
    absurd hv not_mem_nil
  have hkeeps := keeps_insert_all last hempty (by omega)
  unfold insert_all at hkeeps ⊢
  rw [foldl_append]
  exact mem_of_mem_take (hkeeps w (by rw [append_nil]; exact mem_reverse.mpr hw) path hpath)

end Recency

end LightningH3.NgramTrie
