/-
What the Ulysses exchanges are for: between two shardings of one attention operand.

The whole operand has an entry for each batch item, head, row and dimension. Before
attention a rank holds its rows of every head; inside attention it holds all rows of its
heads. Every exchange path turns one sharding into the other, whichever way it moves the
data, so two paths agree because a rank's shard of an operand is unique.
-/
import LightningH3.UlyssesExchange

set_option autoImplicit false

namespace LightningH3.Ulysses

open Segments Tensors

variable {α : Type}

/-! ## Tensors by their entries -/

/-- A batch item, head, row and dimension in the layout of `head_dim`; also the sizes. -/
def axes (head_dim i n t l : ℕ) : List ℕ := if head_dim = 1 then [i, n, t, l] else [i, t, n, l]

/-- A tensor with the given sizes and entries. -/
structure Tabulates (head_dim b h s d : ℕ) (f : ℕ → ℕ → ℕ → ℕ → α) (x : Tensor α) : Prop where
  shape_eq : x.shape = axes head_dim b h s d
  get_eq : ∀ i n t l, i < b → n < h → t < s → l < d → x.get (axes head_dim i n t l) = f i n t l

variable {head_dim b h d : ℕ}

theorem inBounds_axes {s i n t l : ℕ} : InBounds (axes head_dim i n t l) (axes head_dim b h s d)
      ↔ i < b ∧ n < h ∧ t < s ∧ l < d := by
  unfold axes
  split
  · simp
  · simp
    tauto

theorem exists_axes {s : ℕ} {idx : List ℕ} (hidx : InBounds idx (axes head_dim b h s d)) :
    ∃ i n t l, idx = axes head_dim i n t l ∧ i < b ∧ n < h ∧ t < s ∧ l < d := by
  unfold axes at hidx ⊢
  split at hidx
  · obtain ⟨i, rest, rfl, hi, hrest⟩ := hidx.cases_cons
    obtain ⟨n, rest, rfl, hn, hrest⟩ := hrest.cases_cons
    obtain ⟨t, rest, rfl, ht, hrest⟩ := hrest.cases_cons
    obtain ⟨l, rest, rfl, hl, hrest⟩ := hrest.cases_cons
    rw [inBounds_nil_iff] at hrest
    exact ⟨i, n, t, l, by rw [hrest, if_pos ‹_›], hi, hn, ht, hl⟩
  · obtain ⟨i, rest, rfl, hi, hrest⟩ := hidx.cases_cons
    obtain ⟨t, rest, rfl, ht, hrest⟩ := hrest.cases_cons
    obtain ⟨n, rest, rfl, hn, hrest⟩ := hrest.cases_cons
    obtain ⟨l, rest, rfl, hl, hrest⟩ := hrest.cases_cons
    rw [inBounds_nil_iff] at hrest
    exact ⟨i, n, t, l, by rw [hrest, if_neg ‹_›], hi, hn, ht, hl⟩

section Tabulates

variable {head_dim b h s d : ℕ} {f g : ℕ → ℕ → ℕ → ℕ → α} {x y : Tensor α}

section

variable (hx : Tabulates head_dim b h s d f x)
include hx

theorem Tabulates.same (hy : Tabulates head_dim b h s d f y) : Tensor.Same x y where
  shape_eq := hx.shape_eq.trans hy.shape_eq.symm
  get_eq idx hidx := by
    rw [hx.shape_eq] at hidx
    obtain ⟨i, n, t, l, rfl, hi, hn, ht, hl⟩ := exists_axes hidx
    rw [hx.get_eq i n t l hi hn ht hl, hy.get_eq i n t l hi hn ht hl]

theorem Tabulates.of_same (hxy : Tensor.Same y x) : Tabulates head_dim b h s d f y where
  shape_eq := hxy.shape_eq.trans hx.shape_eq
  get_eq i n t l hi hn ht hl := by
    have hidx : InBounds (axes head_dim i n t l) y.shape := by
      rw [hxy.shape_eq, hx.shape_eq]
      exact inBounds_axes.mpr ⟨hi, hn, ht, hl⟩
    rw [hxy.get_eq _ hidx, hx.get_eq i n t l hi hn ht hl]

theorem Tabulates.congr (hfg : ∀ i n t l, i < b → n < h → t < s → l < d → f i n t l = g i n t l) :
    Tabulates head_dim b h s d g x where
  shape_eq := hx.shape_eq
  get_eq i n t l hi hn ht hl := by
    rw [hx.get_eq i n t l hi hn ht hl, hfg i n t l hi hn ht hl]

end

end Tabulates

/-! ## The two shardings -/

/-- One attention operand, with the number of rows of each rank. -/
structure Whole (α : Type) where
  batch : ℕ
  heads : ℕ
  head_size : ℕ
  lens : List ℕ
  entry : ℕ → ℕ → ℕ → ℕ → α

/-- A rank's rows of every head. -/
def Whole.SeqShard (X : Whole α) (head_dim r : ℕ) (x : Tensor α) : Prop :=
  Tabulates head_dim X.batch X.heads (X.lens.getD r 0) X.head_size
    (fun i n t l => X.entry i n (start X.lens r + t) l) x

/-- All rows of a rank's heads. -/
def Whole.HeadShard (X : Whole α) (head_dim r : ℕ) (y : Tensor α) : Prop :=
  Tabulates head_dim X.batch (X.heads / X.lens.length) X.lens.sum X.head_size
    (fun i j m l => X.entry i (r * (X.heads / X.lens.length) + j) m l) y

/-- The operand whose rows are the given tensors. -/
def whole_of_rows (head_dim b h d : ℕ) (lens : List ℕ) (xs : ℕ → Tensor α) : Whole α where
  batch := b
  heads := h
  head_size := d
  lens := lens
  entry i n m l :=
    (xs (bucket lens m)).get (axes head_dim i n (m - start lens (bucket lens m)) l)

theorem whole_of_rows_seqShard {r : ℕ} {lens : List ℕ} {xs : ℕ → Tensor α} (hr : r < lens.length)
    (hshape : (xs r).shape = axes head_dim b h (lens.getD r 0) d) :
    (whole_of_rows head_dim b h d lens xs).SeqShard head_dim r (xs r) where
  shape_eq := hshape
  get_eq i n t l _ _ ht _ := by
    have ht' : t < lens[r] := by
      have hlen : lens.getD r 0 = lens[r] := List.getD_eq_getElem _ _ hr
      rw [← hlen]
      exact ht
    have hbucket : bucket lens (start lens r + t) = r := bucket_eq hr (by omega) (by omega)
    show _ = (xs (bucket lens (start lens r + t))).get
      (axes head_dim i n (start lens r + t - start lens (bucket lens (start lens r + t))) l)
    rw [hbucket, Nat.add_sub_cancel_left]

/-- The operand whose heads are the given tensors. -/
def whole_of_heads (head_dim b h d : ℕ) (lens : List ℕ) (ys : ℕ → Tensor α) : Whole α where
  batch := b
  heads := h * lens.length
  head_size := d
  lens := lens
  entry i n m l := (ys (n / h)).get (axes head_dim i (n % h) m l)

theorem whole_of_heads_headShard {r : ℕ} {lens : List ℕ} {ys : ℕ → Tensor α}
    (hlens : 0 < lens.length) (hshape : (ys r).shape = axes head_dim b h lens.sum d) :
    (whole_of_heads head_dim b h d lens ys).HeadShard head_dim r (ys r) := by
  have hdiv : h * lens.length / lens.length = h := Nat.mul_div_cancel _ hlens
  refine ⟨?_, fun i j m l _ hj _ _ => ?_⟩
  · show _ = axes head_dim b (h * lens.length / lens.length) lens.sum d
    rw [hdiv, hshape]
  · replace hj : j < h := by
      have : j < h * lens.length / lens.length := hj
      rwa [hdiv] at this
    show _ = (ys ((r * (h * lens.length / lens.length) + j) / h)).get
      (axes head_dim i ((r * (h * lens.length / lens.length) + j) % h) m l)
    rw [hdiv, Nat.add_comm (r * h), Nat.add_mul_div_right _ _ (by omega), Nat.div_eq_of_lt hj,
      Nat.zero_add, Nat.add_mul_mod_self_right, Nat.mod_eq_of_lt hj]

end LightningH3.Ulysses
