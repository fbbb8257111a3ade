/-
Dense tensors in row-major order: a shape and the entry at each index.

The entry outside the shape is arbitrary, so tensors are compared with `Same`: equal
shapes, and equal entries in bounds. Reshaping keeps the row-major position of an entry;
everything about it follows from how a position splits along the axes.
-/
import Mathlib.Tactic.Ring
import LightningH3.Lib.Segments

set_option autoImplicit false

namespace Tensors

open Segments List

/-! ## Positions -/

/-- The row-major position of an index. -/
def ravel : List ℕ → List ℕ → ℕ
  | _ :: ns, i :: idx => i * ns.prod + ravel ns idx
  | _, _ => 0

/-- The index at a row-major position. -/
def unravel : List ℕ → ℕ → List ℕ
  | [], _ => []
  | _ :: ns, k => k / ns.prod :: unravel ns (k % ns.prod)

/-- An index inside a shape. -/
def InBounds (idx shape : List ℕ) : Prop := List.Forall₂ (· < ·) idx shape

theorem inBounds_nil : InBounds [] [] := List.Forall₂.nil

variable {i n : ℕ} {idx shape : List ℕ}

@[simp] theorem inBounds_cons :
    InBounds (i :: idx) (n :: shape) ↔ i < n ∧ InBounds idx shape := forall₂_cons

@[simp] theorem inBounds_nil_iff : InBounds idx [] ↔ idx = [] :=
  forall₂_nil_right_iff

theorem InBounds.cases_cons (h : InBounds idx (n :: shape)) :
    ∃ i rest, idx = i :: rest ∧ i < n ∧ InBounds rest shape := by
  cases idx with
  | nil => cases h
  | cons i rest => exact ⟨i, rest, rfl, inBounds_cons.mp h⟩

theorem ravel_cons (n i : ℕ) (ns idx : List ℕ) :
    ravel (n :: ns) (i :: idx) = i * ns.prod + ravel ns idx := rfl

theorem unravel_cons (n k : ℕ) (ns : List ℕ) :
    unravel (n :: ns) k = k / ns.prod :: unravel ns (k % ns.prod) := rfl

theorem ravel_lt (h : InBounds idx shape) : ravel shape idx < shape.prod := by
  induction shape generalizing idx with
  | nil =>
    exact Nat.one_pos
  | cons n ns ih =>
    obtain ⟨i, rest, rfl, hi, hrest⟩ := h.cases_cons
    rw [ravel_cons]
    rw [Nat.mul_comm i]
    exact Nat.mul_add_lt_mul_of_lt_of_lt hi (ih hrest)

variable {ns : List ℕ}

theorem unravel_add {k : ℕ} (hk : k < ns.prod) :
    unravel (n :: ns) (i * ns.prod + k) = i :: unravel ns k := by
  rw [unravel_cons, Nat.add_comm, Nat.add_mul_div_right _ _ (by omega), Nat.div_eq_of_lt hk,
    Nat.zero_add, Nat.add_mul_mod_self_right, Nat.mod_eq_of_lt hk]

theorem unravel_ravel (h : InBounds idx shape) : unravel shape (ravel shape idx) = idx := by
  induction shape generalizing idx with
  | nil =>
    rw [inBounds_nil_iff.mp h]
    rfl
  | cons n ns ih =>
    obtain ⟨i, rest, rfl, _, hrest⟩ := h.cases_cons
    rw [ravel_cons, unravel_add (ravel_lt hrest), ih hrest]

theorem ravel_unravel : ∀ {k : ℕ}, k < shape.prod → ravel shape (unravel shape k) = k := by
  induction shape with
  | nil =>
    intro k hk
    rw [prod_nil] at hk
    show 0 = k
    omega
  | cons n ns ih =>
    intro k hk
    rw [prod_cons] at hk
    have hpos : 0 < ns.prod := by
      rcases Nat.eq_zero_or_pos ns.prod with h | h
      · rw [h] at hk
        omega
      · exact h
    rw [unravel_cons, ravel_cons, ih (Nat.mod_lt k hpos)]
    exact Nat.div_add_mod' k ns.prod

theorem unravel_ravel_cons {n' : ℕ} {ns' : List ℕ} (hprod : ns.prod = ns'.prod)
    (h : InBounds idx ns') :
    unravel (n :: ns) (ravel (n' :: ns') (i :: idx)) = i :: unravel ns (ravel ns' idx) := by
  have hlt := ravel_lt h
  rw [ravel_cons, ← hprod, unravel_add (by omega)]

theorem unravel_split {a b m c : ℕ} (h : InBounds idx ns) :
    unravel (a :: b :: ns) (ravel (c :: ns) (m :: idx)) = m / b :: m % b :: idx := by
  have hlt := ravel_lt h
  have hpos : 0 < ns.prod := by omega
  have hdiv : (m * ns.prod + ravel ns idx) / (b * ns.prod) = m / b := by
    rw [Nat.mul_comm b, ← Nat.div_div_eq_div_mul, Nat.add_comm, Nat.add_mul_div_right _ _ hpos,
      Nat.div_eq_of_lt hlt, Nat.zero_add]
  have hmod : (m * ns.prod + ravel ns idx) % (b * ns.prod)
      = (m % b) * ns.prod + ravel ns idx := by
    rcases Nat.eq_zero_or_pos b with rfl | hb
    · simp
    · have hsplit : m * ns.prod + ravel ns idx
          = (m % b * ns.prod + ravel ns idx) + (b * ns.prod) * (m / b) := by
        calc m * ns.prod + ravel ns idx
            = (b * (m / b) + m % b) * ns.prod + ravel ns idx := by rw [Nat.div_add_mod]
          _ = _ := by ring
      rw [hsplit, Nat.add_mul_mod_self_left, Nat.mod_eq_of_lt]
      rw [Nat.mul_comm (m % b)]
      exact Nat.mul_add_lt_mul_of_lt_of_lt (Nat.mod_lt m hb) hlt
  rw [ravel_cons, unravel_cons, prod_cons, hdiv, hmod, unravel_add hlt, unravel_ravel h]

theorem unravel_merge {a b c j : ℕ} (h : InBounds idx ns) :
    unravel (c :: ns) (ravel (a :: b :: ns) (i :: j :: idx)) = (i * b + j) :: idx := by
  have hlt := ravel_lt h
  have heq : ravel (a :: b :: ns) (i :: j :: idx) = (i * b + j) * ns.prod + ravel ns idx := by
    rw [ravel_cons, ravel_cons, prod_cons]
    ring
  rw [heq, unravel_add hlt, unravel_ravel h]

/-! ## Tensors -/

structure Tensor (α : Type) where
  shape : List ℕ
  get : List ℕ → α

namespace Tensor

variable {α : Type}

def numel (x : Tensor α) : ℕ := x.shape.prod

/-- The entry at a row-major position. -/
def flat (x : Tensor α) (k : ℕ) : α := x.get (unravel x.shape k)

/-- `x.reshape(shape)`, also `view` and `flatten` of a contiguous tensor. -/
def reshape (x : Tensor α) (shape : List ℕ) : Tensor α where
  shape := shape
  get idx := x.flat (ravel shape idx)

/-- `x.permute(order)`: axis `i` of the result is axis `order[i]`. -/
def permute (x : Tensor α) (order : List ℕ) : Tensor α where
  shape := order.map (fun axis => x.shape.getD axis 0)
  get idx := x.get ((List.range order.length).map (fun axis => idx.getD (order.idxOf axis) 0))

/-- `x.narrow(dim, first, len)`, also a slice along one axis. -/
def narrow (x : Tensor α) (dim first len : ℕ) : Tensor α where
  shape := x.shape.set dim len
  get idx := x.get (idx.set dim (first + idx.getD dim 0))

/-- `torch.cat([f(0), .., f(count - 1)], dim)`. -/
def cat (dim count : ℕ) (f : ℕ → Tensor α) : Tensor α :=
  let sizes := (List.range count).map (fun j => (f j).shape.getD dim 0)
  { shape := (f 0).shape.set dim sizes.sum
    get := fun idx =>
      let k := idx.getD dim 0
      (f (bucket sizes k)).get (idx.set dim (k - start sizes (bucket sizes k))) }

/-- `dst.narrow(dim, first, len).copy_(src)` with the length of the source. -/
def copy_into (dst : Tensor α) (dim first : ℕ) (src : Tensor α) : Tensor α where
  shape := dst.shape
  get idx :=
    let k := idx.getD dim 0
    if first ≤ k ∧ k < first + src.shape.getD dim 0 then src.get (idx.set dim (k - first))
    else dst.get idx

/-- Equal shapes, and equal entries in bounds. -/
structure Same (x y : Tensor α) : Prop where
  shape_eq : x.shape = y.shape
  get_eq : ∀ idx, InBounds idx x.shape → x.get idx = y.get idx

theorem Same.refl (x : Tensor α) : Same x x := ⟨rfl, fun _ _ => rfl⟩

variable {x : Tensor α}

theorem Same.symm {y : Tensor α} (h : Same x y) : Same y x :=
  ⟨h.shape_eq.symm, fun idx hidx => (h.get_eq idx (by rw [h.shape_eq]; exact hidx)).symm⟩

theorem Same.trans {y z : Tensor α} (h : Same x y) (h' : Same y z) : Same x z :=
  ⟨h.shape_eq.trans h'.shape_eq, fun idx hidx =>
    (h.get_eq idx hidx).trans (h'.get_eq idx (by rw [← h.shape_eq]; exact hidx))⟩

theorem get_reshape (x : Tensor α) (shape idx : List ℕ) :
    (x.reshape shape).get idx = x.get (unravel x.shape (ravel shape idx)) := rfl

variable {shape : List ℕ} {k : ℕ}

theorem flat_reshape (h : k < shape.prod) : (x.reshape shape).flat k = x.flat k := by
  show x.flat (ravel shape (unravel shape k)) = x.flat k
  rw [ravel_unravel h]

variable {idx : List ℕ}

theorem reshape_reshape (shape' : List ℕ) (h : InBounds idx shape')
    (hprod : shape.prod = shape'.prod) :
    ((x.reshape shape).reshape shape').get idx = (x.reshape shape').get idx := by
  have hlt := ravel_lt h
  exact flat_reshape (by omega)

variable {n i : ℕ} {ns : List ℕ}

theorem flat_add (hshape : x.shape = n :: ns) (h : InBounds idx ns) :
    x.flat (i * ns.prod + ravel ns idx) = x.get (i :: idx) := by
  show x.get (unravel x.shape _) = _
  rw [hshape, unravel_add (ravel_lt h), unravel_ravel h]

variable {a b c j : ℕ}

theorem get_reshape_split (hshape : x.shape = c :: ns) (h : InBounds idx ns) :
    (x.reshape (a :: b :: ns)).get (i :: j :: idx) = x.get ((i * b + j) :: idx) := by
  rw [get_reshape, hshape, unravel_merge h]

variable {m : ℕ}

theorem get_reshape_merge (hshape : x.shape = a :: b :: ns) (h : InBounds idx ns) :
    (x.reshape (c :: ns)).get (m :: idx) = x.get (m / b :: m % b :: idx) := by
  rw [get_reshape, hshape, unravel_split h]

/-- `x[i]`. -/
def select (x : Tensor α) (i : ℕ) : Tensor α where
  shape := x.shape.tail
  get idx := x.get (i :: idx)

theorem shape_select (hshape : x.shape = n :: ns) : (x.select i).shape = ns := by
  show x.shape.tail = ns
  rw [hshape, tail_cons]

variable {n' : ℕ}

theorem get_reshape_cons {ns' : List ℕ} (hshape : x.shape = n :: ns) (hprod : ns.prod = ns'.prod)
    (h : InBounds idx ns') :
    (x.reshape (n' :: ns')).get (i :: idx) = ((x.select i).reshape ns').get idx := by
  rw [get_reshape, hshape, unravel_ravel_cons hprod h, get_reshape, shape_select hshape]
  rfl

theorem get_reshape_merge_second (hshape : x.shape = n :: a :: b :: ns) (hc : c = a * b)
    (hm : m < c) (h : InBounds idx ns) :
    (x.reshape (n' :: c :: ns)).get (i :: m :: idx) = x.get (i :: m / b :: m % b :: idx) := by
  have hprod : (a :: b :: ns).prod = (c :: ns).prod := by
    simp only [prod_cons, hc]
    ring
  rw [get_reshape_cons hshape hprod (inBounds_cons.mpr ⟨hm, h⟩)]
  exact get_reshape_merge (shape_select hshape) h

theorem get_reshape_merge_third {p p' : ℕ} (hshape : x.shape = n :: p :: a :: b :: ns) (hp : p = p')
    (hc : c = a * b) (hj : j < p') (hm : m < c) (h : InBounds idx ns) :
    (x.reshape (n' :: p' :: c :: ns)).get (i :: j :: m :: idx)
      = x.get (i :: j :: m / b :: m % b :: idx) := by
  have hprod : (p :: a :: b :: ns).prod = (p' :: c :: ns).prod := by
    simp only [prod_cons, hc, hp]
    ring
  have hidx : InBounds (j :: m :: idx) (p' :: c :: ns) :=
    inBounds_cons.mpr ⟨hj, inBounds_cons.mpr ⟨hm, h⟩⟩
  rw [get_reshape_cons hshape hprod hidx]
  exact get_reshape_merge_second (shape_select hshape) hc hm h

theorem get_reshape_split_second (hshape : x.shape = n :: c :: ns) (hc : c = a * b) (hj : j < a)
    (hk : k < b) (h : InBounds idx ns) :
    (x.reshape (n' :: a :: b :: ns)).get (i :: j :: k :: idx) = x.get (i :: (j * b + k) :: idx) := by
  have hprod : (c :: ns).prod = (a :: b :: ns).prod := by
    simp only [prod_cons, hc]
    ring
  rw [get_reshape_cons hshape hprod (inBounds_cons.mpr ⟨hj, inBounds_cons.mpr ⟨hk, h⟩⟩)]
  exact get_reshape_split (shape_select hshape) h

theorem get_reshape_unit (hshape : x.shape = ns) (h : InBounds idx ns) :
    (x.reshape (1 :: ns)).get (0 :: idx) = x.get idx := by
  rw [get_reshape, hshape, ravel_cons, Nat.zero_mul, Nat.zero_add, unravel_ravel h]

theorem get_reshape_self (hshape : x.shape = shape) (h : InBounds idx shape) :
    (x.reshape shape).get idx = x.get idx := by
  rw [get_reshape, hshape, unravel_ravel h]

/-! ### Copies -/

variable {dim : ℕ}

theorem get_copy_into_of_mem {dst src : Tensor α} {first : ℕ} (hk : idx.getD dim 0 = k)
    (h : first ≤ k ∧ k < first + src.shape.getD dim 0) :
    (dst.copy_into dim first src).get idx = src.get (idx.set dim (k - first)) := by
  subst hk
  unfold copy_into
  simp only [if_pos h]

theorem get_copy_into_of_not_mem {dst src : Tensor α} {first : ℕ} (hk : idx.getD dim 0 = k)
    (h : ¬ (first ≤ k ∧ k < first + src.shape.getD dim 0)) :
    (dst.copy_into dim first src).get idx = dst.get idx := by
  subst hk
  unfold copy_into
  simp only [if_neg h]

/-! ### Concatenation -/

variable {count : ℕ} {f : ℕ → Tensor α} {sizes : List ℕ}

section

variable (hcount : sizes.length = count)
  (hsizes : ∀ j < count, (f j).shape.getD dim 0 = sizes.getD j 0)
include hcount hsizes

theorem cat_sizes : (List.range count).map (fun j => (f j).shape.getD dim 0) = sizes := by
  refine ext_getElem (by simp [hcount]) (fun j hj hj' => ?_)
  rw [getElem_map, getElem_range, hsizes j (by omega), getD_eq_getElem _ _ hj']

/-- Where an entry of a concatenation comes from, given the sizes of the pieces. -/
theorem get_cat (idx : List ℕ) : (cat dim count f).get idx = (f (bucket sizes (idx.getD dim 0))).get
      (idx.set dim (idx.getD dim 0 - start sizes (bucket sizes (idx.getD dim 0)))) := by
  unfold cat
  simp only [cat_sizes hcount hsizes]

theorem shape_cat : (cat dim count f).shape = (f 0).shape.set dim sizes.sum := by
  unfold cat
  simp only [cat_sizes hcount hsizes]

end

/-! ### Storage -/

/-- The tensor of a shape whose entries are given by their row-major positions. -/
def of_flat (shape : List ℕ) (data : ℕ → α) : Tensor α where
  shape := shape
  get idx := data (ravel shape idx)

theorem of_flat_same {data : ℕ → α} (h : ∀ k < x.numel, data k = x.flat k) :
    Same (of_flat x.shape data) x where
  shape_eq := rfl
  get_eq idx hidx := by
    replace hidx : InBounds idx x.shape := hidx
    show data (ravel x.shape idx) = x.get idx
    rw [h _ (ravel_lt hidx)]
    show x.get (unravel x.shape (ravel x.shape idx)) = x.get idx
    rw [unravel_ravel hidx]

/-- The row-major strides of a shape. -/
def strides : List ℕ → List ℕ
  | [] => []
  | _ :: ns => ns.prod :: strides ns

/-- The stride of each axis that has more than one entry is the number of entries below it;
the second component is the number of entries. -/
def contiguous_scan : List (ℕ × ℕ) → Bool × ℕ
  | [] => (true, 1)
  | (size, stride) :: rest =>
    let (ok, expected) := contiguous_scan rest
    (ok && (size == 1 || stride == expected), size * expected)

/-- `is_contiguous` of the given sizes and strides: axes of length one do not count, and an
empty tensor is contiguous. -/
def is_contiguous (sizes strides : List ℕ) : Bool :=
  sizes.prod == 0 || (contiguous_scan (sizes.zip strides)).1

/-- `is_contiguous` of a row-major tensor of a shape after a permutation of its axes. -/
def permuted_contiguous (shape order : List ℕ) : Bool :=
  is_contiguous (order.map (fun axis => shape.getD axis 0))
    (order.map (fun axis => (strides shape).getD axis 0))

end Tensor

/-! ## The collective -/

variable {α : Type}

/-- `all_to_all_single` over ranks, with given split sizes, on flat tensors: rank `r` receives
the `r`-th chunk of rank `j` as its `j`-th chunk. -/
def all_to_all_single (output_splits input_splits : ℕ → List ℕ) (xs : ℕ → Tensor α) (r : ℕ) :
    Tensor α where
  shape := [(output_splits r).sum]
  get idx :=
    let k := idx.headD 0
    let j := bucket (output_splits r) k
    (xs j).flat (start (input_splits j) r + (k - start (output_splits r) j))

theorem start_replicate {w size g : ℕ} (h : g ≤ w) : start (List.replicate w size) g = g * size := by
  unfold start
  rw [take_replicate, Nat.min_eq_left h, sum_replicate_nat]

theorem get_all_to_all_single {output_splits input_splits : ℕ → List ℕ} {xs : ℕ → Tensor α}
    {r j t : ℕ} (hj : j < (output_splits r).length) (ht : t < (output_splits r)[j]) :
    (all_to_all_single output_splits input_splits xs r).get [start (output_splits r) j + t]
      = (xs j).flat (start (input_splits j) r + t) := by
  have hbucket : bucket (output_splits r) (start (output_splits r) j + t) = j :=
    bucket_eq hj (by omega) (by omega)
  unfold all_to_all_single
  simp only [headD_cons]
  rw [hbucket, Nat.add_sub_cancel_left]

theorem unravel_singleton (n k : ℕ) : unravel [n] k = [k] := by
  simp [unravel]

/-- Entry `t` of the chunk from rank `g` when all chunks have one size. -/
theorem flat_all_to_all_single {splits : ℕ → List ℕ} {xs : ℕ → Tensor α} {w size r g t : ℕ}
    (hr : r < w) (hg : g < w) (hsplit : ∀ j < w, splits j = List.replicate w size) (ht : t < size) :
    (all_to_all_single splits splits xs r).flat (g * size + t) = (xs g).flat (r * size + t) := by
  have hj : g < (splits r).length := by
    rw [hsplit r hr, length_replicate]
    exact hg
  have ht' : t < (splits r)[g] := by
    simp only [hsplit r hr, getElem_replicate]
    exact ht
  have hget : (all_to_all_single splits splits xs r).get [start (splits r) g + t]
      = (xs g).flat (start (splits g) r + t) := get_all_to_all_single hj ht'
  rw [hsplit r hr, hsplit g hg, start_replicate (by omega), start_replicate (by omega)] at hget
  rw [← hget]
  show (all_to_all_single splits splits xs r).get (unravel [(splits r).sum] (g * size + t)) = _
  rw [unravel_singleton]

end Tensors
