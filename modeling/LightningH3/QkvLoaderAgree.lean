/-
The fast and the slow QKV loader agree, and block scales follow their weight rows.

A tensor whose rows fall into consecutive segments is described by `Rows`: row `a` of segment
`j` is the `j, a` entry of a source. The reordering, the shard loops and the direct copy each
get one such description, over the same three segments, and two tensors with equal
descriptions are the same.

The segments are those of `widths`, the rows of one group, times a number of groups: all
groups for the whole tensor, the groups of a rank for its share.
-/
import Mathlib.Algebra.BigOperators.Ring.List
import LightningH3.QkvLoader

set_option autoImplicit false

namespace LightningH3.QkvLoader

open Tensors Fallible Segments List Nat

variable {α : Type}

/-! ## Tensors by segments of rows -/

/-- The first `m` segments of `sizes` hold the rows of `src`. -/
structure Rows (rest sizes : List ℕ) (src : ℕ → ℕ → List ℕ → α) (m : ℕ) (x : Tensor α) : Prop where
  shape_eq : x.shape = sizes.sum :: rest
  get_eq : ∀ j < m, ∀ a < sizes.getD j 0, ∀ idx, InBounds idx rest →
    x.get ((start sizes j + a) :: idx) = src j a idx

variable {rest sizes : List ℕ} {src src' : ℕ → ℕ → List ℕ → α} {m : ℕ} {x y : Tensor α}

theorem Rows.zero (hshape : x.shape = sizes.sum :: rest) : Rows rest sizes src 0 x :=
  ⟨hshape, fun _ hj => absurd hj (Nat.not_lt_zero _)⟩

theorem Rows.same (hx : Rows rest sizes src sizes.length x)
    (hy : Rows rest sizes src' sizes.length y)
    (h : ∀ j < sizes.length, ∀ a < sizes.getD j 0, ∀ idx, InBounds idx rest →
      src j a idx = src' j a idx) : Tensor.Same x y := by
  refine ⟨hx.shape_eq.trans hy.shape_eq.symm, fun idx hidx => ?_⟩
  rw [hx.shape_eq] at hidx
  obtain ⟨r, idx, rfl, hr, hidx'⟩ := hidx.cases_cons
  obtain ⟨j, hj, hle, hlt⟩ := exists_segment sizes hr
  obtain ⟨a, rfl⟩ := Nat.exists_eq_add_of_le hle
  have ha : a < sizes.getD j 0 := by
    rw [getD_eq_getElem _ _ hj]
    omega
  rw [hx.get_eq j hj a ha idx hidx', hy.get_eq j hj a ha idx hidx', h j hj a ha idx hidx']

theorem segment_fits (hm : m < sizes.length) : start sizes m + sizes.getD m 0 ≤ sizes.sum := by
  have hsucc := start_succ hm
  have hle := start_le_sum sizes (m + 1)
  rw [getD_eq_getElem _ _ hm]
  omega

theorem Rows.copy_into (hx : Rows rest sizes src m x) (hm : m < sizes.length)
    (hy : y.shape = sizes.getD m 0 :: rest)
    (hsrc : ∀ a < sizes.getD m 0, ∀ idx, InBounds idx rest → y.get (a :: idx) = src m a idx) :
    copy_checked x 0 (start sizes m) (sizes.getD m 0) y = .ok (x.copy_into 0 (start sizes m) y)
      ∧ Rows rest sizes src (m + 1) (x.copy_into 0 (start sizes m) y) := by
  have hlen : y.shape.getD 0 0 = sizes.getD m 0 := by rw [hy, getD_cons_zero]
  refine ⟨?_, hx.shape_eq, fun j hj a ha idx hidx => ?_⟩
  · have hshape : (x.narrow 0 (start sizes m) (sizes.getD m 0)).shape = y.shape := by
      show x.shape.set 0 _ = _
      rw [hx.shape_eq, hy, set_cons_zero]
    unfold copy_checked
    rw [if_pos hshape]
  · have hhead : ((start sizes j + a) :: idx).getD 0 0 = start sizes j + a := getD_cons_zero
    by_cases hjm : j = m
    · subst hjm
      rw [Tensor.get_copy_into_of_mem hhead (by rw [hlen]; omega), set_cons_zero,
        Nat.add_sub_cancel_left, hsrc a ha idx hidx]
    · -- an earlier segment ends where this one starts, or before
      have hlt : j < sizes.length := by omega
      have hsucc := start_succ hlt
      have hmono := start_mono sizes (show j + 1 ≤ m by omega)
      rw [getD_eq_getElem _ _ hlt] at ha
      rw [Tensor.get_copy_into_of_not_mem hhead (by omega)]
      exact hx.get_eq j (by omega) a (by rw [getD_eq_getElem _ _ hlt]; exact ha) idx hidx

theorem Rows.narrow_checked (hx : Rows rest sizes src m x) (hm : m < sizes.length) :
    narrow_checked x 0 (start sizes m) (sizes.getD m 0)
      = .ok (x.narrow 0 (start sizes m) (sizes.getD m 0)) := by
  unfold QkvLoader.narrow_checked
  rw [if_pos]
  rw [hx.shape_eq]
  exact ⟨by simp, segment_fits hm⟩

variable {n : ℕ}

theorem narrow_rows {first len : ℕ} (hx : x.shape = n :: rest) (h : first + len ≤ n) :
    narrow_checked x 0 first len = .ok (x.narrow 0 first len)
      ∧ (x.narrow 0 first len).shape = len :: rest := by
  refine ⟨?_, ?_⟩
  · unfold QkvLoader.narrow_checked
    rw [if_pos]
    rw [hx]
    exact ⟨by simp, h⟩
  · show x.shape.set 0 len = _
    rw [hx, set_cons_zero]

/-! ## Groups -/

/-- The rows of one group: its queries, its key, its value. -/
def widths (heads_per_group head_dim : ℕ) : List ℕ := [heads_per_group * head_dim, head_dim, head_dim]

/-- The segments of `groups` groups. -/
def segments (groups heads_per_group head_dim : ℕ) : List ℕ :=
  (widths heads_per_group head_dim).map (groups * ·)

theorem start_map_mul (n : ℕ) (sizes : List ℕ) (j : ℕ) :
    start (sizes.map (n * ·)) j = n * start sizes j := by
  unfold start
  rw [← map_take, sum_map_mul_left, map_id']

theorem getD_map_mul (n : ℕ) (sizes : List ℕ) (j : ℕ) :
    (sizes.map (n * ·)).getD j 0 = n * sizes.getD j 0 := by
  rw [← Nat.mul_zero n, List.getD_map, Nat.mul_zero]

theorem sum_widths (hpg hd : ℕ) : (widths hpg hd).sum = (hpg + 2) * hd := by
  simp only [widths, sum_cons, sum_nil]
  ring

theorem sum_segments (groups hpg hd : ℕ) :
    (segments groups hpg hd).sum = groups * ((hpg + 2) * hd) := by
  rw [segments, sum_map_mul_left, map_id', sum_widths]

/-- The checkpoint row that row `a` of segment `j` comes from. -/
def source_row (hpg hd j a : ℕ) : ℕ :=
  a / (widths hpg hd).getD j 0 * ((hpg + 2) * hd)
    + (start (widths hpg hd) j + a % (widths hpg hd).getD j 0)

variable {groups c a : ℕ} {idx : List ℕ}

theorem get_grouped_part {per first w : ℕ} (hx : x.shape = n :: rest) (hidx : InBounds idx rest) :
    (((x.reshape (groups :: per :: rest)).narrow 1 first w).reshape (c :: rest)).get (a :: idx)
      = x.get ((a / w * per + (first + a % w)) :: idx) := by
  have hshape : ((x.reshape (groups :: per :: rest)).narrow 1 first w).shape
      = groups :: w :: rest := rfl
  rw [Tensor.get_reshape_merge hshape hidx]
  show (x.reshape (groups :: per :: rest)).get (a / w :: (first + a % w) :: idx) = _
  rw [Tensor.get_reshape_split hx hidx]

variable {hpg hd j : ℕ}

theorem shape_qkv_part (hj : j < 3) :
    (qkv_part x groups hpg hd rest j).shape.getD 0 0 = (segments groups hpg hd).getD j 0 := by
  match j, hj with
  | 0, _ => exact Nat.mul_assoc groups hpg hd
  | 1, _ => rfl
  | 2, _ => rfl

theorem get_qkv_part (hx : x.shape = n :: rest) (hidx : InBounds idx rest) (hj : j < 3) :
    (qkv_part (x.reshape (groups :: (hpg + 2) * hd :: rest)) groups hpg hd rest j).get (a :: idx)
      = x.get (source_row hpg hd j a :: idx) := by
  match j, hj with
  | 0, _ => exact get_grouped_part hx hidx
  | 1, _ => exact get_grouped_part hx hidx
  | 2, _ => exact get_grouped_part hx hidx

/-- **The reordering, row by row.** -/
theorem reorder_rows (hx : x.shape = groups * ((hpg + 2) * hd) :: rest) :
    ∃ y, reorder_grouped_qkv_to_qkv x groups hpg hd = .ok y
      ∧ Rows rest (segments groups hpg hd) (fun j a idx => x.get (source_row hpg hd j a :: idx)) 3
          y := by
  unfold reorder_grouped_qkv_to_qkv
  have htail : x.shape.tail = rest := by rw [hx, tail_cons]
  simp only [htail]
  rw [if_neg (by rw [hx]; simp)]
  have hcount : (segments groups hpg hd).length = 3 := rfl
  refine ⟨_, rfl, ?_, fun j hj a ha idx hidx => ?_⟩
  · rw [Tensor.shape_cat hcount (fun j hj => shape_qkv_part hj)]
    rfl
  · have hj' : j < (segments groups hpg hd).length := hj
    rw [getD_eq_getElem _ _ hj'] at ha
    have hbucket : bucket (segments groups hpg hd) (start (segments groups hpg hd) j + a) = j :=
      bucket_eq hj' (by omega) (by omega)
    rw [Tensor.get_cat hcount (fun j hj => shape_qkv_part hj), getD_cons_zero, hbucket,
      set_cons_zero, Nat.add_sub_cancel_left, get_qkv_part hx hidx hj]

/-! ## The shards of the merged layer

`local` groups on each rank; the share of rank `r` in segment `j` starts `r * (local * w)` rows
into the segment, `w` the width of the segment in one group. -/

/-- What the shard loop writes: row `a` of the share of a rank in segment `j`. -/
def share (loaded : Tensor α) (hpg hd groups loc rank : ℕ) (j a : ℕ) (idx : List ℕ) : α :=
  loaded.get ((start (segments groups hpg hd) j + (rank * (segments loc hpg hd).getD j 0 + a)) :: idx)

variable {loc rank tp_size : ℕ}

theorem share_fits (hrank : rank < tp_size) :
    rank * (segments loc hpg hd).getD j 0 + (segments loc hpg hd).getD j 0
      ≤ (segments (tp_size * loc) hpg hd).getD j 0 := by
  rw [segments, segments, getD_map_mul, getD_map_mul]
  calc rank * (loc * (widths hpg hd).getD j 0) + loc * (widths hpg hd).getD j 0
      = (rank + 1) * (loc * (widths hpg hd).getD j 0) := by ring
    _ ≤ tp_size * (loc * (widths hpg hd).getD j 0) := Nat.mul_le_mul_right _ hrank
    _ = tp_size * loc * (widths hpg hd).getD j 0 := (Nat.mul_assoc _ _ _).symm

theorem start_div (htp : 0 < tp_size) :
    ((segments (tp_size * loc) hpg hd).take j).sum / tp_size = start (segments loc hpg hd) j := by
  show start (segments (tp_size * loc) hpg hd) j / tp_size = _
  rw [segments, segments, start_map_mul, start_map_mul, Nat.mul_assoc, Nat.mul_div_cancel_left _ htp]

theorem size_div (htp : 0 < tp_size) :
    (segments (tp_size * loc) hpg hd).getD j 0 / tp_size = (segments loc hpg hd).getD j 0 := by
  rw [segments, segments, getD_map_mul, getD_map_mul, Nat.mul_assoc, Nat.mul_div_cancel_left _ htp]

theorem shard_piece (hrank : rank < tp_size) (hj : j < 3)
    (hx : x.shape = (segments (tp_size * loc) hpg hd).sum :: rest) : ∃ whole piece,
      narrow_checked x 0 (start (segments (tp_size * loc) hpg hd) j)
          ((segments (tp_size * loc) hpg hd).getD j 0) = .ok whole
        ∧ narrow_checked whole 0 (rank * (segments loc hpg hd).getD j 0)
            ((segments loc hpg hd).getD j 0) = .ok piece
        ∧ piece.shape = (segments loc hpg hd).getD j 0 :: rest
        ∧ ∀ a idx, piece.get (a :: idx) = share x hpg hd (tp_size * loc) loc rank j a idx := by
  obtain ⟨hwhole, hwshape⟩ := narrow_rows hx
    (segment_fits (show j < (segments (tp_size * loc) hpg hd).length from hj))
  obtain ⟨hpiece, hpshape⟩ := narrow_rows hwshape (share_fits hrank)
  refine ⟨_, _, hwhole, hpiece, hpshape, fun a idx => ?_⟩
  rfl

variable {param : Param α}

/-- **The shard loop.** Both loaders of the layer put the share of the rank into the
parameter. -/
theorem base_loader_rows (which : BaseLoader) (hrank : rank < tp_size)
    (hdim : param.output_dim = some 0) (hsharded : param.is_sharded_weight = false)
    (hpacked : param.packed_dim = none)
    (hdata : param.data.shape = (segments loc hpg hd).sum :: rest)
    (hx : x.shape = (segments (tp_size * loc) hpg hd).sum :: rest) :
    ∃ data, base_loader which ⟨segments (tp_size * loc) hpg hd, tp_size, rank⟩ param x = .ok data
      ∧ Rows rest (segments loc hpg hd) (share x hpg hd (tp_size * loc) loc rank) 3 data := by
  have htp : 0 < tp_size := by omega
  have hadjust : ∀ n, adjust_for_packing param 0 n = n := by
    intro n
    unfold adjust_for_packing
    rw [hpacked, if_neg (by simp)]
  cases which with
  | weight_loader =>
    simp only [base_loader, weight_loader, hdim]
    refine foldlM_range_total 3 (Rows.zero hdata) (fun j hj data hrows => ?_)
    obtain ⟨whole, piece, hwhole, hpiece, hshape, hget⟩ := shard_piece hrank hj hx
    obtain ⟨hcopy, hnext⟩ := hrows.copy_into hj hshape (fun a _ idx _ => hget a idx)
    refine ⟨_, ?_, hnext⟩
    simp only [hwhole, ok_bind, weight_loader_shard, start_div htp, size_div htp,
      hrows.narrow_checked hj, hsharded, Bool.false_eq_true, if_false, hpiece, hcopy]
  | weight_loader_v2 =>
    simp only [base_loader, hdim, Option.getD_some]
    refine foldlM_range_total 3 (Rows.zero hdata) (fun j hj data hrows => ?_)
    obtain ⟨whole, piece, hwhole, hpiece, hshape, hget⟩ := shard_piece hrank hj hx
    obtain ⟨hcopy, hnext⟩ := hrows.copy_into hj hshape (fun a _ idx _ => hget a idx)
    refine ⟨_, ?_, hnext⟩
    simp only [hwhole, ok_bind, load_merged_column_weight, hadjust, start_div htp, size_div htp,
      hrows.narrow_checked hj, hpiece, hcopy]

/-! ## The direct copy

The checkpoint of the fast path has one query head in each group, so all three segments have
the width of one head. -/

theorem widths_one (hj : j < 3) : (widths 1 hd).getD j 0 = hd := by
  match j, hj with
  | 0, _ => exact Nat.one_mul hd
  | 1, _ => rfl
  | 2, _ => rfl

theorem start_widths_one (hj : j < 3) : start (widths 1 hd) j = j * hd := by
  match j, hj with
  | 0, _ => simp
  | 1, _ => rfl
  | 2, _ =>
    show 1 * hd + (hd + 0) = 2 * hd
    ring

theorem segment_one (hj : j < 3) :
    (segments loc 1 hd).getD j 0 = loc * hd ∧ start (segments loc 1 hd) j = j * (loc * hd) := by
  rw [segments, getD_map_mul, start_map_mul, widths_one hj, start_widths_one hj]
  exact ⟨rfl, by ring⟩

theorem get_reshape_split_three {b i k : ℕ} (hx : x.shape = n :: rest) (hi : i < a) (hj : j < b)
    (hk : k < c) (hidx : InBounds idx rest) :
    (x.reshape (a :: b :: c :: rest)).get (i :: j :: k :: idx)
      = x.get (((i * b + j) * c + k) :: idx) := by
  have hin : InBounds (i :: j :: k :: idx) (a :: b :: c :: rest) :=
    inBounds_cons.mpr ⟨hi, inBounds_cons.mpr ⟨hj, inBounds_cons.mpr ⟨hk, hidx⟩⟩⟩
  have hprod : (a * b :: c :: rest).prod = (a :: b :: c :: rest).prod := by
    simp only [prod_cons]
    ring
  have hshape : (x.reshape (a * b :: c :: rest)).shape = a * b :: c :: rest := rfl
  rw [← Tensor.reshape_reshape _ hin hprod,
    Tensor.get_reshape_split hshape (inBounds_cons.mpr ⟨hk, hidx⟩), Tensor.get_reshape_split hx hidx]

theorem get_reshape_merge_three {b r : ℕ} (hx : x.shape = a :: b :: c :: rest) (hn : n = a * b * c)
    (hr : r < n) (hidx : InBounds idx rest) : (x.reshape (n :: rest)).get (r :: idx)
      = x.get (r / c / b :: r / c % b :: r % c :: idx) := by
  have hc : 0 < c := by
    rcases Nat.eq_zero_or_pos c with h | h
    · subst h
      omega
    · exact h
  have hin : InBounds (r :: idx) (n :: rest) := inBounds_cons.mpr ⟨hr, hidx⟩
  have hprod : (a * b :: c :: rest).prod = (n :: rest).prod := by
    simp only [prod_cons, hn]
    ring
  have hshape : (x.reshape (a * b :: c :: rest)).shape = a * b :: c :: rest := rfl
  rw [← Tensor.reshape_reshape _ hin hprod, Tensor.get_reshape_merge hshape hidx,
    Tensor.get_reshape_merge hx (inBounds_cons.mpr ⟨mod_lt _ hc, hidx⟩)]

theorem get_copies {target : Tensor α} {source : ℕ → Tensor α} (hj : j < 3) :
    ((List.range 3).foldl (fun target index => copy_select target index (source index)) target).get
      (j :: idx) = (source j).get idx := by
  match j, hj with
  | 0, _ => rfl
  | 1, _ => rfl
  | 2, _ => rfl

theorem split_position (ha : a < loc * hd) : (j * (loc * hd) + a) / hd / loc = j ∧ a / hd < loc
      ∧ (j * (loc * hd) + a) / hd % loc = a / hd ∧ (j * (loc * hd) + a) % hd = a % hd := by
  have hd_pos : 0 < hd := Nat.pos_of_lt_mul_left ha
  have hgroup : a / hd < loc := Nat.div_lt_of_lt_mul (by rw [Nat.mul_comm]; exact ha)
  have hdiv : (j * (loc * hd) + a) / hd = a / hd + loc * j := by
    rw [show j * (loc * hd) + a = a + loc * j * hd by ring, add_mul_div_right _ _ hd_pos]
  refine ⟨?_, hgroup, ?_, ?_⟩
  · rw [hdiv, add_mul_div_left _ _ (zero_lt_of_lt hgroup), div_eq_of_lt hgroup, Nat.zero_add]
  · rw [hdiv, add_mul_mod_self_left, mod_eq_of_lt hgroup]
  · rw [show j * (loc * hd) + a = a + loc * j * hd by ring, add_mul_mod_self_right]

/-- The row that the direct copy takes. -/
def direct_row (hd loc rank j a : ℕ) : ℕ := ((rank * loc + a / hd) * 3 + j) * hd + a % hd

variable {loaded : Loaded α}

/-- **The direct copy, row by row.** -/
theorem copy_grouped_rows {data : Tensor α} (hrank : rank < tp_size)
    (hrest : loaded.tensor.shape.tail = rest)
    (h : copy_grouped_qkv_tp_shard param loaded (tp_size * loc) hd rank tp_size = some data) :
    param.output_dim = some 0 ∧ param.is_sharded_weight = false ∧ param.packed_dim = none
      ∧ loaded.tensor.shape = tp_size * loc * 3 * hd :: rest
      ∧ param.data.shape = (segments loc 1 hd).sum :: rest
      ∧ Rows rest (segments loc 1 hd)
          (fun j a idx => loaded.tensor.get (direct_row hd loc rank j a :: idx)) 3 data := by
  unfold copy_grouped_qkv_tp_shard at h
  have hloc : tp_size * loc / tp_size = loc := Nat.mul_div_cancel_left _ (by omega)
  simp only [hloc, hrest] at h
  split at h
  · cases h
  · rename_i hdeclines
    split at h
    · cases h
    · rename_i hshapes
      push Not at hshapes
      obtain ⟨hhead, hparam⟩ := hshapes
      have hshape : loaded.tensor.shape = tp_size * loc * 3 * hd :: rest := by
        rw [← hrest]
        exact eq_cons_of_mem_head? hhead
      simp only [declines, Bool.or_eq_true, not_or, Bool.not_eq_true, bne_eq_false_iff_eq,
        Option.isSome_eq_false_iff, Option.isNone_iff_eq_none] at hdeclines
      obtain ⟨⟨⟨⟨⟨⟨-, hdim⟩, hsharded⟩, hpacked⟩, -⟩, -⟩, -⟩ := hdeclines.1
      have hsum : (segments loc 1 hd).sum = 3 * loc * hd := by
        rw [sum_segments]
        ring
      refine ⟨hdim, hsharded, hpacked, hshape, by rw [hparam, hsum], ?_⟩
      cases h
      refine ⟨by rw [hsum]; exact hparam, fun j hj a ha idx hidx => ?_⟩
      have hsize : (segments loc 1 hd).getD j 0 = loc * hd := (segment_one hj).1
      have hstart : start (segments loc 1 hd) j = j * (loc * hd) := (segment_one hj).2
      rw [hsize] at ha
      obtain ⟨hrow, hgroup, hhead, hlane⟩ := split_position (j := j) ha
      have hlt : j * (loc * hd) + a < 3 * loc * hd := by
        rw [Nat.mul_comm j, Nat.mul_assoc 3]
        exact Nat.mul_add_lt_mul_of_lt_of_lt hj ha
      have htarget : ((List.range 3).foldl (fun target index => copy_select target index
          (select_second ((loaded.tensor.reshape (tp_size * loc :: 3 :: hd :: rest)).narrow 0
            (rank * loc) loc) index))
          (param.data.reshape (3 :: loc :: hd :: rest))).shape = 3 :: loc :: hd :: rest := rfl
      rw [hstart, hparam, get_reshape_merge_three htarget rfl hlt hidx, hrow, hhead, hlane,
        get_copies hj]
      show (loaded.tensor.reshape (tp_size * loc :: 3 :: hd :: rest)).get
        ((rank * loc + a / hd) :: j :: a % hd :: idx) = _
      have hg : rank * loc + a / hd < tp_size * loc := by
        calc rank * loc + a / hd < rank * loc + loc := by omega
          _ = (rank + 1) * loc := by ring
          _ ≤ tp_size * loc := Nat.mul_le_mul_right _ hrank
      have hd_pos : 0 < hd := Nat.pos_of_lt_mul_left ha
      rw [get_reshape_split_three hshape hg hj (mod_lt _ hd_pos) hidx]
      rfl

theorem direct_row_eq (hj : j < 3) (ha : a < loc * hd) :
    direct_row hd loc rank j a = source_row 1 hd j (rank * (loc * hd) + a) := by
  obtain ⟨-, -, -, hlane⟩ := split_position (j := rank) ha
  have hdiv : (rank * (loc * hd) + a) / hd = rank * loc + a / hd := by
    rw [show rank * (loc * hd) + a = a + rank * loc * hd by ring,
      add_mul_div_right _ _ (Nat.pos_of_lt_mul_left ha), Nat.add_comm]
  rw [direct_row, source_row, widths_one hj, start_widths_one hj, hdiv, hlane]
  ring

/-- **The slow path, row by row.** The reordered share of the rank, for any number of query
heads in a group. -/
theorem reorder_and_shard_rows (which : BaseLoader) (hrank : rank < tp_size)
    (hdim : param.output_dim = some 0) (hsharded : param.is_sharded_weight = false)
    (hpacked : param.packed_dim = none)
    (hdata : param.data.shape = (segments loc hpg hd).sum :: rest)
    (hx : x.shape = tp_size * loc * ((hpg + 2) * hd) :: rest) :
    ∃ data, reorder_and_shard which ⟨segments (tp_size * loc) hpg hd, tp_size, rank⟩ param x
        (tp_size * loc) hpg hd = .ok data
      ∧ Rows rest (segments loc hpg hd)
          (fun j a idx => x.get (source_row hpg hd j (rank * (segments loc hpg hd).getD j 0 + a) :: idx))
          3 data := by
  obtain ⟨y, hy, hrows⟩ := reorder_rows hx
  obtain ⟨data, hload, hshare⟩ :=
    base_loader_rows which hrank hdim hsharded hpacked hdata hrows.shape_eq
  refine ⟨data, ?_, hshare.shape_eq, fun j hj a ha idx hidx => ?_⟩
  · unfold reorder_and_shard
    rw [hy]
    exact hload
  · have hfits : rank * (segments loc hpg hd).getD j 0 + (segments loc hpg hd).getD j 0
        ≤ (segments (tp_size * loc) hpg hd).getD j 0 := share_fits hrank
    rw [hshare.get_eq j hj a ha idx hidx]
    exact hrows.get_eq j hj _ (by omega) idx hidx

/-- **Fast is slow.** What the direct copy leaves in the parameter is what the slow path
does. A checkpoint with more query heads in a group has other row counts and is declined,
unless it has no rows at all. -/
theorem fast_path_agrees (which : BaseLoader) {data : Tensor α} (hrank : rank < tp_size)
    (hx : loaded.tensor.shape = tp_size * loc * ((hpg + 2) * hd) :: rest)
    (h : copy_grouped_qkv_tp_shard param loaded (tp_size * loc) hd rank tp_size = some data) :
    ∃ slow, reorder_and_shard which ⟨segments (tp_size * loc) hpg hd, tp_size, rank⟩ param
        loaded.tensor (tp_size * loc) hpg hd = .ok slow ∧ Tensor.Same slow data := by
  have htail : loaded.tensor.shape.tail = rest := by rw [hx, tail_cons]
  obtain ⟨hdim, hsharded, hpacked, hshape, hdata, hfast⟩ := copy_grouped_rows hrank htail h
  have hrows : tp_size * loc * ((hpg + 2) * hd) = tp_size * loc * 3 * hd :=
    (List.cons.inj (hx.symm.trans hshape)).1
  by_cases hone : hpg = 1
  · subst hone
    obtain ⟨slow, hslow, hslow_rows⟩ := reorder_and_shard_rows which hrank hdim hsharded
      hpacked hdata hx
    refine ⟨slow, hslow, hslow_rows.same hfast (fun j hj a ha idx _ => ?_)⟩
    have hsize : (segments loc 1 hd).getD j 0 = loc * hd := (segment_one hj).1
    rw [hsize] at ha
    rw [direct_row_eq hj ha, hsize]
  · -- the row counts agree only where both are zero
    have hzero : loc * hd = 0 := by
      by_contra hne
      have hpos : 0 < tp_size * (loc * hd) := Nat.mul_pos (by omega) (Nat.pos_of_ne_zero hne)
      have hmul : (hpg + 2) * (tp_size * (loc * hd)) = 3 * (tp_size * (loc * hd)) := by
        calc (hpg + 2) * (tp_size * (loc * hd)) = tp_size * loc * ((hpg + 2) * hd) := by ring
          _ = tp_size * loc * 3 * hd := hrows
          _ = 3 * (tp_size * (loc * hd)) := by ring
      have := Nat.eq_of_mul_eq_mul_right hpos hmul
      omega
    have hempty : ∀ n, (segments loc n hd).sum = 0 := by
      intro n
      calc (segments loc n hd).sum = loc * ((n + 2) * hd) := sum_segments loc n hd
        _ = (n + 2) * (loc * hd) := by ring
        _ = 0 := by rw [hzero, Nat.mul_zero]
    rw [hempty 1, ← hempty hpg] at hdata
    obtain ⟨slow, hslow, hslow_rows⟩ := reorder_and_shard_rows which hrank hdim hsharded
      hpacked hdata hx
    refine ⟨slow, hslow, ?_, fun idx hidx => ?_⟩
    · rw [hslow_rows.shape_eq, hfast.shape_eq, hempty hpg, hempty 1]
    · rw [hslow_rows.shape_eq, hempty hpg] at hidx
      obtain ⟨r, _, -, hr, -⟩ := hidx.cases_cons
      exact absurd hr (Nat.not_lt_zero r)

/-! ## Scales by blocks -/

theorem widths_block (hpg hb block : ℕ) :
    widths hpg (block * hb) = (widths hpg hb).map (block * ·) := by
  simp only [widths, map_cons, map_nil, List.cons.injEq, and_true]
  ring

theorem segments_block (groups hpg hb block : ℕ) :
    segments groups hpg (block * hb) = (segments groups hpg hb).map (block * ·) := by
  simp only [segments, widths_block, map_map]
  refine map_congr_left (fun w _ => ?_)
  show groups * (block * w) = block * (groups * w)
  ring

variable {hb block : ℕ}

/-- **Blocks move with their rows.** The scale row of the block of a reordered row is the
scale row of the block the row comes from. -/
theorem source_row_block (hblock : 0 < block) :
    source_row hpg (block * hb) j a / block = source_row hpg hb j (a / block) := by
  unfold source_row
  rw [widths_block, getD_map_mul, start_map_mul, Nat.div_div_eq_div_mul]
  set w := (widths hpg hb).getD j 0
  set c := start (widths hpg hb) j
  have hsplit : a / (block * w) * ((hpg + 2) * (block * hb)) + (block * c + a % (block * w))
      = a % (block * w) + block * (a / (block * w) * ((hpg + 2) * hb) + c) := by ring
  rw [hsplit, add_mul_div_left _ _ hblock, mod_mul_right_div_self]
  ring

/-- The checkpoint row of row `r` of the share of `rank`, each rank having `groups` groups;
with all groups and rank `0`, of row `r` of the reordered tensor. -/
def row_source (groups rank hpg hd r : ℕ) : ℕ :=
  let j := bucket (segments groups hpg hd) r
  source_row hpg hd j
    (rank * (segments groups hpg hd).getD j 0 + (r - start (segments groups hpg hd) j))

/-- Row `r` of the loaded weight is row `row r` of the checkpoint, and the scale row of its
block is the scale row of the block of `row r`. -/
def ScalesFollow {β : Type} (block rows : ℕ) (row : ℕ → ℕ) (w w' : Tensor α) (s s' : Tensor β) :
    Prop :=
  ∀ r < rows, (∀ idx, InBounds idx w.shape.tail → w'.get (r :: idx) = w.get (row r :: idx))
    ∧ ∀ idx, InBounds idx s.shape.tail → s'.get (r / block :: idx) = s.get (row r / block :: idx)

variable {β : Type} {rest' : List ℕ} {s : Tensor β}

theorem scales_follow_of_rows {n' : ℕ} {w w' : Tensor α} {s' : Tensor β} (hblock : 0 < block)
    (hw : w.shape = n :: rest) (hs : s.shape = n' :: rest')
    (hw' : Rows rest (segments groups hpg (block * hb)) (fun j a idx => w.get
      (source_row hpg (block * hb) j (rank * (segments groups hpg (block * hb)).getD j 0 + a) :: idx))
      3 w') (hs' : Rows rest' (segments groups hpg hb) (fun j a idx => s.get
      (source_row hpg hb j (rank * (segments groups hpg hb).getD j 0 + a) :: idx)) 3 s') :
    ScalesFollow block (groups * ((hpg + 2) * (block * hb)))
      (row_source groups rank hpg (block * hb)) w w' s s' := by
  intro r hr
  rw [← sum_segments] at hr
  obtain ⟨j, hj, hle, hlt⟩ := exists_segment _ hr
  have hbucket := bucket_eq hj hle hlt
  obtain ⟨a, rfl⟩ := Nat.exists_eq_add_of_le hle
  have ha : a < (segments groups hpg (block * hb)).getD j 0 := by
    rw [getD_eq_getElem _ _ hj]
    omega
  have hrow : row_source groups rank hpg (block * hb) (start (segments groups hpg (block * hb)) j + a)
      = source_row hpg (block * hb) j
          (rank * (segments groups hpg (block * hb)).getD j 0 + a) := by
    unfold row_source
    simp only [hbucket, Nat.add_sub_cancel_left]
  have hstart : start (segments groups hpg (block * hb)) j = block * start (segments groups hpg hb) j := by
    rw [segments_block, start_map_mul]
  have hsize : (segments groups hpg (block * hb)).getD j 0
      = block * (segments groups hpg hb).getD j 0 := by
    rw [segments_block, getD_map_mul]
  refine ⟨fun idx hidx => ?_, fun idx hidx => ?_⟩
  · rw [hw] at hidx
    rw [hrow]
    exact hw'.get_eq j hj a ha idx hidx
  · rw [hs] at hidx
    have hdiv : (start (segments groups hpg (block * hb)) j + a) / block
        = start (segments groups hpg hb) j + a / block := by
      rw [hstart, Nat.add_comm, add_mul_div_left _ _ hblock, Nat.add_comm]
    have hrank : (rank * (segments groups hpg (block * hb)).getD j 0 + a) / block
        = rank * (segments groups hpg hb).getD j 0 + a / block := by
      rw [hsize, Nat.add_comm, show rank * (block * (segments groups hpg hb).getD j 0)
        = block * (rank * (segments groups hpg hb).getD j 0) by ring,
        add_mul_div_left _ _ hblock, Nat.add_comm]
    have hlt' : a / block < (segments groups hpg hb).getD j 0 :=
      Nat.div_lt_of_lt_mul (by rw [← hsize]; exact ha)
    rw [hrow, source_row_block hblock, hdiv, hrank]
    exact hs'.get_eq j hj (a / block) hlt' idx hidx

theorem divide_mul {d q : ℕ} (hd : 0 < d) : divide (d * q) d = .ok q := by
  unfold divide
  rw [if_pos (Dvd.intro q rfl), Nat.mul_div_cancel_left q hd]

theorem divide_start (htp : 0 < tp_size) :
    divide ((segments (tp_size * loc) hpg (block * hb)).take j).sum tp_size
      = .ok (block * start (segments loc hpg hb) j) := by
  have hstart : ((segments (tp_size * loc) hpg (block * hb)).take j).sum
      = tp_size * (block * start (segments loc hpg hb) j) := by
    show start (segments (tp_size * loc) hpg (block * hb)) j = _
    rw [segments_block, start_map_mul, segments, segments, start_map_mul, start_map_mul]
    ring
  rw [hstart, divide_mul htp]

theorem divide_size (htp : 0 < tp_size) :
    divide ((segments (tp_size * loc) hpg (block * hb)).getD j 0) tp_size
      = .ok (block * (segments loc hpg hb).getD j 0) := by
  have hsize : (segments (tp_size * loc) hpg (block * hb)).getD j 0
      = tp_size * (block * (segments loc hpg hb).getD j 0) := by
    rw [segments_block, getD_map_mul, segments, segments, getD_map_mul, getD_map_mul]
    ring
  rw [hsize, divide_mul htp]

/-- **The block loop.** The scale parameter gets the share of the rank, counted in blocks. -/
theorem block_scale_rows (hblock : 0 < block) (hrank : rank < tp_size)
    (hy : y.shape = (segments loc hpg hb).sum :: rest)
    (hx : x.shape = (segments (tp_size * loc) hpg hb).sum :: rest) :
    ∃ data, weight_loader_v2_block_quant_scale
        ⟨segments (tp_size * loc) hpg (block * hb), tp_size, rank⟩ block 0 y x = .ok data
      ∧ Rows rest (segments loc hpg hb) (share x hpg hb (tp_size * loc) loc rank) 3 data := by
  have htp : 0 < tp_size := by omega
  unfold weight_loader_v2_block_quant_scale
  by_cases hsame : y.shape = x.shape
  · rw [if_pos hsame]
    refine ⟨x, rfl, by rw [← hsame]; exact hy, fun j hj a ha idx _ => ?_⟩
    -- equal shapes: one rank, or no rows
    rw [hy, hx] at hsame
    have hsum := (List.cons.inj hsame).1
    rw [sum_segments, sum_segments, Nat.mul_assoc] at hsum
    have hle := (segment_fits (show j < (segments loc hpg hb).length from hj)).trans_eq
      (sum_segments loc hpg hb)
    have hpos : 0 < loc * ((hpg + 2) * hb) := by omega
    have hone : tp_size = 1 :=
      (Nat.eq_of_mul_eq_mul_right hpos (by rw [Nat.one_mul]; exact hsum.symm))
    subst hone
    obtain rfl : rank = 0 := by omega
    unfold share
    rw [Nat.one_mul, Nat.zero_mul, Nat.zero_add]
  · rw [if_neg hsame]
    -- the invariant of the loop: the rows so far, and the offset in blocks
    obtain ⟨st, hfold, hrows, -⟩ : ∃ st, ((List.range 3).map id).foldlM (block_quant_scale_step
        ⟨segments (tp_size * loc) hpg (block * hb), tp_size, rank⟩ block 0 x) (y, 0) = .ok st
        ∧ Rows rest (segments loc hpg hb) (share x hpg hb (tp_size * loc) loc rank) 3 st.1
        ∧ st.2 = start (segments (tp_size * loc) hpg hb) 3 := by
      refine foldlM_range_total (I := fun m (st : Tensor α × ℕ) => Rows rest (segments loc hpg hb)
        (share x hpg hb (tp_size * loc) loc rank) m st.1
        ∧ st.2 = start (segments (tp_size * loc) hpg hb) m) 3 ⟨Rows.zero hy, rfl⟩
        (fun j hj st hst => ?_)
      obtain ⟨hrows, hoffset⟩ := hst
      obtain ⟨whole, piece, hwhole, hpiece, hshape, hget⟩ := shard_piece hrank hj hx
      obtain ⟨hcopy, hnext⟩ := hrows.copy_into hj hshape (fun a _ idx _ => hget a idx)
      have hblocks : divide ((segments (tp_size * loc) hpg (block * hb)).getD j 0) block
          = .ok ((segments (tp_size * loc) hpg hb).getD j 0) := by
        rw [segments_block, getD_map_mul, divide_mul hblock]
      have hj' : j < (segments (tp_size * loc) hpg hb).length := hj
      refine ⟨(_, st.2 + (segments (tp_size * loc) hpg hb).getD j 0), ?_, hnext, ?_⟩
      · simp only [block_quant_scale_step, id_eq, hblocks, ok_bind, hoffset, hwhole,
          block_quant_scale_shard, divide_start htp, divide_size htp, divide_mul hblock,
          hrows.narrow_checked hj, hpiece, hcopy]
        rfl
      · rw [hoffset, start_succ hj', getD_eq_getElem _ _ hj']
    refine ⟨st.1, ?_, hrows⟩
    rw [map_id] at hfold
    show ((List.range 3).foldlM _ _ >>= _) = _
    rw [hfold]
    rfl

/-! ## The installed loaders -/

theorem qkv_proj_eq (groups hd tp_size rank : ℕ) :
    Arch.qkv_proj ⟨groups, hd⟩ tp_size rank = ⟨segments groups 1 hd, tp_size, rank⟩ := by
  simp [Arch.qkv_proj, segments, widths]

/-- Two loads that end the same way: both with the same tensor, or both with the same
error. -/
inductive SameOutcome : Except LoadError (Tensor α) → Except LoadError (Tensor α) → Prop where
  | ok {x y : Tensor α} (h : Tensor.Same x y) : SameOutcome (.ok x) (.ok y)
  | error (e : LoadError) : SameOutcome (.error e) (.error e)

theorem SameOutcome.refl (r : Except LoadError (Tensor α)) : SameOutcome r r :=
  match r with
  | .ok x => .ok (Tensor.Same.refl x)
  | .error e => .error e

theorem installed_weight_loader_outcome (which : BaseLoader) (hrank : rank < tp_size)
    (param : Param α) (loaded : Loaded α) :
    SameOutcome (installed_weight_loader which ⟨tp_size * loc, hd⟩ tp_size rank param loaded)
      (reorder_and_shard which (Arch.qkv_proj ⟨tp_size * loc, hd⟩ tp_size rank) param
        loaded.tensor (tp_size * loc) 1 hd) := by
  unfold installed_weight_loader
  cases hfast : copy_grouped_qkv_tp_shard param loaded (tp_size * loc) hd rank tp_size with
  | none => exact SameOutcome.refl _
  | some data =>
    obtain ⟨-, -, -, hshape, -, -⟩ := copy_grouped_rows hrank rfl hfast
    have hx : loaded.tensor.shape = tp_size * loc * ((1 + 2) * hd) :: loaded.tensor.shape.tail := by
      rw [show tp_size * loc * ((1 + 2) * hd) = tp_size * loc * 3 * hd by ring]
      exact hshape
    obtain ⟨slow, hslow, hsame⟩ := fast_path_agrees which hrank hx hfast
    rw [qkv_proj_eq, hslow]
    exact .ok hsame.symm

theorem Rows.of_same (hx : Rows rest sizes src sizes.length x) (h : Tensor.Same y x) :
    Rows rest sizes src sizes.length y := by
  refine ⟨h.shape_eq.trans hx.shape_eq, fun j hj a ha idx hidx => ?_⟩
  have hlt : start sizes j + a < sizes.sum := by
    have := segment_fits hj
    omega
  rw [h.get_eq _ (by rw [h.shape_eq, hx.shape_eq]; exact inBounds_cons.mpr ⟨hlt, hidx⟩)]
  exact hx.get_eq j hj a ha idx hidx

theorem reorder_scales_follow {w : Tensor α} (hblock : 0 < block)
    (hw : w.shape = groups * ((hpg + 2) * (block * hb)) :: rest)
    (hs : s.shape = groups * ((hpg + 2) * hb) :: rest') :
    ∃ w' s', reorder_grouped_qkv_to_qkv w groups hpg (block * hb) = .ok w'
      ∧ reorder_grouped_qkv_to_qkv s groups hpg hb = .ok s'
      ∧ ScalesFollow block (groups * ((hpg + 2) * (block * hb)))
          (row_source groups 0 hpg (block * hb)) w w' s s' := by
  obtain ⟨w', hw', hwrows⟩ := reorder_rows hw
  obtain ⟨s', hs', hsrows⟩ := reorder_rows hs
  refine ⟨w', s', hw', hs', scales_follow_of_rows hblock hw hs ?_ ?_⟩
  · simp only [Nat.zero_mul, Nat.zero_add]
    exact hwrows
  · simp only [Nat.zero_mul, Nat.zero_add]
    exact hsrows

theorem maybe_reorder_scale {s : Tensor α} (hblock : 0 < block) (hrest : rest ≠ [])
    (hs : s.shape = groups * ((1 + 2) * hb) :: rest) :
    maybe_reorder groups (block * hb / block) (3 * groups * (block * hb) / block) s
      = reorder_grouped_qkv_to_qkv s groups 1 hb := by
  have hrows : 3 * groups * (block * hb) / block = groups * ((1 + 2) * hb) := by
    rw [show 3 * groups * (block * hb) = block * (groups * ((1 + 2) * hb)) by ring,
      Nat.mul_div_cancel_left _ hblock]
  have hdim : 2 ≤ s.shape.length := by
    rw [hs, length_cons]
    have := length_pos_of_ne_nil hrest
    omega
  unfold maybe_reorder
  rw [hrows, Nat.mul_div_cancel_left _ hblock, if_pos ⟨hdim, by rw [hs, head?_cons]⟩]

theorem installed_scales_follow (which : BaseLoader) {cols : ℕ} {w : Loaded α} {data : Tensor β}
    (hblock : 0 < block) (hrank : rank < tp_size) (hrest : rest' ≠ [])
    (hdim : param.output_dim = some 0) (hsharded : param.is_sharded_weight = false)
    (hpacked : param.packed_dim = none)
    (hparam : param.data.shape = loc * ((1 + 2) * (block * hb)) :: rest)
    (hdata : data.shape = loc * ((1 + 2) * hb) :: rest')
    (hw : w.tensor.shape = tp_size * loc * ((1 + 2) * (block * hb)) :: rest)
    (hs : s.shape = tp_size * loc * ((1 + 2) * hb) :: rest') :
    ∃ w' s', installed_weight_loader which ⟨tp_size * loc, block * hb⟩ tp_size rank param w = .ok w'
      ∧ installed_scale_loader ⟨tp_size * loc, block * hb⟩ tp_size rank (block, cols) data s = .ok s'
      ∧ ScalesFollow block (loc * ((1 + 2) * (block * hb))) (row_source loc rank 1 (block * hb))
          w.tensor w' s s' := by
  rw [← sum_segments] at hparam hdata
  -- the weight, through the slow path
  have houtcome : SameOutcome
      (installed_weight_loader which ⟨tp_size * loc, block * hb⟩ tp_size rank param w)
      (reorder_and_shard which (Arch.qkv_proj ⟨tp_size * loc, block * hb⟩ tp_size rank) param
        w.tensor (tp_size * loc) 1 (block * hb)) := installed_weight_loader_outcome which hrank param w
  obtain ⟨slow, hslow, hwrows⟩ := reorder_and_shard_rows which hrank hdim hsharded hpacked hparam hw
  rw [qkv_proj_eq, hslow] at houtcome
  cases hload : installed_weight_loader which ⟨tp_size * loc, block * hb⟩ tp_size rank param w with
  | error e =>
    rw [hload] at houtcome
    cases houtcome
  | ok w' =>
    rw [hload] at houtcome
    cases houtcome with
    | ok hsame =>
      -- the scale
      obtain ⟨s₁, hs₁, hsrows⟩ := reorder_rows hs
      obtain ⟨s', hs', hshare⟩ := block_scale_rows hblock hrank hdata hsrows.shape_eq
      refine ⟨w', s', rfl, ?_, scales_follow_of_rows hblock hw hs (hwrows.of_same hsame) ?_⟩
      · unfold installed_scale_loader
        have hbr : qkv_scale_block_rows (some (block, cols)) (block * hb) = .ok block := by
          unfold qkv_scale_block_rows
          simp
        simp only [hbr, ok_bind]
        rw [maybe_reorder_scale hblock hrest hs, hs₁]
        rw [qkv_proj_eq]
        exact hs'
      · refine ⟨hshare.shape_eq, fun j hj a ha idx hidx => ?_⟩
        have hfits : rank * (segments loc 1 hb).getD j 0 + (segments loc 1 hb).getD j 0
            ≤ (segments (tp_size * loc) 1 hb).getD j 0 := share_fits hrank
        rw [hshare.get_eq j hj a ha idx hidx]
        exact hsrows.get_eq j hj _ (by omega) idx hidx

theorem fast_path_taken (hdeclines : declines param loaded groups rank tp_size = false)
    (hx : loaded.tensor.shape = groups * 3 * hd :: rest)
    (hparam : param.data.shape = 3 * (groups / tp_size) * hd :: rest) :
    (copy_grouped_qkv_tp_shard param loaded groups hd rank tp_size).isSome := by
  unfold copy_grouped_qkv_tp_shard
  rw [if_neg (by rw [hdeclines]; simp)]
  simp only [hx, hparam, head?_cons, tail_cons, ne_eq, not_true_eq_false, or_self,
    if_false, Option.isSome_some]

/-- **The QKV loaders agree.** For every number of groups, query heads in a group, head
dimension, number of ranks that divides the groups, and rank: what the fast path copies is
the reordered tensor sharded matrix by matrix; it is taken for a plain weight with one query
head in each group; the installed loader ends like the slow path on every input; and a block
scale is reordered, and sharded, with the weight rows of its block. -/
theorem qkv_loaders_agree {β : Type} (which : BaseLoader) {groups hpg hd tp_size rank : ℕ}
    (hdiv : tp_size ∣ groups) (hrank : rank < tp_size) :
    (∀ (param : Param α) (loaded : Loaded α) (rest : List ℕ) (data : Tensor α),
      loaded.tensor.shape = groups * ((hpg + 2) * hd) :: rest →
      copy_grouped_qkv_tp_shard param loaded groups hd rank tp_size = some data →
      ∃ slow, reorder_and_shard which
          ⟨[groups * (hpg * hd), groups * hd, groups * hd], tp_size, rank⟩ param loaded.tensor groups
          hpg hd = .ok slow ∧ Tensor.Same slow data)
    ∧ (∀ (param : Param α) (loaded : Loaded α) (rest : List ℕ),
      declines param loaded groups rank tp_size = false →
      loaded.tensor.shape = groups * 3 * hd :: rest →
      param.data.shape = 3 * (groups / tp_size) * hd :: rest →
      (copy_grouped_qkv_tp_shard param loaded groups hd rank tp_size).isSome)
    ∧ (∀ (param : Param α) (loaded : Loaded α),
      SameOutcome (installed_weight_loader which ⟨groups, hd⟩ tp_size rank param loaded)
        (reorder_and_shard which (Arch.qkv_proj ⟨groups, hd⟩ tp_size rank) param loaded.tensor groups
          1 hd))
    ∧ (∀ (block : ℕ) (rest rest' : List ℕ) (w : Tensor α) (s : Tensor β), 0 < block → block ∣ hd →
      w.shape = groups * ((hpg + 2) * hd) :: rest →
      s.shape = groups * ((hpg + 2) * (hd / block)) :: rest' →
      ∃ w' s', reorder_grouped_qkv_to_qkv w groups hpg hd = .ok w'
        ∧ reorder_grouped_qkv_to_qkv s groups hpg (hd / block) = .ok s'
        ∧ ScalesFollow block (groups * ((hpg + 2) * hd)) (row_source groups 0 hpg hd) w w' s s')
    ∧ (∀ (block cols : ℕ) (rest rest' : List ℕ) (param : Param α) (w : Loaded α) (s data : Tensor β),
      0 < block → block ∣ hd → rest' ≠ [] → param.output_dim = some 0 →
      param.is_sharded_weight = false → param.packed_dim = none →
      param.data.shape = groups / tp_size * (3 * hd) :: rest →
      data.shape = groups / tp_size * (3 * (hd / block)) :: rest' →
      w.tensor.shape = groups * (3 * hd) :: rest → s.shape = groups * (3 * (hd / block)) :: rest' →
      ∃ w' s', installed_weight_loader which ⟨groups, hd⟩ tp_size rank param w = .ok w'
        ∧ installed_scale_loader ⟨groups, hd⟩ tp_size rank (block, cols) data s = .ok s'
        ∧ ScalesFollow block (groups / tp_size * (3 * hd))
            (row_source (groups / tp_size) rank 1 hd) w.tensor w' s s') := by
  obtain ⟨loc, rfl⟩ := hdiv
  have hloc : tp_size * loc / tp_size = loc := Nat.mul_div_cancel_left _ (by omega)
  rw [hloc]
  refine ⟨fun param loaded rest data hx hfast => fast_path_agrees which hrank hx hfast,
    fun param loaded rest hdeclines hx hparam => ?_,
    fun param loaded => installed_weight_loader_outcome which hrank param loaded, ?_, ?_⟩
  · exact fast_path_taken hdeclines hx (by rw [hloc]; exact hparam)
  · rintro block rest rest' w s hblock ⟨hb, rfl⟩ hw hs
    rw [Nat.mul_div_cancel_left _ hblock] at hs ⊢
    exact reorder_scales_follow hblock hw hs
  · rintro block cols rest rest' param w s data hblock ⟨hb, rfl⟩ hrest hdim hsharded hpacked hparam
      hdata hw hs
    rw [Nat.mul_div_cancel_left _ hblock] at hdata hs
    exact installed_scales_follow which hblock hrank hrest hdim hsharded hpacked hparam hdata hw hs

/-- The parameter of one of two ranks, for four heads of four lanes. -/
def half_param : Param ℕ where
  data := ⟨[24, 1], fun _ => 0⟩
  dtype := .bfloat16
  is_contiguous := true
  output_dim := some 0
  is_sharded_weight := false
  packed_dim := none
  packed_factor := 1
  needs_scalar_to_array := false

/-- A checkpoint of four heads of four lanes; each row holds its number. -/
def numbered_rows : Loaded ℕ where
  tensor := ⟨[48, 1], fun idx => idx.getD 0 0⟩
  dtype := .bfloat16
  is_contiguous := true

/-- The second of two ranks: the copied rows are the reordered share, and scales by blocks of
two rows follow. -/
theorem qkv_loaders_agree_two_ranks : 2 ∣ 4 ∧ 1 < 2
      ∧ (∃ slow data, copy_grouped_qkv_tp_shard half_param numbered_rows 4 4 1 2 = some data
        ∧ reorder_and_shard .weight_loader ⟨[4 * (1 * 4), 4 * 4, 4 * 4], 2, 1⟩ half_param
            numbered_rows.tensor 4 1 4 = .ok slow ∧ Tensor.Same slow data)
      ∧ ∃ w' s', installed_weight_loader .weight_loader ⟨4, 4⟩ 2 1 half_param numbered_rows = .ok w'
        ∧ installed_scale_loader ⟨4, 4⟩ 2 1 (2, 2) ⟨[12, 1], fun _ => 0⟩
            ⟨[24, 1], fun idx => idx.getD 0 0⟩ = .ok s'
        ∧ ScalesFollow 2 24 (row_source 2 1 1 4) numbered_rows.tensor w'
            ⟨[24, 1], fun idx => idx.getD 0 0⟩ s' := by
  obtain ⟨hagree, htaken, -, -, hscales⟩ :=
    @qkv_loaders_agree ℕ ℕ .weight_loader 4 1 4 2 1 (by decide) (by decide)
  refine ⟨by decide, by decide, ?_, ?_⟩
  · obtain ⟨data, hdata⟩ := Option.isSome_iff_exists.mp
      (htaken half_param numbered_rows [1] (by decide) rfl rfl)
    obtain ⟨slow, hslow, hsame⟩ := hagree half_param numbered_rows [1] data rfl hdata
    exact ⟨slow, data, hdata, hslow, hsame⟩
  · exact hscales 2 2 [1] [1] half_param numbered_rows _ _ (by decide) (by decide) (by simp) rfl rfl
      rfl rfl rfl rfl rfl

end LightningH3.QkvLoader
