/-
The size and the crop of a target canvas.

A source is scaled until it covers the target and is cropped at its centre. The size of a target
comes from a ratio alone: its short edge is the base edge, unless the area is then above the budget,
and both sides are rounded to the grid. The arithmetic is exact, in any ordered field with a floor;
`sqrt` and the text of a number are the library's.
-/
import Mathlib.Data.Rat.Floor

set_option autoImplicit false

namespace LightningH3.CanvasShape

variable {K : Type} [Field K] [LinearOrder K] [FloorRing K]

/-! ## 1. Numbers -/

/-- `round`, half to even. -/
def round_even (x : K) : ℤ :=
  let f := ⌊x⌋
  if x - f < 1 / 2 then f
  else if 1 / 2 < x - f then f + 1
  else if f % 2 = 0 then f
  else f + 1

/-- `int` of a number: towards zero. -/
def int (x : K) : ℤ := if 0 ≤ x then ⌊x⌋ else ⌈x⌉

/-! ## 2. The cover crop -/

structure CoverCropPlan (K : Type) where
  scale : K
  resized_size : ℤ × ℤ
  crop_box : ℤ × ℤ × ℤ × ℤ

def cover_scale (K : Type) [Field K] [LinearOrder K]
    (source_width source_height target_width target_height : ℤ) : K :=
  max ((target_width : K) / source_width) (target_height / source_height)

def cover_crop_plan (K : Type) [Field K] [LinearOrder K] [FloorRing K]
    (source_width source_height target_width target_height : ℤ)
    (allow_upscale : Bool) : Except String (CoverCropPlan K) :=
  if source_width ≤ 0 ∨ source_height ≤ 0 then
    .error "cover_crop requires positive source width/height"
  else
    let scale : K := cover_scale K source_width source_height target_width target_height
    if 1 < scale ∧ allow_upscale = false then
      .error ("target_canvas cover_crop would upscale the source; set "
        ++ "allow_upscale=true (source=" ++ toString source_width ++ "x" ++ toString source_height
        ++ ", target=" ++ toString target_width ++ "x" ++ toString target_height ++ ")")
    else
      let resized_width := max target_width (round_even (source_width * scale))
      let resized_height := max target_height (round_even (source_height * scale))
      let left := max 0 ((resized_width - target_width) / 2)
      let top := max 0 ((resized_height - target_height) / 2)
      .ok {
        scale := scale
        resized_size := (resized_width, resized_height)
        crop_box := (left, top, left + target_width, top + target_height) }

/-- The resized image covers the target, and the box is a part of it of the target's size. -/
structure CoverCropPlan.Covers (plan : CoverCropPlan K) (target_width target_height : ℤ) :
    Prop where
  wide : target_width ≤ plan.resized_size.1
  high : target_height ≤ plan.resized_size.2
  left : 0 ≤ plan.crop_box.1
  top : 0 ≤ plan.crop_box.2.1
  right : plan.crop_box.2.2.1 ≤ plan.resized_size.1
  bottom : plan.crop_box.2.2.2 ≤ plan.resized_size.2
  width : plan.crop_box.2.2.1 - plan.crop_box.1 = target_width
  height : plan.crop_box.2.2.2 - plan.crop_box.2.1 = target_height

/-! ## 3. The spatial shape -/

def MINIMAX_H3_BASE_SHORT_EDGE : ℕ := 768

def MINIMAX_H3_MAX_PIXELS : ℕ := MINIMAX_H3_BASE_SHORT_EDGE * 1344

def MINIMAX_H3_SHAPE_POLICY_VERSION : String := "adapt_shape_v1"

def MINIMAX_H3_CANVAS_MULTIPLE : ℤ := 32

def nearest_multiple (value : K) (multiple : ℤ) : ℤ :=
  max multiple (round_even (value / multiple) * multiple)

inductive SizeMode
  | area
  | short_edge
  deriving DecidableEq

structure SpatialShape where
  geometry : String
  shape_policy_version : String
  base_short_edge : ℤ
  effective_short_edge : ℤ
  size_mode : SizeMode
  max_pixels : ℕ
  multiple : ℤ
  rounding : String
  width : ℤ
  height : ℤ
  deriving DecidableEq

section

variable (sqrt : K → K) (text : K → String)

def validate_base_short_edge (value : K) : Except String ℤ :=
  let short_edge := int value
  if (short_edge : K) ≠ value ∨ short_edge ≤ 0 then
    .error ("target.short_edge must be a positive integer, got " ++ text value)
  else .ok short_edge

/-- The nominal sides: the edge on the short one. -/
def nominal_sides (ratio edge : K) : K × K :=
  if 1 ≤ ratio then (edge * ratio, edge) else (edge, edge / ratio)

/-- The area cap. -/
def capped_sides (max_pixels : ℕ) (nominal : K × K) : SizeMode × K × K :=
  let nominal_area := nominal.1 * nominal.2
  if max_pixels < nominal_area then
    let scale := sqrt (max_pixels / nominal_area)
    (.area, nominal.1 * scale, nominal.2 * scale)
  else (.short_edge, nominal)

def shape_of_sides (max_pixels : ℕ) (base_short_edge : ℤ) (sides : SizeMode × K × K) :
    SpatialShape :=
  let resolved_width := nearest_multiple sides.2.1 MINIMAX_H3_CANVAS_MULTIPLE
  let resolved_height := nearest_multiple sides.2.2 MINIMAX_H3_CANVAS_MULTIPLE
  { geometry := "resolved_v2"
    shape_policy_version := MINIMAX_H3_SHAPE_POLICY_VERSION
    base_short_edge := base_short_edge
    effective_short_edge := min resolved_width resolved_height
    size_mode := sides.1
    max_pixels := max_pixels
    multiple := MINIMAX_H3_CANVAS_MULTIPLE
    rounding := "nearest"
    width := resolved_width
    height := resolved_height }

/-- `minimax_h3_resolve_spatial_shape` with an area budget; a side is nothing where it is not a
finite number. -/
def resolve_spatial_shape (max_pixels : ℕ) (width height : Option K) (base_short_edge : K) :
    Except String SpatialShape :=
  match validate_base_short_edge text base_short_edge, width, height with
  | .error message, _, _ => .error message
  | .ok edge, some source_width, some source_height =>
    let ratio := source_width / source_height
    if source_width ≤ 0 ∨ source_height ≤ 0 then
      .error "shape width and height must be positive finite numbers"
    else if ratio ≤ 0 then .error "shape ratio must be a positive finite number"
    else if ¬ (1 / 4 ≤ ratio ∧ ratio ≤ 4) then
      .error ("adapt_shape_v1 ratio must be within the inclusive range "
        ++ "1:4 to 4:1, got " ++ text source_width ++ ":" ++ text source_height)
    else .ok (shape_of_sides max_pixels edge (capped_sides sqrt max_pixels (nominal_sides ratio edge)))
  | .ok _, _, _ => .error "shape width and height must be positive finite numbers"

def minimax_h3_resolve_spatial_shape (width height : Option K) (base_short_edge : K) :
    Except String SpatialShape :=
  resolve_spatial_shape sqrt text MINIMAX_H3_MAX_PIXELS width height base_short_edge

end

/-! ## 4. The crop -/

theorem cover_crop_plan_covers {source_width source_height target_width target_height : ℤ}
    {allow_upscale : Bool} (hw : 0 < source_width) (hh : 0 < source_height)
    (hallow : allow_upscale = true ∨
      cover_scale K source_width source_height target_width target_height ≤ 1) :
    ∃ plan : CoverCropPlan K, cover_crop_plan K source_width source_height target_width
        target_height allow_upscale = .ok plan ∧ plan.Covers target_width target_height := by
  have hsource : ¬ (source_width ≤ 0 ∨ source_height ≤ 0) := by omega
  have hscale : ¬ (1 < cover_scale K source_width source_height target_width target_height ∧
      allow_upscale = false) := by
    rintro ⟨hup, hno⟩
    rcases hallow with hyes | hle
    · rw [hyes] at hno
      cases hno
    · exact absurd hup hle.not_gt
  unfold cover_crop_plan
  rw [if_neg hsource, if_neg hscale]
  refine ⟨_, rfl, ?_⟩
  constructor <;> dsimp only <;> omega

/-! ## 5. The shape -/

theorem nearest_multiple_grid (x : K) : 0 < nearest_multiple x MINIMAX_H3_CANVAS_MULTIPLE ∧
      MINIMAX_H3_CANVAS_MULTIPLE ∣ nearest_multiple x MINIMAX_H3_CANVAS_MULTIPLE := by
  unfold nearest_multiple
  constructor
  · exact lt_max_of_lt_left (by decide)
  · rcases max_choice MINIMAX_H3_CANVAS_MULTIPLE
      (round_even (x / MINIMAX_H3_CANVAS_MULTIPLE) * MINIMAX_H3_CANVAS_MULTIPLE) with h | h
    · rw [h]
    · rw [h]
      exact dvd_mul_left _ _

/-- The shape of the sides the other way around. -/
def SpatialShape.swap (shape : SpatialShape) : SpatialShape :=
  { shape with width := shape.height, height := shape.width }

omit [FloorRing K] in
theorem capped_sides_swap (sqrt : K → K) (max_pixels : ℕ) (a b : K) :
    capped_sides sqrt max_pixels (b, a) = ((capped_sides sqrt max_pixels (a, b)).1,
      (capped_sides sqrt max_pixels (a, b)).2.swap) := by
  unfold capped_sides
  dsimp only
  rw [mul_comm b a]
  split <;> rfl

theorem shape_of_sides_swap (max_pixels : ℕ) (edge : ℤ) (mode : SizeMode) (sides : K × K) :
    shape_of_sides max_pixels edge (mode, sides.swap)
      = (shape_of_sides max_pixels edge (mode, sides)).swap := by
  unfold shape_of_sides SpatialShape.swap
  dsimp only [Prod.fst_swap, Prod.snd_swap]
  rw [min_comm]

variable [IsStrictOrderedRing K]

omit [FloorRing K] in
theorem nominal_sides_inv {ratio : K} (h : 0 < ratio) (edge : K) :
    nominal_sides ratio⁻¹ edge = (nominal_sides ratio edge).swap := by
  have hone : 1 ≤ ratio⁻¹ ↔ ratio ≤ 1 := one_le_inv₀ h
  unfold nominal_sides
  rcases lt_trichotomy ratio 1 with hlt | heq | hgt
  · rw [if_pos (hone.mpr hlt.le), if_neg hlt.not_ge, Prod.swap_prod_mk, div_eq_mul_inv]
  · rw [heq]
    simp
  · rw [if_neg (fun hle => hgt.not_ge (hone.mp hle)), if_pos hgt.le, Prod.swap_prod_mk,
      div_inv_eq_mul]

section

variable {sqrt : K → K} {text : K → String} {max_pixels : ℕ} {width height : Option K} {base : K}
  {shape : SpatialShape}

/-- What is accepted, and what comes of it. -/
theorem resolve_eq_ok : resolve_spatial_shape sqrt text max_pixels width height base = .ok shape ↔
      ∃ edge w h, validate_base_short_edge text base = .ok edge ∧ width = some w ∧
        height = some h ∧ 0 < w ∧ 0 < h ∧ 1 / 4 ≤ w / h ∧ w / h ≤ 4 ∧ shape_of_sides max_pixels edge
          (capped_sides sqrt max_pixels (nominal_sides (w / h) edge)) = shape := by
  unfold resolve_spatial_shape
  constructor
  · intro hok
    cases hedge : validate_base_short_edge text base with
    | error message =>
      rw [hedge] at hok
      cases hok
    | ok edge =>
      rw [hedge] at hok
      cases width with
      | none => cases hok
      | some w =>
        cases height with
        | none => cases hok
        | some h =>
          dsimp only at hok
          split at hok
          · cases hok
          · next hpos =>
            rw [not_or, not_le, not_le] at hpos
            split at hok
            · cases hok
            · split at hok
              · cases hok
              · next hratio =>
                rw [not_not] at hratio
                exact ⟨edge, w, h, rfl, rfl, rfl, hpos.1, hpos.2, hratio.1, hratio.2,
                  Except.ok.inj hok⟩
  · rintro ⟨edge, w, h, hedge, rfl, rfl, hw, hh, hlow, hhigh, rfl⟩
    rw [hedge]
    dsimp only
    rw [if_neg (not_or.mpr ⟨hw.not_ge, hh.not_ge⟩), if_neg (div_pos hw hh).not_ge,
      if_neg (not_not.mpr ⟨hlow, hhigh⟩)]

theorem resolve_grid
    (hok : resolve_spatial_shape sqrt text max_pixels width height base = .ok shape) :
    (0 < shape.width ∧ MINIMAX_H3_CANVAS_MULTIPLE ∣ shape.width) ∧
      0 < shape.height ∧ MINIMAX_H3_CANVAS_MULTIPLE ∣ shape.height := by
  obtain ⟨edge, w, h, _, _, _, _, _, _, _, rfl⟩ := resolve_eq_ok.mp hok
  exact ⟨nearest_multiple_grid _, nearest_multiple_grid _⟩

theorem resolve_swap
    (hok : resolve_spatial_shape sqrt text max_pixels width height base = .ok shape) :
    resolve_spatial_shape sqrt text max_pixels height width base = .ok shape.swap := by
  obtain ⟨edge, w, h, hedge, hwidth, hheight, hw, hh, hlow, hhigh, rfl⟩ := resolve_eq_ok.mp hok
  have hratio := div_pos hw hh
  have hinv : h / w = (w / h)⁻¹ := (inv_div w h).symm
  refine resolve_eq_ok.mpr ⟨edge, h, w, hedge, hheight, hwidth, hh, hw, ?_, ?_, ?_⟩
  · rw [hinv, one_div]
    exact inv_anti₀ hratio hhigh
  · rw [hinv]
    exact inv_le_of_inv_le₀ (by norm_num) (by rwa [← one_div])
  · rw [hinv, nominal_sides_inv hratio, ← shape_of_sides_swap]
    exact congrArg _ (capped_sides_swap sqrt max_pixels _ _)

end

/-- **The crop covers, and the shape stands on the grid and turns with its ratio.** -/
theorem canvas_in_bounds (sqrt : K → K) (text : K → String) :
    (∀ source_width source_height target_width target_height : ℤ,
      0 < source_width → 0 < source_height → 0 < target_width → 0 < target_height →
      ∀ allow_upscale, (allow_upscale = true ∨
        cover_scale K source_width source_height target_width target_height ≤ 1) →
      ∃ plan : CoverCropPlan K, cover_crop_plan K source_width source_height target_width
        target_height allow_upscale = .ok plan ∧ plan.Covers target_width target_height) ∧
    ∀ (max_pixels : ℕ) (width height : Option K) (base : K) (shape : SpatialShape),
      resolve_spatial_shape sqrt text max_pixels width height base = .ok shape →
      ((0 < shape.width ∧ MINIMAX_H3_CANVAS_MULTIPLE ∣ shape.width) ∧
        0 < shape.height ∧ MINIMAX_H3_CANVAS_MULTIPLE ∣ shape.height) ∧
      resolve_spatial_shape sqrt text max_pixels height width base = .ok shape.swap :=
  ⟨fun _ _ _ _ hw hh _ _ _ hallow => cover_crop_plan_covers hw hh hallow,
    fun _ _ _ _ _ hok => ⟨resolve_grid hok, resolve_swap hok⟩⟩

/-- The root of the fractions that have one. -/
def root (q : ℚ) : ℚ := (Nat.sqrt q.num.toNat : ℚ) / Nat.sqrt q.den

/-- The area cap shrinks 2100 by 768 to 1680 by 614.4, and the sides are rounded to 1664 and 608. -/
theorem canvas_in_bounds_capped :
    (∃ plan : CoverCropPlan ℚ, cover_crop_plan ℚ 7 3 2 2 false = .ok plan ∧ plan.Covers 2 2) ∧
      ∃ shape : SpatialShape, shape.size_mode = .area ∧ shape.width = 1664 ∧ shape.height = 608 ∧
        resolve_spatial_shape root (fun _ : ℚ => "") MINIMAX_H3_MAX_PIXELS (some 64) (some 175) 768
          = .ok shape.swap := by
  obtain ⟨hcover, hshape⟩ := canvas_in_bounds (K := ℚ) root (fun _ => "")
  refine ⟨hcover 7 3 2 2 (by decide) (by decide) (by decide) (by decide) false
    (Or.inr (by decide +kernel)), ?_⟩
  refine ⟨shape_of_sides MINIMAX_H3_MAX_PIXELS 768 (.area, (1680 : ℚ), 3072 / 5), rfl,
    by decide +kernel, by decide +kernel, ?_⟩
  exact (hshape _ (some 175) (some 64) 768 _ (by decide +kernel)).2

end LightningH3.CanvasShape
