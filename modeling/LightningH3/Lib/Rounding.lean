/-
Rounding of exact rationals to a binary floating-point format, ties to even, with an
unbounded exponent range upwards (overflow is for the user of the format to decide).

A result is an integer multiple of a power of two; which power depends on the magnitude
of the argument, down to the exponent of the subnormals. Rounding is monotone: within one
binade because rounding to integers is, and across binades because the power of two
between them is a multiple of both units.
-/
import Mathlib.Data.Int.Log
import Mathlib.Data.Rat.Floor
import Mathlib.Algebra.Order.Field.Power
import Mathlib.Tactic.Positivity

set_option autoImplicit false

namespace Rounding

/-! ## To an integer -/

/-- Round half to even. -/
def nearest_even (q : ℚ) : ℤ :=
  let f := ⌊q⌋
  if q - f < 1 / 2 then f
  else if 1 / 2 < q - f then f + 1
  else if f % 2 = 0 then f
  else f + 1

theorem nearest_even_cases (q : ℚ) :
    (nearest_even q = ⌊q⌋ ∧ q - ⌊q⌋ ≤ 1 / 2) ∨ (nearest_even q = ⌊q⌋ + 1 ∧ 1 / 2 ≤ q - ⌊q⌋) := by
  unfold nearest_even
  simp only
  split
  · next h => exact Or.inl ⟨rfl, h.le⟩
  · next h =>
    rw [not_lt] at h
    split
    · next h' => exact Or.inr ⟨rfl, h⟩
    · next h' =>
      rw [not_lt] at h'
      split
      · exact Or.inl ⟨rfl, h'⟩
      · exact Or.inr ⟨rfl, h⟩

@[simp] theorem nearest_even_intCast (n : ℤ) : nearest_even (n : ℚ) = n := by
  unfold nearest_even
  simp

theorem floor_le_nearest_even (q : ℚ) : ⌊q⌋ ≤ nearest_even q := by
  rcases nearest_even_cases q with ⟨h, _⟩ | ⟨h, _⟩ <;> omega

theorem nearest_even_le_floor_add_one (q : ℚ) : nearest_even q ≤ ⌊q⌋ + 1 := by
  rcases nearest_even_cases q with ⟨h, _⟩ | ⟨h, _⟩ <;> omega

variable {q : ℚ}

theorem nearest_even_of_lt (h : q - ⌊q⌋ < 1 / 2) : nearest_even q = ⌊q⌋ := by
  unfold nearest_even
  simp only [h, if_true]

theorem nearest_even_of_gt (h : 1 / 2 < q - ⌊q⌋) : nearest_even q = ⌊q⌋ + 1 := by
  unfold nearest_even
  simp only [not_lt.mpr h.le, h, if_true, if_false]

theorem nearest_even_neg (q : ℚ) : nearest_even (-q) = -nearest_even q := by
  have hfloor : ⌊-q⌋ = -⌈q⌉ := Int.floor_neg
  have hlow := Int.floor_le q
  have hceil := Int.le_ceil q
  rcases eq_or_ne (⌈q⌉ : ℚ) q with hq | hq
  · rw [← hq, ← Int.cast_neg, nearest_even_intCast, nearest_even_intCast]
  · have hstep : ⌈q⌉ = ⌊q⌋ + 1 := by
      have hle := Int.ceil_le_floor_add_one q
      have hne : ⌈q⌉ ≠ ⌊q⌋ := fun heq => hq (le_antisymm (by rw [heq]; exact hlow) hceil)
      have := Int.floor_le_ceil q
      omega
    unfold nearest_even
    rw [hfloor, hstep]
    push_cast
    split_ifs <;> first | omega | (exfalso; linarith)

theorem nearest_even_mono {r : ℚ} (h : q ≤ r) : nearest_even q ≤ nearest_even r := by
  have hf : ⌊q⌋ ≤ ⌊r⌋ := Int.floor_mono h
  have hq := nearest_even_le_floor_add_one q
  have hr := floor_le_nearest_even r
  rcases eq_or_lt_of_le hf with heq | hlt
  · -- the same floor: the fractional parts are ordered
    have hfrac : q - ⌊q⌋ ≤ r - ⌊r⌋ := by rw [heq]; linarith
    rcases lt_trichotomy (q - ⌊q⌋) (1 / 2) with hlow | htie | hhigh
    · rw [nearest_even_of_lt hlow]
      omega
    · rcases eq_or_lt_of_le hfrac with hsame | hmore
      · have : q = r := by rw [heq] at hsame; linarith
        rw [this]
      · rw [nearest_even_of_gt (q := r) (by linarith)]
        omega
    · rw [nearest_even_of_gt (q := r) (by linarith)]
      omega
  · omega

theorem nearest_even_le_of_le {n : ℤ} (h : q ≤ n) : nearest_even q ≤ n := by
  have := nearest_even_mono h
  rwa [nearest_even_intCast] at this

theorem le_nearest_even_of_le {n : ℤ} (h : (n : ℚ) ≤ q) : n ≤ nearest_even q := by
  have := nearest_even_mono h
  rwa [nearest_even_intCast] at this

theorem nearest_even_near (q : ℚ) : nearest_even q ≤ q + 1 / 2 ∧ q ≤ nearest_even q + 1 / 2 := by
  have hle := Int.floor_le q
  have hlt := Int.lt_floor_add_one q
  rcases nearest_even_cases q with ⟨h, hfrac⟩ | ⟨h, hfrac⟩
  · rw [h]
    constructor <;> linarith
  · rw [h]
    push_cast
    constructor <;> linarith

/-- A step that is an integer moves integers only, if at all; another step is not at a bound. -/
theorem nearest_even_add {x d : ℚ} (h : ∀ m : ℤ, d = m → ∃ k : ℤ, x = k) :
    d - 1 < nearest_even (x + d) - nearest_even x ∧
      (nearest_even (x + d) - nearest_even x : ℚ) < d + 1 := by
  by_cases hd : ∃ m : ℤ, d = m
  · -- both points are integers
    obtain ⟨m, rfl⟩ := hd
    obtain ⟨k, rfl⟩ := h m rfl
    have hsum : (k : ℚ) + m = ((k + m : ℤ) : ℚ) := by
      push_cast
      rfl
    rw [hsum, nearest_even_intCast, nearest_even_intCast]
    constructor <;> linarith
  · -- the bounds are not integers
    have hx := nearest_even_near x
    have hy := nearest_even_near (x + d)
    have hlow : d - 1 ≠ nearest_even (x + d) - nearest_even x := by
      intro heq
      refine hd ⟨nearest_even (x + d) - nearest_even x + 1, ?_⟩
      push_cast
      linarith
    have hhigh : (nearest_even (x + d) - nearest_even x : ℚ) ≠ d + 1 := by
      intro heq
      refine hd ⟨nearest_even (x + d) - nearest_even x - 1, ?_⟩
      push_cast
      linarith
    exact ⟨lt_of_le_of_ne (by linarith) hlow, lt_of_le_of_ne (by linarith) hhigh⟩

/-! ## To a format -/

/-- A format: the number of significand bits and the exponent of the smallest positive
number. -/
structure Format where
  precision : ℕ
  emin : ℤ
  precision_pos : 0 < precision

def binary32 : Format := ⟨24, -149, by decide⟩

def binary64 : Format := ⟨53, -1074, by decide⟩

/-- The exponent of the unit in the last place at the magnitude of `q`. -/
def Format.exponent (fmt : Format) (q : ℚ) : ℤ :=
  max (Int.log 2 |q| + 1 - fmt.precision) fmt.emin

/-- `q` rounded to the format. -/
def Format.round (fmt : Format) (q : ℚ) : ℚ :=
  nearest_even (q / 2 ^ fmt.exponent q) * 2 ^ fmt.exponent q

section

variable {fmt : Format}

theorem two_zpow_pos (e : ℤ) : (0 : ℚ) < 2 ^ e := zpow_pos (by norm_num) e

@[simp] theorem round_zero : fmt.round 0 = 0 := by
  unfold Format.round
  rw [zero_div]
  have : nearest_even 0 = 0 := nearest_even_intCast 0
  rw [this]
  simp

variable {q : ℚ}

/-- A multiple of the unit bounds the rounding from above if it bounds the argument. -/
theorem round_le_of_le {n : ℤ} (h : q ≤ n * 2 ^ fmt.exponent q) :
    fmt.round q ≤ n * 2 ^ fmt.exponent q := by
  have hp := two_zpow_pos (fmt.exponent q)
  have hle : nearest_even (q / 2 ^ fmt.exponent q) ≤ n :=
    nearest_even_le_of_le ((div_le_iff₀ hp).mpr h)
  exact mul_le_mul_of_nonneg_right (by exact_mod_cast hle) hp.le

theorem le_round_of_le {n : ℤ} (h : n * 2 ^ fmt.exponent q ≤ q) :
    n * 2 ^ fmt.exponent q ≤ fmt.round q := by
  have hp := two_zpow_pos (fmt.exponent q)
  have hle : n ≤ nearest_even (q / 2 ^ fmt.exponent q) :=
    le_nearest_even_of_le ((le_div_iff₀ hp).mpr h)
  exact mul_le_mul_of_nonneg_right (by exact_mod_cast hle) hp.le

theorem round_nonneg (h : 0 ≤ q) : 0 ≤ fmt.round q := by
  have h0 : ((0 : ℤ) : ℚ) * 2 ^ fmt.exponent q ≤ fmt.round q := le_round_of_le (by simpa using h)
  simpa using h0

theorem round_nonpos (h : q ≤ 0) : fmt.round q ≤ 0 := by
  have h0 : fmt.round q ≤ ((0 : ℤ) : ℚ) * 2 ^ fmt.exponent q := round_le_of_le (by simpa using h)
  simpa using h0

theorem zpow_eq_mul {e k : ℤ} (h : e ≤ k) : ∃ n : ℤ, (2 : ℚ) ^ k = n * 2 ^ e := by
  refine ⟨2 ^ (k - e).toNat, ?_⟩
  push_cast
  rw [← zpow_natCast, ← zpow_add₀ (by norm_num)]
  congr 1
  omega

/-- Two magnitudes with different units are separated by the larger one's binade, whose
lower end is a multiple of both units. -/
theorem exponent_separates {a b : ℚ} (ha : 0 < a) (he : fmt.exponent a < fmt.exponent b) :
    a ≤ 2 ^ Int.log 2 |b| ∧ fmt.exponent a ≤ Int.log 2 |b| ∧ fmt.exponent b ≤ Int.log 2 |b| := by
  have hp := fmt.precision_pos
  unfold Format.exponent at he ⊢
  have hlog : Int.log 2 |a| < Int.log 2 |b| := by
    omega
  refine ⟨?_, ?_, ?_⟩
  · rw [abs_of_pos ha] at hlog
    have h1 := Int.lt_zpow_succ_log_self (b := 2) (by norm_num) a
    have h2 : ((2 : ℕ) : ℚ) ^ (Int.log 2 a + 1) ≤ ((2 : ℕ) : ℚ) ^ Int.log 2 |b| :=
      zpow_le_zpow_right₀ (by norm_num) (by omega)
    have h3 := h1.le.trans h2
    simpa using h3
  · omega
  · omega

variable {r : ℚ}

theorem round_mono_of_pos (hq : 0 < q) (h : q ≤ r) : fmt.round q ≤ fmt.round r := by
  have hr : 0 < r := hq.trans_le h
  have hlog : Int.log 2 |q| ≤ Int.log 2 |r| := by
    rw [abs_of_pos hq, abs_of_pos hr]
    exact Int.log_mono_right hq h
  have hexp : fmt.exponent q ≤ fmt.exponent r := by
    exact max_le_max (by omega) (le_refl _)
  rcases eq_or_lt_of_le hexp with heq | hlt
  · unfold Format.round
    rw [heq]
    have hp := two_zpow_pos (fmt.exponent r)
    have hle := nearest_even_mono (div_le_div_of_nonneg_right h hp.le)
    exact mul_le_mul_of_nonneg_right (by exact_mod_cast hle) hp.le
  · obtain ⟨hbin, he₁, he₂⟩ := exponent_separates hq hlt
    have hlow : (2 : ℚ) ^ Int.log 2 |r| ≤ r := by
      have := Int.zpow_log_le_self (b := 2) (by norm_num) hr
      rw [abs_of_pos hr]
      simpa using this
    obtain ⟨m, hm⟩ := zpow_eq_mul he₁
    obtain ⟨n, hn⟩ := zpow_eq_mul he₂
    calc fmt.round q ≤ m * 2 ^ fmt.exponent q := round_le_of_le (hm ▸ hbin)
      _ = 2 ^ Int.log 2 |r| := hm.symm
      _ = n * 2 ^ fmt.exponent r := hn
      _ ≤ fmt.round r := le_round_of_le (hn ▸ hlow)

theorem round_neg (fmt : Format) (q : ℚ) : fmt.round (-q) = -fmt.round q := by
  unfold Format.round Format.exponent
  rw [abs_neg, neg_div, nearest_even_neg, Int.cast_neg, neg_mul]

/-- **Rounding is monotone.** -/
theorem round_mono (h : q ≤ r) : fmt.round q ≤ fmt.round r := by
  rcases lt_trichotomy q 0 with hq | hq | hq
  · rcases lt_or_ge r 0 with hr | hr
    · have hmono : fmt.round (-r) ≤ fmt.round (-q) :=
        round_mono_of_pos (neg_pos.mpr hr) (neg_le_neg h)
      rw [round_neg, round_neg] at hmono
      exact neg_le_neg_iff.mp hmono
    · exact (round_nonpos hq.le).trans (round_nonneg hr)
  · rw [hq] at h ⊢
    rw [round_zero]
    exact round_nonneg h
  · exact round_mono_of_pos hq h

end

end Rounding
