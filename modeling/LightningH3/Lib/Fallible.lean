/-
Rules for pure computations that may fail: what a successful sequence, map or fold says
about its parts, and when a map or a fold succeeds.
-/
import Mathlib.Data.List.Forall2

set_option autoImplicit false

namespace Fallible

open List

variable {ε α β σ : Type}

variable {f : α → Except ε β}

theorem bind_eq_ok {x : Except ε α} {b : β} : (x >>= f) = .ok b ↔ ∃ a, x = .ok a ∧ f a = .ok b := by
  cases x with
  | error e =>
    constructor
    · intro h
      cases h
    · rintro ⟨a, ha, _⟩
      cases ha
  | ok a =>
    constructor
    · intro h
      exact ⟨a, rfl, h⟩
    · rintro ⟨a', ha, h⟩
      cases ha
      exact h

@[simp] theorem ok_bind (a : α) (f : α → Except ε β) : ((.ok a : Except ε α) >>= f) = f a := rfl

@[simp] theorem error_bind (e : ε) (f : α → Except ε β) :
    ((.error e : Except ε α) >>= f) = .error e := rfl

theorem map_eq_ok {x : Except ε α} {f : α → β} {b : β} (h : x.map f = .ok b) :
    ∃ a, x = .ok a ∧ f a = b := by
  cases x with
  | error e => cases h
  | ok a =>
    cases h
    exact ⟨a, rfl, rfl⟩

variable {xs : List α} {ys : List β}

theorem mapM_eq_ok : xs.mapM f = .ok ys ↔ List.Forall₂ (fun x y => f x = .ok y) xs ys := by
  induction xs generalizing ys with
  | nil =>
    rw [forall₂_nil_left_iff]
    constructor
    · intro h
      cases h
      rfl
    · rintro rfl
      rfl
  | cons x xs ih =>
    rw [mapM_cons, bind_eq_ok]
    constructor
    · rintro ⟨y, hy, h⟩
      obtain ⟨zs, hzs, h'⟩ := bind_eq_ok.mp h
      cases h'
      exact List.Forall₂.cons hy (ih.mp hzs)
    · intro h
      cases h with
      | cons hy hrest => exact ⟨_, hy, bind_eq_ok.mpr ⟨_, ih.mpr hrest, rfl⟩⟩

theorem exists_of_mem_mapM {y : β} (h : xs.mapM f = .ok ys) (hy : y ∈ ys) :
    ∃ x ∈ xs, f x = .ok y := by
  have hall := mapM_eq_ok.mp h
  clear h
  induction hall with
  | nil => simp at hy
  | @cons x y' xs ys hxy _ ih =>
    rcases mem_cons.mp hy with rfl | hy
    · exact ⟨x, by simp, hxy⟩
    · obtain ⟨x', hx', hf⟩ := ih hy
      exact ⟨x', mem_cons_of_mem _ hx', hf⟩

theorem map_of_mapM {γ : Type} {g : β → γ} {g' : α → γ} (h : xs.mapM f = .ok ys)
    (hg : ∀ x y, f x = .ok y → g y = g' x) : ys.map g = xs.map g' := by
  have hall := mapM_eq_ok.mp h
  clear h
  induction hall with
  | nil => rfl
  | cons hxy _ ih => rw [map_cons, map_cons, hg _ _ hxy, ih]

theorem mapM_of_ok {g : α → β} (h : ∀ x ∈ xs, f x = .ok (g x)) : xs.mapM f = .ok (xs.map g) := by
  rw [mapM_eq_ok, forall₂_map_right_iff, forall₂_same]
  exact h

theorem mapM_range_error {f : ℕ → Except ε β} {e : ε} {n : ℕ} (hn : 0 < n)
    (h : f 0 = .error e) : (List.range n).mapM f = .error e := by
  obtain ⟨k, rfl⟩ := Nat.exists_eq_add_one.mpr hn
  rw [range_succ_eq_map, mapM_cons, h]
  rfl

theorem mapM_eq_some {f : α → Option β} :
    xs.mapM f = some ys ↔ List.Forall₂ (fun x y => f x = some y) xs ys := by
  induction xs generalizing ys with
  | nil =>
    rw [forall₂_nil_left_iff]
    constructor
    · intro h
      cases h
      rfl
    · rintro rfl
      rfl
  | cons x xs ih =>
    rw [mapM_cons, Option.bind_eq_bind, Option.bind_eq_some_iff]
    constructor
    · rintro ⟨y, hy, h⟩
      rw [Option.bind_eq_bind, Option.bind_eq_some_iff] at h
      obtain ⟨zs, hzs, h'⟩ := h
      cases h'
      exact List.Forall₂.cons hy (ih.mp hzs)
    · intro h
      cases h with
      | cons hy hrest =>
        refine ⟨_, hy, ?_⟩
        rw [Option.bind_eq_bind, Option.bind_eq_some_iff]
        exact ⟨_, ih.mpr hrest, rfl⟩

theorem mapM_isSome {f : α → Option β} (h : ∀ x ∈ xs, (f x).isSome) :
    ∃ ys, xs.mapM f = some ys := by
  induction xs with
  | nil => exact ⟨[], rfl⟩
  | cons x xs ih =>
    obtain ⟨y, hy⟩ := Option.isSome_iff_exists.mp (h x (by simp))
    obtain ⟨ys, hys⟩ := ih (fun z hz => h z (mem_cons_of_mem _ hz))
    exact ⟨y :: ys, mapM_eq_some.mpr (List.Forall₂.cons hy (mapM_eq_some.mp hys))⟩

variable {f : σ → α → Except ε σ}

/-- **The fold rule.** An invariant over the processed front, kept by every successful
step, holds of the result of a successful fold. -/
theorem foldlM_invariant {I : List α → σ → Prop} : ∀ (xs front : List α) {s t : σ}, I front s →
      (∀ front x s t, I front s → f s x = .ok t → I (front ++ [x]) t) →
      xs.foldlM f s = .ok t → I (front ++ xs) t := by
  intro xs
  induction xs with
  | nil =>
    intro front s t hs _ h
    cases h
    rwa [append_nil]
  | cons x xs ih =>
    intro front s t hs hstep h
    obtain ⟨u, hu, h'⟩ := bind_eq_ok.mp h
    have hlist : front ++ x :: xs = (front ++ [x]) ++ xs := by simp
    rw [hlist]
    exact ih (front ++ [x]) (hstep front x s u hs hu) hstep h'

/-- **The total fold rule.** When the invariant lets every step succeed, the fold does. -/
theorem foldlM_total {I : List α → σ → Prop} : ∀ (xs front : List α) {s : σ}, I front s →
      (∀ front' x back s, front ++ xs = front' ++ x :: back → I front' s →
        ∃ t, f s x = .ok t ∧ I (front' ++ [x]) t) →
      ∃ t, xs.foldlM f s = .ok t ∧ I (front ++ xs) t := by
  intro xs
  induction xs with
  | nil =>
    intro front s hs _
    exact ⟨s, rfl, by rwa [append_nil]⟩
  | cons x xs ih =>
    intro front s hs hstep
    obtain ⟨u, hu, hI⟩ := hstep front x xs s rfl hs
    have hlist : front ++ x :: xs = (front ++ [x]) ++ xs := by simp
    obtain ⟨t, ht, hIt⟩ := ih (front ++ [x]) hI
      (fun front' y back s' heq => hstep front' y back s' (by rw [hlist]; exact heq))
    refine ⟨t, ?_, by rw [hlist]; exact hIt⟩
    rw [foldlM_cons, hu]
    exact ht

/-- The total fold rule over the numbers below `n`, each handed to the step through `g`. -/
theorem foldlM_range_total {g : ℕ → α} {I : ℕ → σ → Prop} {s : σ} (n : ℕ) (h0 : I 0 s)
    (hstep : ∀ j < n, ∀ s, I j s → ∃ t, f s (g j) = .ok t ∧ I (j + 1) t) :
    ∃ t, ((List.range n).map g).foldlM f s = .ok t ∧ I n t := by
  induction n with
  | zero => exact ⟨s, rfl, h0⟩
  | succ n ih =>
    obtain ⟨t, ht, hI⟩ := ih (fun j hj => hstep j (by omega))
    obtain ⟨u, hu, hI'⟩ := hstep n (by omega) t hI
    refine ⟨u, ?_, hI'⟩
    rw [range_succ, map_append, foldlM_append, ht]
    show ([n].map g).foldlM f t = _
    rw [map_singleton, foldlM_cons, hu]
    rfl

end Fallible
