/-
Prefix maps: what a radix tree with pages is for.

For every namespace the map holds a set of annotated sequences, units paired with the values stored
for them. It is closed under prefixes of whole pages, and the units determine the values. A lookup
is the longest held prefix of a sequence of units; an insertion extends the longest held prefix by
new values for the rest.
-/
import Mathlib.Data.List.Basic

set_option autoImplicit false

variable {ν α β : Type}

/-! ## Prefixes -/

namespace List

/-- A prefix of a concatenation ends in the first part or runs into the second. -/
theorem prefix_append_cases {xs ys zs : List α} (h : xs <+: ys ++ zs) :
    xs <+: ys ∨ ∃ ws, xs = ys ++ ws ∧ ws <+: zs := by
  by_cases hle : xs.length ≤ ys.length
  · exact .inl (prefix_of_prefix_length_le h (prefix_append ys zs) hle)
  · have hpre : ys <+: xs := prefix_of_prefix_length_le (prefix_append ys zs) h (by omega)
    obtain ⟨ws, rfl⟩ := hpre
    exact .inr ⟨ws, rfl, (prefix_append_right_inj ys).mp h⟩

end List

/-! ## Prefix maps -/

/-- A map from sequences of units to values, on whole pages of `p` units. -/
structure PrefixMap (ν α β : Type) (p : ℕ) where
  Held : ν → List (α × β) → Prop
  nil : ∀ n, Held n []
  aligned : ∀ n es, Held n es → p ∣ es.length
  closed : ∀ n es es', Held n es → es' <+: es → p ∣ es'.length → Held n es'
  functional : ∀ n es es', Held n es → Held n es' → es.map Prod.fst <+: es'.map Prod.fst → es <+: es'

namespace PrefixMap

variable {p : ℕ}

/-- `es` is the longest held prefix of `us`. -/
structure Longest (M : PrefixMap ν α β p) (n : ν) (us : List α) (es : List (α × β)) : Prop where
  held : M.Held n es
  follows : es.map Prod.fst <+: us
  greatest : ∀ es', M.Held n es' → es'.map Prod.fst <+: us → es'.length ≤ es.length

variable {M : PrefixMap ν α β p} {n m : ν} {us ws : List α} {es es' : List (α × β)}

/-- Of two held sequences along one sequence of units the shorter is a prefix of the longer. -/
theorem prefix_of_follows (h : M.Held n es) (h' : M.Held n es') (hu : es.map Prod.fst <+: us)
    (hu' : es'.map Prod.fst <+: us) (hle : es.length ≤ es'.length) : es <+: es' := by
  apply M.functional n es es' h h'
  exact List.prefix_of_prefix_length_le hu hu' (by simpa using hle)

theorem Longest.unique (h : M.Longest n us es) (h' : M.Longest n us es') : es = es' := by
  have hle := h.greatest es' h'.held h'.follows
  have hle' := h'.greatest es h.held h.follows
  exact (prefix_of_follows h.held h'.held h.follows h'.follows hle').eq_of_length (by omega)

/-! ## Insertion -/

/-- What an insertion starts from: the longest held prefix of `us`, and new values for the rest. -/
structure Insertion (M : PrefixMap ν α β p) (n : ν) (us : List α) (old rest : List (α × β)) :
    Prop where
  longest : M.Longest n us old
  spelled : (old ++ rest).map Prod.fst = us
  whole : p ∣ us.length

namespace Insertion

variable {old rest : List (α × β)} (h : M.Insertion n us old rest)

include h

theorem follows_of_prefix (hes : es <+: old ++ rest) : es.map Prod.fst <+: us := by
  have := hes.map Prod.fst
  rwa [h.spelled] at this

theorem prefix_of_held (hes : M.Held n es) (hu : es.map Prod.fst <+: us) : es <+: old ++ rest := by
  have hle := h.longest.greatest es hes hu
  exact (prefix_of_follows hes h.longest.held hu h.longest.follows hle).trans
    (List.prefix_append old rest)

theorem functional_new (hes : M.Held n es) (hes' : es' <+: old ++ rest) (hp : p ∣ es'.length) :
    (es.map Prod.fst <+: es'.map Prod.fst → es <+: es') ∧
      (es'.map Prod.fst <+: es.map Prod.fst → es' <+: es) := by
  constructor
  · intro hu
    have hlen : es.length ≤ es'.length := by simpa using hu.length_le
    have hpre := h.prefix_of_held hes (hu.trans (h.follows_of_prefix hes'))
    exact List.prefix_of_prefix_length_le hpre hes' hlen
  · intro hu
    have hlen : es'.length ≤ es.length := by simpa using hu.length_le
    -- the first part of `es` is as long as `es'` and held, so it is on the inserted path too
    have hcut : M.Held n (es.take es'.length) := by
      refine M.closed n es _ hes (List.take_prefix _ _) ?_
      rwa [List.length_take, Nat.min_eq_left hlen]
    have hsame : (es.take es'.length).map Prod.fst = es'.map Prod.fst := by
      have := List.prefix_iff_eq_take.mp hu
      rw [List.length_map] at this
      rw [List.map_take]
      exact this.symm
    have hpre : es.take es'.length <+: old ++ rest := by
      apply h.prefix_of_held hcut
      rw [hsame]
      exact h.follows_of_prefix hes'
    have heq : es' = es.take es'.length := by
      refine (List.prefix_of_prefix_length_le hes' hpre ?_).eq_of_length ?_
      · rw [List.length_take]
        omega
      · rw [List.length_take]
        omega
    rw [heq]
    exact List.take_prefix _ _

end Insertion

/-- The map after an insertion: what it held, and the inserted path. -/
def insert (M : PrefixMap ν α β p) {n : ν} {us : List α} {old rest : List (α × β)}
    (h : M.Insertion n us old rest) : PrefixMap ν α β p where
  Held m es := M.Held m es ∨ (m = n ∧ es <+: old ++ rest ∧ p ∣ es.length)
  nil m := .inl (M.nil m)
  aligned m es hes := by
    rcases hes with hes | ⟨_, _, hp⟩
    · exact M.aligned m es hes
    · exact hp
  closed m es es' hes hpre hp := by
    rcases hes with hes | ⟨rfl, hes, _⟩
    · exact .inl (M.closed m es es' hes hpre hp)
    · exact .inr ⟨rfl, hpre.trans hes, hp⟩
  functional m es es' hes hes' hu := by
    rcases hes with hes | ⟨rfl, hes, hp⟩
    · rcases hes' with hes' | ⟨rfl, hes', hp'⟩
      · exact M.functional m es es' hes hes' hu
      · exact (h.functional_new hes hes' hp').1 hu
    · rcases hes' with hes' | ⟨_, hes', _⟩
      · exact (h.functional_new hes' hes hp).2 hu
      · exact List.prefix_of_prefix_length_le hes hes' (by simpa using hu.length_le)

section insert

variable {old rest : List (α × β)} (h : M.Insertion n us old rest)

/-- **The inserted key** is found whole: the old values, then the new ones. -/
theorem longest_insert_self : (M.insert h).Longest n us (old ++ rest) where
  held := by
    refine .inr ⟨rfl, List.prefix_refl _, ?_⟩
    have := h.whole
    rwa [← h.spelled, List.length_map] at this
  follows := ⟨[], by rw [List.append_nil, h.spelled]⟩
  greatest es' _ hu := by
    have hlen := hu.length_le
    rw [← h.spelled, List.length_map, List.length_map] at hlen
    exact hlen

/-- **Any other key** finds what it found before, or more of the inserted path. -/
theorem longest_insert (hes : M.Longest m ws es) (hes' : (M.insert h).Longest m ws es') :
    es <+: es' ∧ (es' = es ∨ (m = n ∧ es' <+: old ++ rest)) := by
  have hold : (M.insert h).Held m es := .inl hes.held
  have hle : es.length ≤ es'.length := hes'.greatest es hold hes.follows
  refine ⟨prefix_of_follows hold hes'.held hes.follows hes'.follows hle, ?_⟩
  rcases hes'.held with hheld | ⟨rfl, hpre, _⟩
  · have hlong : M.Longest m ws es' :=
      ⟨hheld, hes'.follows, fun e he hu => Nat.le_trans (hes.greatest e he hu) hle⟩
    exact .inl (hlong.unique hes)
  · exact .inr ⟨rfl, hpre⟩

end insert

end PrefixMap
