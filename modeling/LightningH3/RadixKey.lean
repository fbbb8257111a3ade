/-
The keys of the radix cache (`srt/mem_cache/radix_cache.py`, class `RadixKey`).

A key is a sequence of logical units: the tokens themselves, or in the bigram view the pairs of
neighbouring tokens, where two adjacent slices share one raw token. Everything the cache does with
a key is stated here in terms of its units: slicing, the galloping comparison of `match_at` and
the dictionary key of its first page.
-/
import Mathlib.Data.List.GetD
import Mathlib.Data.List.Zip
import Mathlib.Tactic.Linarith
import LightningH3.Lib.Fallible

set_option autoImplicit false

namespace LightningH3.Radix

open List

/-! ## Keys -/

/-- A logical unit of a key: one token, or a pair of neighbouring tokens. -/
inductive Atom
  | token (t : ℤ)
  | bigram (t u : ℤ)
  deriving DecidableEq, Repr

/-- What the key operations and the tree operations raise. -/
inductive Fault
  | extra_key_mismatch
  | cache_salt_mismatch
  | bigram_mode_mismatch
  | offset_out_of_range
  | child_range_out_of_bounds
  | parent_missing
  | not_parents_child
  | node_from_another_tree
  | mismatched_namespaces
  | hash_missing
  | out_of_fuel
  deriving DecidableEq, Repr

/-- `RadixKey`: raw tokens in both modes, the namespace tags, and an optional cap on the raw
tokens. -/
structure RadixKey where
  token_ids : List ℤ
  extra_key : Option String
  cache_salt : Option String
  is_bigram : Bool
  limit : Option ℕ
  deriving DecidableEq, Repr

namespace RadixKey

/-- `RadixKey.__init__`: an empty salt is no salt. -/
def init (token_ids : List ℤ) (extra_key : Option String) (is_bigram : Bool) (limit : Option ℕ)
    (cache_salt : Option String) : RadixKey where
  token_ids := token_ids
  extra_key := extra_key
  cache_salt := if cache_salt = some "" then none else cache_salt
  is_bigram := is_bigram
  limit := limit

/-- The tags that keep entries apart. -/
def namespace_of (k : RadixKey) : Option String × Option String := (k.extra_key, k.cache_salt)

def raw_len (k : RadixKey) : ℕ :=
  match k.limit with
  | none => k.token_ids.length
  | some l => if l < k.token_ids.length then l else k.token_ids.length

def raw_token_ids (k : RadixKey) : List ℤ := k.token_ids.take k.raw_len

/-- `__len__` -/
def len (k : RadixKey) : ℕ :=
  if k.is_bigram then (if k.raw_len > 0 then k.raw_len - 1 else 0) else k.raw_len

/-- The neighbouring pairs of a token list. -/
def bigrams (ts : List ℤ) : List Atom := List.zipWith Atom.bigram ts ts.tail

/-- `__iter__` -/
def units (k : RadixKey) : List Atom :=
  if k.is_bigram then bigrams k.raw_token_ids else k.raw_token_ids.map Atom.token

/-- Python's `ts[start:stop]`. -/
def span {α : Type} (ts : List α) (start stop : ℕ) : List α := (ts.drop start).take (stop - start)

/-- `key[start:stop]`; the bounds are clamped to the length first. -/
def getitem (k : RadixKey) (start stop : ℕ) : RadixKey :=
  let start := min start k.len
  let stop := min stop k.len
  if k.is_bigram then
    -- bigrams [start, stop) span raw tokens [start, stop + 1)
    { k with
      token_ids := if stop > start then span k.token_ids start (stop + 1) else []
      limit := none }
  else { k with token_ids := span k.token_ids start stop, limit := none }

/-- `key[:stop]` -/
def upto (k : RadixKey) (stop : ℕ) : RadixKey := k.getitem 0 stop

/-- `key[start:]` -/
def after (k : RadixKey) (start : ℕ) : RadixKey := k.getitem start k.len

def page_aligned (k : RadixKey) (page_size : ℕ) : RadixKey :=
  if page_size = 1 then k else k.upto (k.len / page_size * page_size)

/-- `maybe_to_bigram_view`; `value` is paired with raw tokens and cut to the bigram count. -/
def maybe_to_bigram_view (k : RadixKey) (is_eagle : Bool) (value : Option (List ℤ)) :
    RadixKey × Option (List ℤ) :=
  if is_eagle ∧ ¬ k.is_bigram then
    let view := { k with is_bigram := true }
    (view, value.map (·.take view.len))
  else (k, value)

/-! ## Comparing keys -/

def check_compatible (k other : RadixKey) : Except Fault Unit :=
  if k.extra_key ≠ other.extra_key then throw .extra_key_mismatch
  else if k.cache_salt ≠ other.cache_salt then throw .cache_salt_mismatch
  else pure ()

/-- The binary search of `match_at` inside the window that holds the divergence. -/
def bisect (t0 t1 : List ℤ) (offset : ℕ) : (fuel lo hi : ℕ) → ℕ
  | 0, lo, _ => lo
  | fuel + 1, lo, hi =>
    if hi - lo > 1 then
      let mid := (lo + hi) / 2
      if span t0 lo mid = span t1 (offset + lo) (offset + mid) then bisect t0 t1 offset fuel mid hi
      else bisect t0 t1 offset fuel lo mid
    else lo

/-- The search of `match_at` in doubling windows. -/
def gallop (t0 t1 : List ℤ) (offset n : ℕ) : (fuel lo step : ℕ) → ℕ
  | 0, _, _ => n
  | fuel + 1, lo, step =>
    if lo < n then
      let hi := if lo + step < n then lo + step else n
      if span t0 lo hi ≠ span t1 (offset + lo) (offset + hi) then bisect t0 t1 offset hi lo hi
      else gallop t0 t1 offset n fuel hi (step * 2)
    else n

/-- `match_at`: the number of units shared with `other` from `offset` on, rounded down to a page.
The windows advance by at least one token, so `n` rounds of the search are enough. -/
def match_at (k other : RadixKey) (offset page_size : ℕ) : Except Fault ℕ := do
  k.check_compatible other
  if k.is_bigram ≠ other.is_bigram then throw .bigram_mode_mismatch
  if offset > other.len then throw .offset_out_of_range
  let n := min k.raw_len (other.raw_len - offset)
  let matched_tokens := gallop k.token_ids other.token_ids offset n n 0 1
  if k.is_bigram then
    let matched := min (matched_tokens - 1) (min k.len (other.len - offset))
    return if page_size > 1 then matched / page_size * page_size else matched
  else
    let matched_tokens := min matched_tokens (min k.len (other.len - offset))
    return if page_size = 1 then matched_tokens else matched_tokens / page_size * page_size

/-- `match` -/
def match_key (k other : RadixKey) (page_size : ℕ) : Except Fault ℕ := k.match_at other 0 page_size

end RadixKey

/-- The dictionary key of a child: its first page, wrapped with the tags it is namespaced by. -/
inductive ChildKey
  | plain (page : List Atom)
  | keyed (extra_key : String) (page : List Atom)
  | salted (extra_key : Option String) (cache_salt : String) (page : List Atom)
  deriving DecidableEq, Repr

namespace RadixKey

def child_key_at (k : RadixKey) (offset page_size : ℕ) : Except Fault ChildKey :=
  if offset + page_size > k.len then throw .child_range_out_of_bounds
  else
    let t := k.token_ids
    let page : List Atom :=
      if k.is_bigram then
        (List.range page_size).map fun j => .bigram (t.getD (offset + j) 0) (t.getD (offset + j + 1) 0)
      else (span t offset (offset + page_size)).map Atom.token
    match k.cache_salt, k.extra_key with
    | some salt, extra_key => pure (.salted extra_key salt page)
    | none, none => pure (.plain page)
    | none, some extra_key => pure (.keyed extra_key page)

def child_key (k : RadixKey) (page_size : ℕ) : Except Fault ChildKey := k.child_key_at 0 page_size

/-! ## Units -/

theorem raw_len_le (k : RadixKey) : k.raw_len ≤ k.token_ids.length := by
  unfold raw_len
  split
  · exact le_refl _
  · split
    · exact Nat.le_of_lt ‹_›
    · exact le_refl _

@[simp] theorem length_raw_token_ids (k : RadixKey) : k.raw_token_ids.length = k.raw_len := by
  rw [raw_token_ids, length_take, Nat.min_eq_left k.raw_len_le]

variable {k : RadixKey}

theorem raw_len_of_limit_none (h : k.limit = none) : k.raw_len = k.token_ids.length := by
  rw [raw_len, h]

theorem raw_token_ids_of_limit_none (h : k.limit = none) : k.raw_token_ids = k.token_ids := by
  rw [raw_token_ids, raw_len_of_limit_none h, take_length]

theorem bigrams_cons_cons (t u : ℤ) (ts : List ℤ) :
    bigrams (t :: u :: ts) = .bigram t u :: bigrams (u :: ts) := rfl

@[simp] theorem length_bigrams (ts : List ℤ) : (bigrams ts).length = ts.length - 1 := by
  rw [bigrams, length_zipWith, List.length_tail]
  omega

theorem take_bigrams (ts : List ℤ) (n : ℕ) : (bigrams ts).take n = bigrams (ts.take (n + 1)) := by
  induction ts generalizing n with
  | nil => simp [bigrams]
  | cons t ts ih =>
    cases ts with
    | nil => simp [bigrams]
    | cons u ts =>
      cases n with
      | zero => rfl
      | succ n =>
        rw [bigrams_cons_cons, take_succ_cons, ih n]
        rfl

theorem drop_bigrams (ts : List ℤ) (n : ℕ) : (bigrams ts).drop n = bigrams (ts.drop n) := by
  rw [bigrams, drop_zipWith, bigrams, tail_drop, drop_tail]

theorem bigrams_inj {s t : List ℤ} (hs : 2 ≤ s.length) (h : bigrams s = bigrams t) : s = t := by
  induction s generalizing t with
  | nil => simp at hs
  | cons a s ih =>
    cases s with
    | nil => simp at hs
    | cons b s =>
      match t, h with
      | [], h => cases h
      | [_], h => cases h
      | c :: d :: t, h =>
        injection h with hhead htail
        injection hhead with hac hbd
        subst hac hbd
        cases s with
        | nil =>
          cases t with
          | nil => rfl
          | cons e t => cases htail
        | cons e s => rw [ih (by simp) htail]

@[simp] theorem length_units (k : RadixKey) : k.units.length = k.len := by
  unfold units len
  split
  · rw [length_bigrams, length_raw_token_ids]
    split <;> omega
  · rw [length_map, length_raw_token_ids]

variable {α : Type}

theorem span_eq_drop_take (ts : List α) (start stop : ℕ) :
    span ts start stop = (ts.take stop).drop start := by
  rw [span, drop_take]

section

variable (k) (start stop page_size : ℕ)

theorem span_raw_token_ids {start stop : ℕ} (h : stop ≤ k.raw_len) :
    span k.raw_token_ids start stop = span k.token_ids start stop := by
  rw [span_eq_drop_take, span_eq_drop_take, raw_token_ids, take_take, Nat.min_eq_left h]

@[simp] theorem namespace_getitem : (k.getitem start stop).namespace_of = k.namespace_of := by
  unfold getitem namespace_of
  split <;> rfl

@[simp] theorem is_bigram_getitem : (k.getitem start stop).is_bigram = k.is_bigram := by
  unfold getitem
  split <;> rfl

theorem limit_getitem : (k.getitem start stop).limit = none := by
  unfold getitem
  split <;> rfl

theorem drop_take_units_clamp :
    (k.units.take (min stop k.len)).drop (min start k.len) = (k.units.take stop).drop start := by
  have hlen := k.length_units
  apply ext_getElem?
  intro i
  simp only [getElem?_drop, getElem?_take]
  by_cases hs : start ≤ k.len
  · rw [Nat.min_eq_left hs]
    by_cases hi : start + i < k.len
    · have : start + i < min stop k.len ↔ start + i < stop := by omega
      simp only [this]
    · rw [getElem?_eq_none (by omega)]
      simp
  · rw [Nat.min_eq_right (by omega : k.len ≤ start), getElem?_eq_none (by omega),
      getElem?_eq_none (by omega)]
    simp

/-- **Slices.** The units of a slice are the slice of the units. -/
theorem units_getitem : (k.getitem start stop).units = (k.units.take stop).drop start := by
  rw [← drop_take_units_clamp]
  have hraw := raw_token_ids_of_limit_none (k.limit_getitem start stop)
  rw [units, hraw]
  by_cases hb : k.is_bigram
  · have hlen : k.len = k.raw_len - 1 := by
      rw [len, if_pos hb]
      split <;> omega
    rw [units]
    simp only [getitem, if_pos hb]
    split
    · have hstop : min stop k.len + 1 ≤ k.raw_len := by omega
      rw [← span_raw_token_ids k hstop, take_bigrams, drop_bigrams, span_eq_drop_take]
    · rw [drop_eq_nil_of_le]
      · rfl
      · rw [length_take]
        omega
  · have hlen : k.len = k.raw_len := by rw [len, if_neg hb]
    have hstop : min stop k.len ≤ k.raw_len := by omega
    rw [units]
    simp only [getitem, if_neg hb]
    rw [← span_raw_token_ids k hstop, span_eq_drop_take, map_drop, map_take]

@[simp] theorem units_upto : (k.upto stop).units = k.units.take stop := by
  rw [upto, units_getitem, drop_zero]

@[simp] theorem units_after : (k.after start).units = k.units.drop start := by
  rw [after, units_getitem, ← length_units, take_length]

@[simp] theorem len_upto : (k.upto stop).len = min stop k.len := by
  rw [← length_units, units_upto, length_take, length_units]

@[simp] theorem len_after : (k.after start).len = k.len - start := by
  rw [← length_units, units_after, length_drop, length_units]

@[simp] theorem namespace_upto :
    (k.upto stop).namespace_of = k.namespace_of := namespace_getitem k 0 stop

@[simp] theorem namespace_after :
    (k.after start).namespace_of = k.namespace_of := namespace_getitem k start k.len

theorem units_page_aligned :
    (k.page_aligned page_size).units = k.units.take (k.len / page_size * page_size) := by
  unfold page_aligned
  split
  · rename_i h
    rw [h, Nat.div_one, Nat.mul_one, ← length_units, take_length]
  · rw [units_upto]

theorem len_page_aligned : (k.page_aligned page_size).len = k.len / page_size * page_size := by
  rw [← length_units, units_page_aligned, length_take, length_units]
  exact Nat.min_eq_left (Nat.div_mul_le_self _ _)

theorem dvd_len_page_aligned : page_size ∣ (k.page_aligned page_size).len := by
  rw [len_page_aligned]
  exact Nat.dvd_mul_left _ _

@[simp] theorem namespace_page_aligned :
    (k.page_aligned page_size).namespace_of = k.namespace_of := by
  unfold page_aligned
  split
  · rfl
  · exact namespace_upto _ _

end

/-! ## The search for the first difference -/

/-- Two token lists agree on their first `m` tokens, the second read from `offset` on. -/
def Agrees (t0 t1 : List ℤ) (offset m : ℕ) : Prop := t0.take m = (t1.drop offset).take m

/-- `r` is the largest count up to `n` on which two lists agree. -/
structure LastAgree (t0 t1 : List ℤ) (offset n r : ℕ) : Prop where
  le : r ≤ n
  agrees : Agrees t0 t1 offset r
  greatest : ∀ m ≤ n, Agrees t0 t1 offset m → m ≤ r

theorem take_eq_take_append_span (ts : List α) {lo hi : ℕ} (h : lo ≤ hi) :
    ts.take hi = ts.take lo ++ span ts lo hi := by
  rw [span, ← take_add]
  congr 1
  omega

variable {t0 t1 : List ℤ} {offset : ℕ}

theorem Agrees.mono {m r : ℕ} (h : Agrees t0 t1 offset m) (hr : r ≤ m) : Agrees t0 t1 offset r := by
  have := congrArg (List.take r) h
  rwa [take_take, take_take, Nat.min_eq_left hr] at this

theorem agrees_window {lo hi : ℕ} (hlo : Agrees t0 t1 offset lo) (h : lo ≤ hi) :
    span t0 lo hi = span t1 (offset + lo) (offset + hi) ↔ Agrees t0 t1 offset hi := by
  have hspan : span t1 (offset + lo) (offset + hi) = span (t1.drop offset) lo hi := by
    rw [span, span, drop_drop]
    congr 1
    omega
  rw [hspan]
  unfold Agrees at hlo ⊢
  rw [take_eq_take_append_span t0 h, take_eq_take_append_span (t1.drop offset) h, hlo,
    append_cancel_left_eq]

variable {n : ℕ}

theorem bisect_spec (fuel : ℕ) :
    ∀ lo hi : ℕ, lo < hi → hi ≤ n → hi - lo ≤ fuel → Agrees t0 t1 offset lo →
      ¬ Agrees t0 t1 offset hi → LastAgree t0 t1 offset n (bisect t0 t1 offset fuel lo hi) := by
  induction fuel with
  | zero =>
    intro lo hi hlt _ hfuel
    omega
  | succ fuel ih =>
    intro lo hi hlt hle hfuel hlo hhi
    rw [bisect]
    split
    · have hmid : lo ≤ (lo + hi) / 2 := by omega
      dsimp only
      split
      · rename_i heq
        exact ih _ _ (by omega) hle (by omega) ((agrees_window hlo hmid).mp heq) hhi
      · rename_i hne
        refine ih _ _ (by omega) (by omega) (by omega) hlo ?_
        exact fun hm => hne ((agrees_window hlo hmid).mpr hm)
    · refine ⟨by omega, hlo, ?_⟩
      intro m _ hm
      by_contra hgt
      exact hhi (hm.mono (by omega))

theorem gallop_spec (fuel : ℕ) :
    ∀ lo step : ℕ, lo ≤ n → n - lo ≤ fuel → 0 < step → Agrees t0 t1 offset lo →
      LastAgree t0 t1 offset n (gallop t0 t1 offset n fuel lo step) := by
  induction fuel with
  | zero =>
    intro lo step hle hfuel _ hlo
    have hn : lo = n := by omega
    subst hn
    exact ⟨le_refl _, hlo, fun m hm _ => hm⟩
  | succ fuel ih =>
    intro lo step hle hfuel hstep hlo
    rw [gallop]
    split
    · dsimp only
      -- the window ends at `hi`, after `lo` and not after `n`
      generalize hhi : (if lo + step < n then lo + step else n) = hi
      have hwin : lo < hi ∧ hi ≤ n := by
        split at hhi <;> omega
      split
      · rename_i hne
        refine bisect_spec hi lo hi hwin.1 hwin.2 (by omega) hlo ?_
        exact fun hm => hne ((agrees_window hlo hwin.1.le).mpr hm)
      · rename_i heq
        have heq' := not_not.mp heq
        refine ih hi (step * 2) hwin.2 (by omega) (by omega) ?_
        exact (agrees_window hlo hwin.1.le).mp heq'
    · have hn : lo = n := by omega
      subst hn
      exact ⟨le_refl _, hlo, fun m hm _ => hm⟩

/-! ## What `match_at` returns -/

/-- `m` is the longest whole number of pages on which two unit lists agree. -/
structure PageMatch {α : Type} (page_size : ℕ) (xs ys : List α) (m : ℕ) : Prop where
  aligned : page_size ∣ m
  le_left : m ≤ xs.length
  le_right : m ≤ ys.length
  agrees : xs.take m = ys.take m
  greatest : ∀ j, page_size ∣ j → j ≤ xs.length → j ≤ ys.length → xs.take j = ys.take j → j ≤ m

variable {page_size : ℕ}

theorem PageMatch.of_common {r : ℕ} {xs ys : List α} (hx : r ≤ xs.length) (hy : r ≤ ys.length)
    (hagree : xs.take r = ys.take r)
    (hmax : ∀ j, j ≤ xs.length → j ≤ ys.length → xs.take j = ys.take j → j ≤ r) :
    PageMatch page_size xs ys (r / page_size * page_size) := by
  have hle : r / page_size * page_size ≤ r := Nat.div_mul_le_self _ _
  refine ⟨Nat.dvd_mul_left _ _, hle.trans hx, hle.trans hy, ?_, ?_⟩
  · have := congrArg (List.take (r / page_size * page_size)) hagree
    rwa [take_take, take_take, Nat.min_eq_left hle] at this
  · rintro j ⟨q, rfl⟩ hjx hjy hj
    have hjr := hmax _ hjx hjy hj
    rcases Nat.eq_zero_or_pos page_size with h0 | hpos
    · subst h0
      simp
    · have : q ≤ r / page_size := (Nat.le_div_iff_mul_le hpos).mpr (by rwa [Nat.mul_comm] at hjr)
      calc page_size * q = q * page_size := Nat.mul_comm _ _
        _ ≤ r / page_size * page_size := Nat.mul_le_mul_right _ this

theorem page_floor_eq (page_size r : ℕ) (hp : 0 < page_size) :
    (if page_size > 1 then r / page_size * page_size else r) = r / page_size * page_size ∧
      (if page_size = 1 then r else r / page_size * page_size) = r / page_size * page_size := by
  by_cases h1 : page_size = 1
  · subst h1
    simp
  · have hgt : page_size > 1 := by omega
    rw [if_pos hgt, if_neg h1]
    exact ⟨rfl, rfl⟩

variable {other : RadixKey}

theorem agrees_raw {m : ℕ} (hk : m ≤ k.raw_len) (ho : m ≤ other.raw_len - offset) :
    Agrees k.token_ids other.token_ids offset m
      ↔ k.raw_token_ids.take m = (other.raw_token_ids.drop offset).take m := by
  unfold Agrees raw_token_ids
  rw [take_take, Nat.min_eq_left hk, drop_take, take_take, Nat.min_eq_left ho]

section

variable (hp : 0 < page_size) (hns : k.namespace_of = other.namespace_of)
  (hmode : k.is_bigram = other.is_bigram)
include hp hns hmode

/-- **The common units of two keys.** On two keys of one namespace and one view, `match_at`
succeeds, and it returns the longest whole number of pages on which their units agree. -/
theorem match_at_spec (hoff : offset ≤ other.len) : ∃ m, k.match_at other offset page_size = .ok m ∧
      PageMatch page_size k.units (other.units.drop offset) m := by
  obtain ⟨hextra, hsalt⟩ := Prod.mk.inj hns
  have hn : ∀ m, m ≤ min k.raw_len (other.raw_len - offset) → (Agrees k.token_ids other.token_ids
      offset m ↔ k.raw_token_ids.take m = (other.raw_token_ids.drop offset).take m) := by
    intro m hm
    exact agrees_raw (by omega) (by omega)
  have hstart : Agrees k.token_ids other.token_ids offset 0 := by simp [Agrees]
  have hsearch : LastAgree k.token_ids other.token_ids offset
      (min k.raw_len (other.raw_len - offset))
      (gallop k.token_ids other.token_ids offset (min k.raw_len (other.raw_len - offset))
        (min k.raw_len (other.raw_len - offset)) 0 1) :=
    gallop_spec _ 0 1 (Nat.zero_le _) (by omega) Nat.one_pos hstart
  generalize hr : gallop k.token_ids other.token_ids offset (min k.raw_len (other.raw_len - offset))
    (min k.raw_len (other.raw_len - offset)) 0 1 = r at hsearch
  obtain ⟨hle, hagree, hmax⟩ := hsearch
  rw [hn r hle] at hagree
  have hcheck : k.check_compatible other = .ok () := by
    rw [check_compatible, if_neg (not_not.mpr hextra), if_neg (not_not.mpr hsalt)]
    rfl
  have hnot : ¬ offset > other.len := by omega
  unfold match_at
  rw [hcheck]
  simp only [hmode, ne_eq, hnot, hr]
  have hlk : k.units.length = k.len := k.length_units
  have hlo : (other.units.drop offset).length = other.len - offset := by
    rw [length_drop, other.length_units]
  by_cases hb : other.is_bigram
  · have hbk : k.is_bigram := by rw [hmode]; exact hb
    have hk : k.len = k.raw_len - 1 := by
      rw [len, if_pos hbk]
      split <;> omega
    have ho : other.len = other.raw_len - 1 := by
      rw [len, if_pos hb]
      split <;> omega
    refine ⟨_, by rw [if_pos hb]; rfl, ?_⟩
    rw [(page_floor_eq page_size _ hp).1]
    have huk : k.units = bigrams k.raw_token_ids := by rw [units, if_pos hbk]
    have huo : other.units.drop offset = bigrams (other.raw_token_ids.drop offset) := by
      rw [units, if_pos hb, drop_bigrams]
    refine PageMatch.of_common (by omega) (by omega) ?_ ?_
    · have hone : (r - 1) + 1 = r ∨ r = 0 := by omega
      rcases hone with hone | hzero
      · have hmin : min (r - 1) (min k.len (other.len - offset)) = r - 1 := by omega
        rw [hmin, huk, huo, take_bigrams, take_bigrams, hone, hagree]
      · subst hzero
        simp
    · intro j hjk hjo hj
      rcases Nat.eq_zero_or_pos j with hj0 | hjpos
      · omega
      · have hraw : k.raw_token_ids.take (j + 1) = (other.raw_token_ids.drop offset).take (j + 1) := by
          apply bigrams_inj
          · rw [length_take, length_raw_token_ids]
            omega
          · rwa [← take_bigrams, ← take_bigrams, ← huk, ← huo]
        have hjn : j + 1 ≤ min k.raw_len (other.raw_len - offset) := by omega
        have := hmax (j + 1) hjn ((hn _ hjn).mpr hraw)
        omega
  · have hbk : ¬ k.is_bigram := by rw [hmode]; exact hb
    have hk : k.len = k.raw_len := by rw [len, if_neg hbk]
    have ho : other.len = other.raw_len := by rw [len, if_neg hb]
    refine ⟨_, by rw [if_neg hb]; rfl, ?_⟩
    rw [(page_floor_eq page_size _ hp).2]
    have huk : k.units = k.raw_token_ids.map Atom.token := by rw [units, if_neg hbk]
    have huo : other.units.drop offset = (other.raw_token_ids.drop offset).map Atom.token := by
      rw [units, if_neg hb, map_drop]
    have hinj : Function.Injective Atom.token := fun a b h => by
      injection h
    have hmin : min r (min k.len (other.len - offset)) = r := by omega
    rw [hmin]
    refine PageMatch.of_common (by omega) (by omega) ?_ ?_
    · rw [huk, huo, ← map_take, ← map_take, hagree]
    · intro j hjk hjo hj
      rw [huk, huo, ← map_take, ← map_take] at hj
      have hjn : j ≤ min k.raw_len (other.raw_len - offset) := by omega
      exact hmax j hjn ((hn _ hjn).mpr (hinj.list_map hj))

theorem match_key_spec :
    ∃ m, k.match_key other page_size = .ok m ∧ PageMatch page_size k.units other.units m := by
  obtain ⟨m, hm, hspec⟩ := match_at_spec hp hns hmode (Nat.zero_le _)
  exact ⟨m, hm, hspec⟩

end

/-! ## First pages -/

/-- The dictionary key of a first page in a namespace. -/
def tagged (ns : Option String × Option String) (page : List Atom) : ChildKey :=
  match ns.2, ns.1 with
  | some salt, extra_key => .salted extra_key salt page
  | none, none => .plain page
  | none, some extra_key => .keyed extra_key page

theorem tagged_inj {ns ns' : Option String × Option String} {page page' : List Atom}
    (h : tagged ns page = tagged ns' page') : ns = ns' ∧ page = page' := by
  obtain ⟨extra, salt⟩ := ns
  obtain ⟨extra', salt'⟩ := ns'
  cases salt <;> cases extra <;> cases salt' <;> cases extra' <;>
    simp_all [tagged]

/-- **First page.** A key of at least one page has the dictionary key of its first page. -/
theorem child_key_eq (h : page_size ≤ k.len) :
    k.child_key page_size = .ok (tagged k.namespace_of (k.units.take page_size)) := by
  have hpage : (if k.is_bigram then (List.range page_size).map fun j =>
        Atom.bigram (k.token_ids.getD (0 + j) 0) (k.token_ids.getD (0 + j + 1) 0)
      else (span k.token_ids 0 (0 + page_size)).map Atom.token) = k.units.take page_size := by
    by_cases hb : k.is_bigram
    · have hk : k.len = k.raw_len - 1 := by
        rw [len, if_pos hb]
        split <;> omega
      have hraw := k.raw_len_le
      rw [if_pos hb, units, if_pos hb]
      apply ext_getElem
      · rw [length_map, length_range, length_take, length_bigrams, length_raw_token_ids]
        omega
      · intro i h₁ h₂
        rw [length_map, length_range] at h₁
        simp only [getElem_map, getElem_range, getElem_take, bigrams,
          getElem_zipWith, getElem_tail, raw_token_ids, Nat.zero_add]
        rw [getD_eq_getElem _ _ (by omega), getD_eq_getElem _ _ (by omega)]
    · have hk : k.len = k.raw_len := by rw [len, if_neg hb]
      rw [if_neg hb, units, if_neg hb, Nat.zero_add, ← span_raw_token_ids k (by omega),
        span_eq_drop_take, drop_zero, map_take]
  unfold child_key child_key_at
  rw [if_neg (by omega)]
  dsimp only
  rw [hpage]
  unfold tagged namespace_of
  cases k.cache_salt <;> cases k.extra_key <;> rfl

theorem child_key_inj {ck : ChildKey} (hk : page_size ≤ k.len) (ho : page_size ≤ other.len)
    (h : k.child_key page_size = .ok ck) (h' : other.child_key page_size = .ok ck) :
    k.namespace_of = other.namespace_of ∧ k.units.take page_size = other.units.take page_size := by
  rw [child_key_eq hk] at h
  rw [child_key_eq ho] at h'
  exact tagged_inj ((Except.ok.inj h).trans (Except.ok.inj h').symm)

theorem mode_eq_of_take (hn : 0 < n) (hk : n ≤ k.len) (h : k.units.take n = other.units.take n) :
    k.is_bigram = other.is_bigram := by
  have hne : k.units.take n ≠ [] := by
    intro h0
    have := congrArg List.length h0
    rw [length_take, length_units, length_nil] at this
    omega
  obtain ⟨x, hx⟩ := exists_mem_of_ne_nil _ hne
  have hkind : ∀ (key : RadixKey) (y : Atom), y ∈ key.units →
      (key.is_bigram = true ↔ ∃ t u, y = .bigram t u) := by
    intro key y hy
    unfold units at hy
    split at hy
    · rename_i hb
      refine ⟨fun _ => ?_, fun _ => hb⟩
      obtain ⟨i, hi, rfl⟩ := getElem_of_mem hy
      exact ⟨_, _, getElem_zipWith⟩
    · rename_i hb
      refine ⟨fun h => absurd h hb, ?_⟩
      rintro ⟨t, u, rfl⟩
      simp at hy
  have h₁ := hkind k x (mem_of_mem_take hx)
  have h₂ := hkind other x (mem_of_mem_take (h ▸ hx))
  exact Bool.eq_iff_iff.mpr (h₁.trans h₂.symm)

end RadixKey

end LightningH3.Radix
