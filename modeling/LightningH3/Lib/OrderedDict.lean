/-
Insertion-ordered dictionaries: the `dict` / `OrderedDict` of the host language,
oldest entry first.

The carrier is an association list together with the proof that its keys are
distinct, so every dictionary below is well formed by construction and a reader
never sees a "keys are unique" side condition. Assigning to a present key keeps
its position, assigning to an absent one appends, and `moveToEnd` is the touch of
an LRU order.

Everything a client needs is stated in two vocabularies: `get?` (what a lookup
returns after each operation) and `items` up to permutation (what the multiset of
entries becomes), the second for accounting arguments that sum over all entries.
-/
import Mathlib.Data.List.Perm.Basic
import Mathlib.Data.List.Dedup

set_option autoImplicit false

/-- A dictionary in insertion order, oldest entry first; keys are distinct. -/
structure OrderedDict (κ ν : Type) where
  items : List (κ × ν)
  nodup : (items.map Prod.fst).Nodup

namespace OrderedDict

open List

variable {κ ν : Type}

/-- The keys, oldest first: what iterating over the dictionary yields. -/
def keys (d : OrderedDict κ ν) : List κ := d.items.map Prod.fst

/-- The values, oldest first. -/
def values (d : OrderedDict κ ν) : List ν := d.items.map Prod.snd

/-- The number of entries. -/
def size (d : OrderedDict κ ν) : ℕ := d.items.length

/-- The dictionary with no entry. -/
def empty : OrderedDict κ ν := ⟨[], nodup_nil⟩

instance : Inhabited (OrderedDict κ ν) := ⟨empty⟩

variable {d : OrderedDict κ ν} {e : OrderedDict κ ν}

@[ext] theorem ext (h : d.items = e.items) : d = e := by
  cases d; cases e; simp only at h; subst h; rfl

@[simp] theorem items_empty : (empty : OrderedDict κ ν).items = [] := rfl
@[simp] theorem keys_empty : (empty : OrderedDict κ ν).keys = [] := rfl

theorem keys_nodup (d : OrderedDict κ ν) : d.keys.Nodup := d.nodup

theorem items_nodup (d : OrderedDict κ ν) : d.items.Nodup := d.nodup.of_map _

@[simp] theorem length_keys (d : OrderedDict κ ν) : d.keys.length = d.size := by
  simp [keys, size]

theorem mem_keys_of_mem {k : κ} {v : ν} (h : (k, v) ∈ d.items) : k ∈ d.keys :=
  mem_map.mpr ⟨(k, v), h, rfl⟩

theorem value_unique {k : κ} {v w : ν} (hv : (k, v) ∈ d.items) (hw : (k, w) ∈ d.items) : v = w := by
  have h := inj_on_of_nodup_map d.nodup hv hw rfl
  exact (Prod.mk.inj h).2

section Lookup

variable [DecidableEq κ]

/-- The lookup that never raises: `d.get(k)`. -/
def get? (d : OrderedDict κ ν) (k : κ) : Option ν :=
  (d.items.find? (fun p => p.1 = k)).map Prod.snd

variable {d : OrderedDict κ ν} {k : κ} {v : ν}

theorem get?_eq_some_iff : d.get? k = some v ↔ (k, v) ∈ d.items := by
  constructor
  · intro h
    simp only [get?, Option.map_eq_some_iff] at h
    obtain ⟨⟨k', v'⟩, hf, rfl⟩ := h
    have hk : k' = k := by simpa using find?_some hf
    subst hk
    exact mem_of_find?_eq_some hf
  · intro h
    cases hf : d.items.find? (fun p => p.1 = k) with
    | none =>
      have := find?_eq_none.mp hf (k, v) h
      simp at this
    | some p =>
      obtain ⟨k', v'⟩ := p
      have hk : k' = k := by simpa using find?_some hf
      subst hk
      have hv := value_unique (mem_of_find?_eq_some hf) h
      simp only [get?, hf, Option.map_some, hv]

theorem get?_eq_none_iff : d.get? k = none ↔ k ∉ d.keys := by
  constructor
  · intro h hk
    obtain ⟨⟨k', v⟩, hm, rfl⟩ := mem_map.mp hk
    rw [get?_eq_some_iff.mpr hm] at h
    exact absurd h (by simp)
  · intro h
    cases hg : d.get? k with
    | none => rfl
    | some v => exact absurd (mem_keys_of_mem (get?_eq_some_iff.mp hg)) h

theorem items_nil_of_get? (h : ∀ k, d.get? k = none) : d.items = [] := by
  apply eq_nil_iff_forall_not_mem.mpr
  rintro ⟨k, v⟩ hmem
  have hget := get?_eq_some_iff.mpr hmem
  rw [h k] at hget
  cases hget

theorem mem_keys_iff : k ∈ d.keys ↔ ∃ v, d.get? k = some v := by
  constructor
  · intro h
    cases hg : d.get? k with
    | none => exact absurd h (get?_eq_none_iff.mp hg)
    | some v => exact ⟨v, rfl⟩
  · rintro ⟨v, hv⟩
    exact mem_keys_of_mem (get?_eq_some_iff.mp hv)

theorem mem_values_iff : v ∈ d.values ↔ ∃ k, d.get? k = some v := by
  unfold values
  rw [mem_map]
  constructor
  · rintro ⟨⟨k, w⟩, hin, rfl⟩
    exact ⟨k, get?_eq_some_iff.mpr hin⟩
  · rintro ⟨k, hk⟩
    exact ⟨(k, v), get?_eq_some_iff.mp hk, rfl⟩

theorem map_get?_keys (d : OrderedDict κ ν) (default : ν) :
    d.keys.map (fun k => (d.get? k).getD default) = d.values := by
  unfold keys values
  rw [map_map]
  refine map_congr_left (fun p hp => ?_)
  have hget : d.get? p.1 = some p.2 := get?_eq_some_iff.mpr hp
  simp only [Function.comp_apply, hget, Option.getD_some]

@[simp] theorem get?_empty (k : κ) : (empty : OrderedDict κ ν).get? k = none := rfl

/-! ## Removing an entry -/

/-- `del d[k]` / `d.pop(k)`; nothing happens when `k` is absent. -/
def erase (d : OrderedDict κ ν) (k : κ) : OrderedDict κ ν where
  items := d.items.filter (fun p => p.1 ≠ k)
  nodup := (filter_sublist.map _).nodup d.nodup

variable {p : κ × ν}

theorem mem_erase : p ∈ (d.erase k).items ↔ p ∈ d.items ∧ p.1 ≠ k := by
  simp [erase]

theorem get?_erase (d : OrderedDict κ ν) (k k' : κ) :
    (d.erase k).get? k' = if k' = k then none else d.get? k' := by
  by_cases hk : k' = k
  · rw [if_pos hk, get?_eq_none_iff]
    intro hm
    obtain ⟨p, hp, rfl⟩ := mem_map.mp hm
    exact (mem_erase.mp hp).2 hk
  · rw [if_neg hk]
    apply Option.ext
    intro v
    rw [get?_eq_some_iff, get?_eq_some_iff, mem_erase]
    exact and_iff_left hk

theorem get?_erase_eq_some {k' : κ} :
    (d.erase k).get? k' = some v ↔ k' ≠ k ∧ d.get? k' = some v := by
  rw [get?_erase]
  by_cases hk : k' = k
  · simp [hk]
  · simp [hk]

theorem erase_of_notMem (h : k ∉ d.keys) : d.erase k = d := by
  apply OrderedDict.ext
  apply filter_eq_self.mpr
  intro p hp
  rw [decide_eq_true_eq]
  intro hk
  apply h
  rw [← hk]
  exact mem_map_of_mem hp

variable {k' : κ}

theorem mem_keys_erase : k' ∈ (d.erase k).keys ↔ k' ∈ d.keys ∧ k' ≠ k := by
  rw [mem_keys_iff, mem_keys_iff, get?_erase]
  by_cases hk : k' = k
  · simp [hk]
  · simp [hk]

/-- A present entry can be brought to the front of the multiset of entries. -/
theorem items_perm_cons_erase (h : d.get? k = some v) :
    d.items.Perm ((k, v) :: (d.erase k).items) := by
  have hm : (k, v) ∈ d.items := get?_eq_some_iff.mp h
  refine (perm_ext_iff_of_nodup d.items_nodup ?_).mpr ?_
  · refine nodup_cons.mpr ⟨?_, (d.erase k).items_nodup⟩
    intro hin
    exact (mem_erase.mp hin).2 rfl
  · rintro ⟨k', v'⟩
    rw [mem_cons, mem_erase]
    constructor
    · intro hp
      by_cases hk : k' = k
      · subst hk
        exact Or.inl (by rw [value_unique hp hm])
      · exact Or.inr ⟨hp, hk⟩
    · rintro (heq | hp)
      · rw [heq]; exact hm
      · exact hp.1

/-! ## Assignment -/

/-- `d[k] = v`: a present key keeps its position, an absent one is appended. -/
def set (d : OrderedDict κ ν) (k : κ) (v : ν) : OrderedDict κ ν :=
  if h : k ∈ d.keys then
    { items := d.items.map (fun p => if p.1 = k then (k, v) else p)
      nodup := by
        have hmap : (d.items.map (fun p => if p.1 = k then (k, v) else p)).map Prod.fst
            = d.items.map Prod.fst := by
          rw [map_map]
          refine map_congr_left (fun p _ => ?_)
          by_cases hp : p.1 = k
          · simp [hp]
          · simp [hp]
        rw [hmap]; exact d.nodup }
  else
    { items := d.items ++ [(k, v)]
      nodup := by
        rw [map_append, nodup_append]
        refine ⟨d.nodup, by simp, ?_⟩
        intro a ha b hb
        simp only [map_cons, map_nil, mem_singleton] at hb
        subst hb
        rintro rfl
        exact h ha }

theorem items_set_of_notMem (h : k ∉ d.keys) : (d.set k v).items = d.items ++ [(k, v)] := by
  simp [set, h]

theorem items_set_of_mem (h : k ∈ d.keys) :
    (d.set k v).items = d.items.map (fun p => if p.1 = k then (k, v) else p) := by
  simp [set, h]

theorem mem_set : p ∈ (d.set k v).items ↔ p = (k, v) ∨ (p ∈ d.items ∧ p.1 ≠ k) := by
  by_cases h : k ∈ d.keys
  · rw [items_set_of_mem h, mem_map]
    constructor
    · rintro ⟨q, hq, rfl⟩
      by_cases hk : q.1 = k
      · simp [hk]
      · simp [hk, hq]
    · rintro (rfl | ⟨hp, hk⟩)
      · obtain ⟨q, hq, hqk⟩ := mem_map.mp h
        exact ⟨q, hq, by simp [hqk]⟩
      · exact ⟨p, hp, by simp [hk]⟩
  · rw [items_set_of_notMem h, mem_append, mem_singleton]
    constructor
    · rintro (hp | rfl)
      · refine Or.inr ⟨hp, ?_⟩
        rintro rfl
        exact h (mem_map.mpr ⟨p, hp, rfl⟩)
      · exact Or.inl rfl
    · rintro (rfl | ⟨hp, _⟩)
      · exact Or.inr rfl
      · exact Or.inl hp

theorem get?_set (d : OrderedDict κ ν) (k : κ) (v : ν) (k' : κ) :
    (d.set k v).get? k' = if k' = k then some v else d.get? k' := by
  apply Option.ext
  intro w
  rw [get?_eq_some_iff, mem_set]
  by_cases hk : k' = k
  · simp [hk, eq_comm]
  · simp [hk, get?_eq_some_iff]

theorem get?_set_eq_some {w : ν} :
    (d.set k v).get? k' = some w ↔ k' = k ∧ v = w ∨ k' ≠ k ∧ d.get? k' = some w := by
  rw [get?_set]
  by_cases hk : k' = k
  · simp [hk]
  · simp [hk]

theorem mem_keys_set : k' ∈ (d.set k v).keys ↔ k' = k ∨ k' ∈ d.keys := by
  rw [mem_keys_iff, mem_keys_iff, get?_set]
  by_cases hk : k' = k
  · simp [hk]
  · simp [hk]

theorem set_self (h : d.get? k = some v) : d.set k v = d := by
  have hk : k ∈ d.keys := mem_keys_iff.mpr ⟨v, h⟩
  apply ext
  rw [items_set_of_mem hk]
  conv_rhs => rw [← map_id d.items]
  apply map_congr_left
  rintro ⟨k', v'⟩ hmem
  by_cases hkk : k' = k
  · subst hkk
    rw [if_pos rfl, value_unique hmem (get?_eq_some_iff.mp h)]
    rfl
  · exact if_neg hkk

theorem set_set (d : OrderedDict κ ν) (k : κ) (v w : ν) : (d.set k v).set k w = d.set k w := by
  apply ext
  rw [items_set_of_mem (mem_keys_set.mpr (Or.inl rfl))]
  by_cases hk : k ∈ d.keys
  · rw [items_set_of_mem hk, items_set_of_mem hk, map_map]
    refine map_congr_left (fun p _ => ?_)
    by_cases hp : p.1 = k
    · simp [hp]
    · simp [hp]
  · rw [items_set_of_notMem hk, items_set_of_notMem hk, map_append]
    have hkeep : d.items.map (fun p => if p.1 = k then (k, w) else p) = d.items := by
      conv_rhs => rw [← map_id d.items]
      refine map_congr_left (fun p hp => if_neg ?_)
      rintro rfl
      exact hk (mem_keys_of_mem hp)
    rw [hkeep, map_cons, map_nil, if_pos rfl]

/-- Overwriting a present entry: only that entry of the multiset changes. -/
theorem items_set_perm_of_get? {w : ν} (h : d.get? k = some v) :
    (d.set k w).items.Perm ((k, w) :: (d.erase k).items) := by
  have hset : (d.set k w).get? k = some w := by rw [get?_set, if_pos rfl]
  refine (items_perm_cons_erase hset).trans ?_
  have herase : ((d.set k w).erase k).items = (d.erase k).items := by
    have hk : k ∈ d.keys := mem_keys_iff.mpr ⟨v, h⟩
    simp only [erase, items_set_of_mem hk, filter_map]
    rw [← map_id (d.items.filter (fun p => decide (p.1 ≠ k)))]
    have hf : d.items.filter ((fun p : κ × ν => decide (p.1 ≠ k)) ∘
        fun p => if p.1 = k then (k, w) else p) = d.items.filter (fun p => decide (p.1 ≠ k)) := by
      refine filter_congr (fun p _ => ?_)
      by_cases hp : p.1 = k
      · simp [hp]
      · simp [hp]
    rw [hf]
    refine map_congr_left (fun p hp => ?_)
    have hpk : p.1 ≠ k := by simpa using (mem_filter.mp hp).2
    simp [hpk]
  rw [herase]

/-- `d.update(entries)`: the assignments in order. -/
def update (d : OrderedDict κ ν) (entries : List (κ × ν)) : OrderedDict κ ν :=
  entries.foldl (fun acc p => acc.set p.1 p.2) d

@[simp] theorem update_nil (d : OrderedDict κ ν) : d.update [] = d := rfl

@[simp] theorem update_cons (d : OrderedDict κ ν) (p : κ × ν) (entries : List (κ × ν)) :
    d.update (p :: entries) = (d.set p.1 p.2).update entries := rfl

theorem items_update_of_fresh (entries : List (κ × ν)) :
    ∀ d : OrderedDict κ ν, (entries.map Prod.fst).Nodup →
      (∀ p ∈ entries, p.1 ∉ d.keys) → (d.update entries).items = d.items ++ entries := by
  induction entries with
  | nil => intro d _ _; simp
  | cons p entries ih =>
    intro d hnd hfresh
    rw [map_cons, nodup_cons] at hnd
    have hp : p.1 ∉ d.keys := hfresh p (mem_cons_self ..)
    have htail : ∀ q ∈ entries, q.1 ∉ (d.set p.1 p.2).keys := by
      intro q hq hmem
      rcases mem_keys_set.mp hmem with heq | hin
      · exact hnd.1 (mem_map.mpr ⟨q, hq, heq⟩)
      · exact hfresh q (mem_cons_of_mem _ hq) hin
    rw [update_cons, ih (d.set p.1 p.2) hnd.2 htail, items_set_of_notMem hp]
    simp

/-- `dict(entries)` / a dict comprehension: later duplicates overwrite. -/
def ofList (entries : List (κ × ν)) : OrderedDict κ ν := empty.update entries

variable {entries : List (κ × ν)}

theorem items_ofList_of_nodup (h : (entries.map Prod.fst).Nodup) :
    (ofList entries).items = entries := by
  have hitems := items_update_of_fresh entries (empty : OrderedDict κ ν) h (by simp)
  exact hitems

/-- After an update with fresh, distinct keys a lookup finds the new or the old value. -/
theorem get?_update_of_fresh (hnd : (entries.map Prod.fst).Nodup)
    (hfresh : ∀ p ∈ entries, p.1 ∉ d.keys) :
    (d.update entries).get? k = some v ↔ d.get? k = some v ∨ (k, v) ∈ entries := by
  rw [get?_eq_some_iff, items_update_of_fresh entries d hnd hfresh, mem_append, get?_eq_some_iff]

theorem get?_update_of_notMem :
    ∀ d : OrderedDict κ ν, k ∉ entries.map Prod.fst → (d.update entries).get? k = d.get? k := by
  induction entries with
  | nil => intro d _; rfl
  | cons p entries ih =>
    intro d hk
    rw [map_cons, mem_cons, not_or] at hk
    rw [update_cons, ih _ hk.2, get?_set, if_neg hk.1]

theorem get?_update_of_mem :
    ∀ d : OrderedDict κ ν, (entries.map Prod.fst).Nodup → (k, v) ∈ entries →
      (d.update entries).get? k = some v := by
  induction entries with
  | nil => intro d _ h; exact absurd h not_mem_nil
  | cons p entries ih =>
    intro d hnd h
    rw [map_cons, nodup_cons] at hnd
    rw [update_cons]
    rcases mem_cons.mp h with rfl | hin
    · rw [get?_update_of_notMem _ hnd.1, get?_set, if_pos rfl]
    · exact ih _ hnd.2 hin

/-- `d.setdefault(k, v)`. -/
def setdefault (d : OrderedDict κ ν) (k : κ) (v : ν) : OrderedDict κ ν :=
  if k ∈ d.keys then d else d.set k v

theorem mem_setdefault (h : p ∈ (d.setdefault k v).items) : p ∈ d.items ∨ p = (k, v) := by
  unfold setdefault at h
  split at h
  · exact Or.inl h
  · rcases mem_set.mp h with rfl | ⟨hin, _⟩
    · exact Or.inr rfl
    · exact Or.inl hin

theorem mem_keys_setdefault : k' ∈ (d.setdefault k v).keys ↔ k' = k ∨ k' ∈ d.keys := by
  unfold setdefault
  split
  · next hk =>
    refine ⟨Or.inr, ?_⟩
    rintro (rfl | h)
    · exact hk
    · exact h
  · exact mem_keys_set

/-- `{k: v for k, v in d.items() if keep(k)}`. -/
def filterKeys (d : OrderedDict κ ν) (keep : κ → Bool) : OrderedDict κ ν where
  items := d.items.filter (fun p => keep p.1)
  nodup := (filter_sublist.map _).nodup d.nodup

omit [DecidableEq κ] in
theorem keys_filterKeys (d : OrderedDict κ ν) (keep : κ → Bool) :
    (d.filterKeys keep).keys = d.keys.filter keep := by
  unfold keys filterKeys
  rw [filter_map]
  rfl

/-! ## The LRU order -/

/-- `d.move_to_end(k)`; nothing happens when `k` is absent. -/
def moveToEnd (d : OrderedDict κ ν) (k : κ) : OrderedDict κ ν where
  items := d.items.filter (fun p => p.1 ≠ k) ++ d.items.filter (fun p => p.1 = k)
  nodup := by
    rw [map_append, nodup_append]
    refine ⟨(filter_sublist.map _).nodup d.nodup, (filter_sublist.map _).nodup d.nodup, ?_⟩
    intro a ha b hb
    obtain ⟨p, hp, rfl⟩ := mem_map.mp ha
    obtain ⟨q, hq, rfl⟩ := mem_map.mp hb
    have h1 : p.1 ≠ k := by simpa using (mem_filter.mp hp).2
    have h2 : q.1 = k := by simpa using (mem_filter.mp hq).2
    rw [h2]; exact h1

theorem items_moveToEnd_perm (d : OrderedDict κ ν) (k : κ) :
    (d.moveToEnd k).items.Perm d.items := by
  have h := filter_append_perm (fun p : κ × ν => decide (p.1 ≠ k)) d.items
  have hf : d.items.filter (fun p => decide (p.1 = k))
      = d.items.filter (fun p => !decide (p.1 ≠ k)) := by
    refine filter_congr (fun p _ => ?_)
    simp
  simp only [moveToEnd]
  rw [hf]
  exact h

theorem get?_eq_of_items_perm (h : d.items.Perm e.items) (k : κ) : d.get? k = e.get? k := by
  apply Option.ext
  intro v
  rw [get?_eq_some_iff, get?_eq_some_iff, h.mem_iff]

end Lookup

/-- `d.popitem(last=False)`: the oldest entry and the rest. -/
def popFirst? (d : OrderedDict κ ν) : Option ((κ × ν) × OrderedDict κ ν) :=
  match h : d.items with
  | [] => none
  | p :: rest => some (p, ⟨rest, by
      have := d.nodup
      rw [h, map_cons, nodup_cons] at this
      exact this.2⟩)

theorem popFirst?_eq_none_iff : d.popFirst? = none ↔ d.items = [] := by
  unfold popFirst?
  split <;> simp_all

theorem items_of_popFirst? {p : κ × ν} (h : d.popFirst? = some (p, e)) :
    d.items = p :: e.items := by
  unfold popFirst? at h
  split at h
  · cases h
  · next q rest hd =>
    obtain ⟨rfl, rfl⟩ := h
    exact hd

end OrderedDict
