/-
What a radix cache holds, and what the walks of `match_prefix` and `insert` find.

The cache holds, in a namespace, the page-aligned beginnings of what is read from the root to a
node. This is a prefix map, and a split does not change it. Both walks follow the key from a node
downwards; they end where the next page is not filed or the key is used up, after at most one split,
and what they have read by then is the longest held prefix of the key.

That it is the longest is an argument from the root downwards: a held sequence that goes on below a
node has to pass through the child filed under its next page.
-/
import LightningH3.Lib.PrefixMap
import LightningH3.RadixCacheShape

set_option autoImplicit false

namespace LightningH3.Radix

open Arena RadixKey List

variable {H : Type}

/-- The namespaces of keys: the extra key and the salt. -/
abbrev Namespace := Option String × Option String

/-! ## What is held -/

/-- The units of a node paired with their slots. -/
def entries (d : TreeNode) : List (Atom × ℤ) := d.key.units.zip d.value

variable {d : TreeNode}

section

variable (h : d.value.length = d.key.len)
include h

theorem entries_fst : (entries d).map Prod.fst = d.key.units := by
  rw [entries, map_fst_zip]
  rw [length_units, h]

theorem entries_snd : (entries d).map Prod.snd = d.value := by
  rw [entries, map_snd_zip]
  rw [length_units, h]

theorem length_entries : (entries d).length = d.key.len := by
  rw [entries, length_zip, length_units, h, Nat.min_self]

end

theorem entries_upper (d : TreeNode) (m : ℕ) : entries (upper d m) = (entries d).take m := by
  rw [entries, upper, units_upto]
  exact take_zipWith.symm

theorem entries_lower (d : TreeNode) (m : ℕ) : entries (lower d m) = (entries d).drop m := by
  rw [entries, lower, units_after]
  exact drop_zipWith.symm

theorem entries_split (d : TreeNode) (m : ℕ) : entries (upper d m) ++ entries (lower d m)
    = entries d := by
  rw [entries_upper, entries_lower, take_append_drop]

/-- The cache holds a page-aligned sequence of units with their slots in a namespace: it begins
what is read from the root to some node. -/
def Held (c : RadixCache H) (ns : Namespace) (es : List (Atom × ℤ)) : Prop :=
  es = [] ∨ ∃ n full, n ≠ c.tree.root ∧ (c.node n).key.namespace_of = ns ∧
    Reads c.tree entries n full ∧ es <+: full ∧ c.page_size ∣ es.length

/-- The same from a node downwards. -/
inductive HeldFrom (c : RadixCache H) (ns : Namespace) : ℕ → List (Atom × ℤ) → Prop
  | nil (n : ℕ) : HeldFrom c ns n []
  | part {p n : ℕ} {k : ChildKey} {es : List (Atom × ℤ)} : c.tree.child? p k = some n →
      (c.node n).key.namespace_of = ns → es <+: entries (c.node n) → c.page_size ∣ es.length →
      HeldFrom c ns p es
  | down {p n : ℕ} {k : ChildKey} {es : List (Atom × ℤ)} : c.tree.child? p k = some n →
      (c.node n).key.namespace_of = ns → HeldFrom c ns n es →
      HeldFrom c ns p (entries (c.node n) ++ es)

namespace Shape

variable {c : RadixCache H} (h : Shape c)

include h

variable {n : ℕ}

theorem slots (hn : InTree c.tree n) (hr : n ≠ c.tree.root) :
    (c.node n).value.length = (c.node n).key.len := (h.keyed n hn hr).2.2

theorem dvd_length_entries (hn : InTree c.tree n) (hr : n ≠ c.tree.root) :
    c.page_size ∣ (entries (c.node n)).length := by
  rw [length_entries (h.slots hn hr)]
  exact (h.keyed n hn hr).2.1

variable {es : List (Atom × ℤ)}

theorem dvd_length_of_reads (hes : Reads c.tree entries n es) : c.page_size ∣ es.length := by
  induction hes with
  | root => exact Nat.dvd_zero _
  | child hp hk ih =>
    rw [length_append]
    exact Nat.dvd_add ih
      (h.dvd_length_entries (.child hp.inTree hk) (h.linked.ne_root hp.inTree hk))

variable {ns : Namespace}

theorem heldFrom_root {full tail : List (Atom × ℤ)} (hr : Reads c.tree entries n full)
    (hns : n ≠ c.tree.root → (c.node n).key.namespace_of = ns) (ht : HeldFrom c ns n tail) :
    HeldFrom c ns c.tree.root (full ++ tail) := by
  induction hr generalizing tail with
  | root => exact ht
  | @child p n k us hp hk ih =>
    have hnr : n ≠ c.tree.root := h.linked.ne_root hp.inTree hk
    rw [append_assoc]
    refine ih ?_ (.down hk (hns hnr) ht)
    intro hpr
    rw [← h.uniform p k n hp.inTree hpr hk]
    exact hns hnr

/-- **Top down.** What the cache holds is held from the root. -/
theorem heldFrom_of_held (hes : Held c ns es) : HeldFrom c ns c.tree.root es := by
  rcases hes with rfl | ⟨n, full, hnr, hns, hread, hpre, hdvd⟩
  · exact .nil _
  · have hns' : n ≠ c.tree.root → (c.node n).key.namespace_of = ns := fun _ => hns
    clear hns hnr
    induction hread with
    | root =>
      rw [prefix_nil] at hpre
      subst hpre
      exact .nil _
    | @child p n k us hp hk ih =>
      have hnr : n ≠ c.tree.root := h.linked.ne_root hp.inTree hk
      have hpns : p ≠ c.tree.root → (c.node p).key.namespace_of = ns := by
        intro hpr
        rw [← h.uniform p k n hp.inTree hpr hk]
        exact hns' hnr
      rcases prefix_append_cases hpre with hpre | ⟨tail, rfl, htail⟩
      · exact ih hpre hpns
      · refine h.heldFrom_root hp hpns (.part hk (hns' hnr) htail ?_)
        rw [length_append] at hdvd
        exact (Nat.dvd_add_right (h.dvd_length_of_reads hp)).mp hdvd

/-- **The next page decides.** A held sequence that goes on below `p` passes through the child
filed under its first page. -/
theorem heldFrom_cases {p : ℕ} {us : List Atom} (hp : InTree c.tree p) (hes : HeldFrom c ns p es)
    (hne : es ≠ []) (hu : es.map Prod.fst <+: us) :
    ∃ n, c.tree.child? p (RadixKey.tagged ns (us.take c.page_size)) = some n ∧
      (c.node n).key.namespace_of = ns ∧
      (es <+: entries (c.node n) ∨ ∃ tail, es = entries (c.node n) ++ tail ∧ HeldFrom c ns n tail) := by
  -- the first page of the units is that of the child
  have hpage : ∀ {n : ℕ} {k : ChildKey}, c.tree.child? p k = some n →
      (c.node n).key.namespace_of = ns → c.page_size ≤ es.length →
      (es.map Prod.fst).take c.page_size = (c.node n).key.units.take c.page_size →
      c.tree.child? p (RadixKey.tagged ns (us.take c.page_size)) = some n := by
    intro n k hk hns hlen htake
    have htag : RadixKey.tagged ns (us.take c.page_size) = k := by
      rw [h.filed_eq hp hk, hns, ← htake]
      obtain ⟨tail, htail⟩ := hu
      rw [← htail, take_append_of_le_length (by simpa using hlen)]
    rw [htag]
    exact hk
  cases hes with
  | nil => exact absurd rfl hne
  | @part _ n k _ hk hns hpre hdvd =>
    have hnr := h.linked.ne_root hp hk
    have hlen : c.page_size ≤ es.length :=
      Nat.le_of_dvd (length_pos_iff.mpr hne) hdvd
    refine ⟨n, hpage hk hns hlen ?_, hns, .inl hpre⟩
    obtain ⟨tail, htail⟩ := hpre
    rw [← entries_fst (h.slots (.child hp hk) hnr), ← htail, map_append,
      take_append_of_le_length (by simpa using hlen)]
  | @down _ n k tail hk hns ht =>
    have hnr := h.linked.ne_root hp hk
    have hin : InTree c.tree n := .child hp hk
    have hlen : c.page_size ≤ (entries (c.node n)).length := by
      rw [length_entries (h.slots hin hnr)]
      exact h.page_le hin hnr
    refine ⟨n, hpage hk hns ?_ ?_, hns, .inr ⟨tail, rfl, ht⟩⟩
    · rw [length_append]
      omega
    · rw [map_append, take_append_of_le_length (by simpa using hlen), entries_fst (h.slots hin hnr)]

theorem heldFrom_functional (len : ℕ) :
    ∀ {p : ℕ} {es es' : List (Atom × ℤ)}, es.length ≤ len → InTree c.tree p →
      HeldFrom c ns p es → HeldFrom c ns p es' → es.map Prod.fst <+: es'.map Prod.fst →
      es <+: es' := by
  induction len with
  | zero =>
    intro p es es' hlen _ _ _ _
    rw [length_eq_zero_iff.mp (Nat.le_zero.mp hlen)]
    exact nil_prefix
  | succ len ih =>
    intro p es es' hlen hp hes hes' hu
    by_cases hne : es = []
    · subst hne
      exact nil_prefix
    have hle : es.length ≤ es'.length := by simpa using hu.length_le
    have hne' : es' ≠ [] := by
      rintro rfl
      exact hne (length_eq_zero_iff.mp (by simpa using hle))
    -- both go through the child of the same first page
    obtain ⟨n, hn, -, hcase⟩ := h.heldFrom_cases hp hes hne hu
    obtain ⟨n', hn', -, hcase'⟩ := h.heldFrom_cases hp hes' hne' (prefix_refl _)
    have hnn : n = n' := Option.some.inj (hn.symm.trans hn')
    subst hnn
    have hin : InTree c.tree n := .child hp hn
    have hnr := h.linked.ne_root hp hn
    have hpos : 0 < (entries (c.node n)).length := by
      rw [length_entries (h.slots hin hnr)]
      exact (h.keyed n hin hnr).1
    rcases hcase with hpre | ⟨tail, rfl, ht⟩
    · rcases hcase' with hpre' | ⟨tail', rfl, _⟩
      · exact prefix_of_prefix_length_le hpre hpre' hle
      · exact hpre.trans (prefix_append _ _)
    · rcases hcase' with hpre' | ⟨tail', rfl, ht'⟩
      · have hlen' := hpre'.length_le
        rw [length_append] at hle
        have htail : tail = [] := length_eq_zero_iff.mp (by omega)
        subst htail
        rw [append_nil, hpre'.eq_of_length (by omega)]
      · rw [map_append, map_append, prefix_append_right_inj] at hu
        rw [length_append] at hlen
        rw [prefix_append_right_inj]
        exact ih (by omega) hin ht ht' hu

/-- **The prefix map** that a cache of good shape represents. -/
def prefix_map : PrefixMap Namespace Atom ℤ c.page_size where
  Held := Held c
  nil _ := .inl rfl
  aligned ns es hes := by
    rcases hes with rfl | ⟨_, _, _, _, _, _, hdvd⟩
    · exact Nat.dvd_zero _
    · exact hdvd
  closed ns es es' hes hpre hdvd := by
    rcases hes with rfl | ⟨n, full, hr, hns, hread, hfull, _⟩
    · exact .inl (prefix_nil.mp hpre)
    · exact .inr ⟨n, full, hr, hns, hread, hpre.trans hfull, hdvd⟩
  functional ns es es' hes hes' hu :=
    h.heldFrom_functional es.length (le_refl _) .root (h.heldFrom_of_held hes)
      (h.heldFrom_of_held hes') hu

end Shape

/-! ## Changes that keep what is held -/

/-- Two states that differ in hit counts and priorities only. -/
structure SameRecords (c c' : RadixCache H) : Prop extends SameBooks c c' where
  queue : c'.queue = c.queue
  hashes : ∀ n, (c'.info n).hash_value = (c.info n).hash_value ∧
    (c'.info n).event_hash_value = (c.info n).event_hash_value

theorem SameRecords.raise_priority (c : RadixCache H) (n : ℕ) (priority : ℤ) :
    SameRecords c (c.raise_priority n priority) where
  toSameBooks := SameBooks.raise_priority c n priority
  queue := rfl
  hashes m := by
    by_cases hm : m = n
    · subst hm
      simp [RadixCache.raise_priority, RadixCache.set_info]
    · simp [RadixCache.raise_priority, RadixCache.set_info, hm]

theorem SameRecords.inc_hit_count (c : RadixCache H) (n : ℕ) (chunked : Bool) :
    SameRecords c (c.inc_hit_count n chunked) where
  toSameBooks := SameBooks.inc_hit_count c n chunked
  queue := by
    unfold RadixCache.inc_hit_count
    split <;> rfl
  hashes m := by
    unfold RadixCache.inc_hit_count
    split
    · exact ⟨rfl, rfl⟩
    · by_cases hm : m = n
      · subst hm
        simp [RadixCache.set_info]
      · simp [RadixCache.set_info, hm]

/-- What a walk may do to the cache: bump counters and split nodes. -/
inductive Reshapes : RadixCache H → RadixCache H → Prop
  | refl (c : RadixCache H) : Reshapes c c
  | count {c c' c'' : RadixCache H} : Reshapes c c' → SameRecords c' c'' → Reshapes c c''
  | split {c c' c'' : RadixCache H} {p child : ℕ} {k k' : ChildKey} {m : ℕ} : Reshapes c c' →
      Splits c' c'' p child k k' m → Reshapes c c''

variable {c c' : RadixCache H}

theorem Reshapes.trans {c'' : RadixCache H} (h : Reshapes c c') (h' : Reshapes c' c'') :
    Reshapes c c'' := by
  induction h' with
  | refl => exact h
  | count _ hs ih => exact .count ih hs
  | split _ hs ih => exact .split ih hs

variable {child m : ℕ} {ns : Namespace} {es : List (Atom × ℤ)}

theorem Splits.held_iff {p : ℕ} {k k' : ChildKey} (s : Splits c c' p child k k' m) :
    Held c' ns es ↔ Held c ns es := by
  have hreads : ∀ {n full}, Reads c.tree entries n full → Reads c'.tree entries n full := by
    intro n full hr
    rw [s.tree]
    exact s.site.reads (entries_split _ _) hr
  have hlink : c'.tree.Linked := by
    rw [s.tree]
    exact s.site.linked_splice
  constructor
  · rintro (rfl | ⟨n, full, hr, hns, hread, hpre, hdvd⟩)
    · exact .inl rfl
    · rw [s.page_size] at hdvd
      rcases s.inTree_iff.mp hread.inTree with hn | rfl
      · obtain ⟨full₀, hread₀⟩ := hn.reads entries
        rw [hlink.reads_unique hread (hreads hread₀)] at hpre
        rw [s.root] at hr
        exact .inr ⟨n, full₀, hr, by rw [← hns, (s.namespace_lock_old hn).1], hread₀, hpre, hdvd⟩
      · -- a sequence that ends in the new node ends in the child it was cut from
        obtain ⟨fp, hfp⟩ := s.site.parent.reads entries
        have hnew : Reads c'.tree entries c.tree.counter (fp ++ entries (upper (c.node child) m)) := by
          rw [s.tree]
          exact s.site.reads_new (entries_split _ _) hfp
        rw [hlink.reads_unique hread hnew, entries_upper] at hpre
        refine .inr ⟨child, _, s.site.linked.ne_root s.site.parent s.site.filed, ?_,
          .child hfp s.site.filed, ?_, hdvd⟩
        · rw [← hns, s.node_new]
          exact (namespace_upto _ _).symm
        · exact hpre.trans ((prefix_append_right_inj fp).mpr ( take_prefix _ _))
  · rintro (rfl | ⟨n, full, hr, hns, hread, hpre, hdvd⟩)
    · exact .inl rfl
    · refine .inr ⟨n, full, by rwa [s.root], ?_, hreads hread, hpre, by rwa [s.page_size]⟩
      rw [(s.namespace_lock_old hread.inTree).1]
      exact hns

theorem SameBooks.held_iff (s : SameBooks c c') : Held c' ns es ↔ Held c ns es := by
  simp only [Held, s.tree, s.node, s.page_size]

namespace Reshapes

variable {c c' : RadixCache H} (r : Reshapes c c')

include r

theorem config : c'.config = c.config := by
  induction r with
  | refl => rfl
  | count _ hs ih => rw [hs.config, ih]
  | split _ hs ih => rw [hs.config, ih]

theorem page_size : c'.page_size = c.page_size := by
  rw [RadixCache.page_size, r.config, RadixCache.page_size]

theorem shape (h : Shape c) : Shape c' := by
  induction r with
  | refl => exact h
  | count _ hs ih => exact ih.congr hs.toSameBooks
  | split _ hs ih => exact hs.shape ih

/-- **What is held stays.** -/
theorem held_iff {ns : Namespace} {es : List (Atom × ℤ)} : Held c' ns es ↔ Held c ns es := by
  induction r with
  | refl => exact Iff.rfl
  | count _ hs ih => exact hs.held_iff.trans ih
  | split _ hs ih => exact hs.held_iff.trans ih

end Reshapes

/-! ## One round of a walk -/

/-- What a walk from `n` along `us` ends with: it has read `es`, the longest held part of `us`
below `n`, and stands at `last`. -/
structure Walked (c c' : RadixCache H) (ns : Namespace) (n : ℕ) (us : List Atom)
    (es : List (Atom × ℤ)) (last : ℕ) : Prop where
  reshapes : Reshapes c c'
  reads : ∀ full, Reads c.tree entries n full → Reads c'.tree entries last (full ++ es)
  follows : es.map Prod.fst <+: us
  aligned : c.page_size ∣ es.length
  in_namespace : last ≠ c'.tree.root → (c'.node last).key.namespace_of = ns
  longest : ∀ es', HeldFrom c ns n es' → es'.map Prod.fst <+: us → es'.length ≤ es.length

namespace Shape

variable {c : RadixCache H} (h : Shape c)

include h

variable {es : List (Atom × ℤ)}

theorem heldFrom_aligned {ns : Namespace} {p : ℕ} (hp : InTree c.tree p) (hes : HeldFrom c ns p es) :
    c.page_size ∣ es.length := by
  induction hes with
  | nil => exact Nat.dvd_zero _
  | part _ _ _ hdvd => exact hdvd
  | @down p n k es hk _ _ ih =>
    have hin : InTree c.tree n := .child hp hk
    rw [length_append]
    exact Nat.dvd_add (h.dvd_length_entries hin (h.linked.ne_root hp hk)) (ih hin)

variable {n child : ℕ} {key : RadixKey} {ck : ChildKey}

section

variable (hn : InTree c.tree n) (hlen : c.page_size ≤ key.len)
  (hck : key.child_key c.page_size = .ok ck)
include hn hlen hck

/-- **A round.** The child filed under the first page of the key is in the key's namespace and
shares at least that page with it. -/
theorem round (hchild : c.tree.child? n ck = some child) :
    (c.node child).key.namespace_of = key.namespace_of ∧
      ∃ m, (c.node child).key.match_key key c.page_size = .ok m ∧ 0 < m ∧
        PageMatch c.page_size (c.node child).key.units key.units m := by
  have hin : InTree c.tree child := .child hn hchild
  have hle := h.page_le hin (h.linked.ne_root hn hchild)
  obtain ⟨hns, hpage⟩ := child_key_inj hle hlen (h.filed n ck child hn hchild) hck
  have hmode := mode_eq_of_take c.page_size_pos hle hpage
  obtain ⟨m, hm, hspec⟩ := match_key_spec c.page_size_pos hns hmode
  refine ⟨hns, m, hm, ?_, hspec⟩
  have hps := hspec.greatest c.page_size (dvd_refl _) (by rwa [length_units])
    (by rwa [length_units]) hpage
  exact Nat.lt_of_lt_of_le c.page_size_pos hps

theorem child_of_heldFrom (hes : HeldFrom c key.namespace_of n es) (hne : es ≠ [])
    (hu : es.map Prod.fst <+: key.units) :
    ∃ child, c.tree.child? n ck = some child ∧ (es <+: entries (c.node child) ∨
      ∃ tail, es = entries (c.node child) ++ tail ∧ HeldFrom c key.namespace_of child tail) := by
  obtain ⟨child, hchild, -, hcase⟩ := h.heldFrom_cases hn hes hne hu
  rw [child_key_eq hlen] at hck
  rw [Except.ok.inj hck] at hchild
  exact ⟨child, hchild, hcase⟩

theorem longest_of_missing (hnone : c.tree.child? n ck = none)
    (hes : HeldFrom c key.namespace_of n es) (hu : es.map Prod.fst <+: key.units) :
    es.length ≤ 0 := by
  by_contra hpos
  have hne : es ≠ [] := by
    rintro rfl
    exact hpos (le_refl _)
  obtain ⟨child, hchild, -⟩ := h.child_of_heldFrom hn hlen hck hes hne hu
  rw [hnone] at hchild
  cases hchild

theorem longest_of_partial {m : ℕ} (hchild : c.tree.child? n ck = some child)
    (hm : PageMatch c.page_size (c.node child).key.units key.units m)
    (hlt : m < (c.node child).key.len) (hes : HeldFrom c key.namespace_of n es)
    (hu : es.map Prod.fst <+: key.units) : es.length ≤ m := by
  by_cases hne : es = []
  · subst hne
    exact Nat.zero_le _
  have hdvd := h.heldFrom_aligned hn hes
  obtain ⟨child', hchild', hcase⟩ := h.child_of_heldFrom hn hlen hck hes hne hu
  have heq : child = child' := Option.some.inj (hchild.symm.trans hchild')
  subst heq
  have hin : InTree c.tree child := .child hn hchild
  have hslots := h.slots hin (h.linked.ne_root hn hchild)
  have htake := prefix_iff_eq_take.mp hu
  rw [length_map] at htake
  have hlenu : es.length ≤ key.units.length := by simpa using hu.length_le
  rcases hcase with hpre | ⟨tail, rfl, -⟩
  · have hpre' := hpre.map Prod.fst
    rw [entries_fst hslots] at hpre'
    have htake' := prefix_iff_eq_take.mp hpre'
    rw [length_map] at htake'
    exact hm.greatest _ hdvd (by simpa using hpre'.length_le) hlenu (htake'.symm.trans htake)
  · -- the whole child would agree with the key
    have hfull : (c.node child).key.units <+: key.units := by
      rw [map_append, entries_fst hslots] at hu
      exact (prefix_append _ _).trans hu
    have hcut := prefix_iff_eq_take.mp hfull
    have := hm.greatest (c.node child).key.len (h.keyed child hin (h.linked.ne_root hn hchild)).2.1
      (by rw [length_units]) (by simpa using hfull.length_le)
      (by
        rw [← length_units, take_length]
        exact hcut)
    omega

theorem longest_of_full {m : ℕ} (hchild : c.tree.child? n ck = some child)
    (hm : m = (c.node child).key.len) {rest : List (Atom × ℤ)}
    (hrest : ∀ es, HeldFrom c key.namespace_of child es → es.map Prod.fst <+: key.units.drop m →
      es.length ≤ rest.length) (hes : HeldFrom c key.namespace_of n es)
    (hu : es.map Prod.fst <+: key.units) : es.length ≤ (entries (c.node child) ++ rest).length := by
  by_cases hne : es = []
  · subst hne
    exact Nat.zero_le _
  obtain ⟨child', hchild', hcase⟩ := h.child_of_heldFrom hn hlen hck hes hne hu
  have heq : child = child' := Option.some.inj (hchild.symm.trans hchild')
  subst heq
  have hin : InTree c.tree child := .child hn hchild
  have hslots := h.slots hin (h.linked.ne_root hn hchild)
  rw [length_append]
  rcases hcase with hpre | ⟨tail, rfl, ht⟩
  · have := hpre.length_le
    omega
  · rw [map_append, entries_fst hslots] at hu
    obtain ⟨more, hmore⟩ := hu
    have htail : tail.map Prod.fst <+: key.units.drop m := by
      refine ⟨more, ?_⟩
      rw [← hmore, append_assoc, hm, ← length_units, drop_left]
    have := hrest tail ht htail
    rw [length_append]
    omega

end

end Shape

/-! ## Lookup -/

variable {n : ℕ} {key : RadixKey}

theorem Shape.walked_split (h : Shape c) {ck k k' : ChildKey} {p : ℕ} (hn : InTree c.tree n)
    (hlen : c.page_size ≤ key.len) (hck : key.child_key c.page_size = .ok ck)
    (hchild : c.tree.child? n ck = some child)
    (hns : (c.node child).key.namespace_of = key.namespace_of)
    (hm : PageMatch c.page_size (c.node child).key.units key.units m)
    (s : Splits c c' p child k k' m) :
    Walked c c' key.namespace_of n key.units (entries (upper (c.node child) m)) c.tree.counter := by
  have hin : InTree c.tree child := .child hn hchild
  have hslots := h.slots hin (h.linked.ne_root hn hchild)
  have hlt := s.lt
  have hlen' : (entries (upper (c.node child) m)).length = m := by
    rw [entries_upper, length_take, length_entries hslots]
    omega
  obtain ⟨rfl, rfl⟩ := s.site.edge_cut hn hchild
  refine ⟨.split (.refl c) s, ?_, ?_, ?_, ?_, ?_⟩
  · intro full hfull
    rw [s.tree]
    exact s.site.reads_new (entries_split _ _) hfull
  · rw [entries_upper, map_take, entries_fst hslots, hm.agrees]
    exact take_prefix _ _
  · rw [hlen']
    exact hm.aligned
  · intro _
    rw [s.node_new, ← hns]
    exact namespace_upto _ _
  · intro es hes hu
    rw [hlen']
    exact h.longest_of_partial hn hlen hck hchild hm s.lt hes hu

variable {last : ℕ} {rest : List (Atom × ℤ)}

theorem Shape.walked_down (h : Shape c) {ck : ChildKey} (hn : InTree c.tree n)
    (hlen : c.page_size ≤ key.len) (hck : key.child_key c.page_size = .ok ck)
    (hchild : c.tree.child? n ck = some child)
    (hm : PageMatch c.page_size (c.node child).key.units key.units (c.node child).key.len)
    (w : Walked c c' key.namespace_of child (key.units.drop (c.node child).key.len) rest last) :
    Walked c c' key.namespace_of n key.units (entries (c.node child) ++ rest) last := by
  have hin : InTree c.tree child := .child hn hchild
  have hnr := h.linked.ne_root hn hchild
  have hslots := h.slots hin hnr
  refine ⟨w.reshapes, ?_, ?_, ?_, w.in_namespace, ?_⟩
  · intro full hfull
    rw [← append_assoc]
    exact w.reads _ (.child hfull hchild)
  · have hagree := hm.agrees
    rw [← length_units, take_length, length_units] at hagree
    rw [map_append, entries_fst hslots, hagree]
    obtain ⟨more, hmore⟩ := w.follows
    refine ⟨more, ?_⟩
    rw [append_assoc, hmore, take_append_drop]
  · rw [length_append]
    exact Nat.dvd_add (h.dvd_length_entries hin hnr) w.aligned
  · intro es hes hu
    exact h.longest_of_full hn hlen hck hchild rfl w.longest hes hu

variable {us : List Atom}

theorem walked_refl (hns : n ≠ c.tree.root → (c.node n).key.namespace_of = ns)
    (hlong : ∀ es, HeldFrom c ns n es → es.map Prod.fst <+: us → es.length ≤ 0) :
    Walked c c ns n us [] n where
  reshapes := .refl c
  reads full hfull := by rwa [append_nil]
  follows := nil_prefix
  aligned := Nat.dvd_zero _
  in_namespace := hns
  longest es hes hu := hlong es hes hu

/-- **The lookup loop** reads the longest held part of the key. -/
theorem match_loop_spec (h : Shape c) (fuel : ℕ) :
    ∀ {n : ℕ} {key : RadixKey} {ck : ChildKey} {value : List (List ℤ)}, InTree c.tree n →
      (n ≠ c.tree.root → (c.node n).key.namespace_of = key.namespace_of) → key.len < fuel →
      c.page_size ∣ key.len → (0 < key.len → key.child_key c.page_size = .ok ck) →
      ∃ c' value' last es, c.match_loop fuel n key ck value = .ok (c', value', last) ∧
        value'.flatten = value.flatten ++ es.map Prod.snd ∧
        Walked c c' key.namespace_of n key.units es last := by
  induction fuel with
  | zero =>
    intro n key ck value _ _ hfuel
    omega
  | succ fuel ih =>
    intro n key ck value hn hns hfuel hdvd hck
    rw [RadixCache.match_loop]
    by_cases hpos : key.len > 0
    · have hlen : c.page_size ≤ key.len := Nat.le_of_dvd hpos hdvd
      have hck' := hck hpos
      rw [if_pos hpos]
      cases hchild : c.tree.child? n ck with
      | none =>
        refine ⟨c, value, n, [], rfl, by simp, walked_refl hns ?_⟩
        intro es hes hu
        exact h.longest_of_missing hn hlen hck' hchild hes hu
      | some child =>
        have hin : InTree c.tree child := .child hn hchild
        have hnr := h.linked.ne_root hn hchild
        obtain ⟨hcns, m, hmatch, hmpos, hm⟩ := h.round hn hlen hck' hchild
        have hslots := h.slots hin hnr
        dsimp only
        rw [hmatch, Fallible.ok_bind]
        by_cases hlt : m < (c.node child).key.len
        · obtain ⟨p, k, k', c', hsplit, s⟩ := split_node_spec h hin hnr hmpos hlt hm.aligned
          rw [if_pos hlt, hsplit]
          refine ⟨c', _, _, _, rfl, ?_, h.walked_split hn hlen hck' hchild hcns hm s⟩
          rw [s.node_new, entries_upper, map_take, entries_snd hslots]
          simp [upper]
        · have hml : m = (c.node child).key.len := by
            have := hm.le_left
            rw [length_units] at this
            omega
          subst hml
          rw [if_neg hlt]
          have hrest : c.page_size ∣ (key.after (c.node child).key.len).len := by
            rw [len_after]
            exact Nat.dvd_sub hdvd hm.aligned
          have hsmall : (key.after (c.node child).key.len).len < fuel := by
            rw [len_after]
            omega
          have hns' : child ≠ c.tree.root →
              (c.node child).key.namespace_of
                = (key.after (c.node child).key.len).namespace_of := by
            intro _
            rw [namespace_after]
            exact hcns
          -- both branches go on with the rest of the key below the child
          have hgo : ∀ ck', (0 < (key.after (c.node child).key.len).len →
              (key.after (c.node child).key.len).child_key c.page_size = .ok ck') →
              ∃ c' value' last es, c.match_loop fuel child (key.after (c.node child).key.len) ck'
                  (value ++ [(c.node child).value]) = .ok (c', value', last) ∧
                value'.flatten = value.flatten ++ es.map Prod.snd ∧
                Walked c c' key.namespace_of n key.units es last := by
            intro ck' hck''
            obtain ⟨c', value', last, es, hok, hval, w⟩ := @ih child
              (key.after (c.node child).key.len) ck' (value ++ [(c.node child).value])
              hin hns' hsmall hrest hck''
            rw [namespace_after, units_after] at w
            refine ⟨c', value', last, _, hok, ?_, h.walked_down hn hlen hck' hchild hm w⟩
            rw [hval, map_append, entries_snd hslots]
            simp
          by_cases hmore : (key.after (c.node child).key.len).len > 0
          · have hck'' := child_key_eq (Nat.le_of_dvd hmore hrest)
            rw [if_pos hmore, hck'']
            exact hgo _ (fun _ => hck'')
          · rw [if_neg hmore]
            exact hgo _ (fun hp => absurd hp hmore)
    · rw [if_neg hpos]
      refine ⟨c, value, n, [], rfl, by simp, walked_refl hns ?_⟩
      intro es _ hu
      have := hu.length_le
      rw [length_map, length_units] at this
      omega

/-! ## The walk of an insertion -/

theorem SameBooks.heldFrom (s : SameBooks c c') (h : HeldFrom c ns n es) : HeldFrom c' ns n es := by
  induction h with
  | nil n => exact .nil n
  | part hk hns hpre hdvd =>
    refine .part (by rwa [s.tree]) (by rwa [s.node]) (by rwa [s.node]) (by rwa [s.page_size])
  | @down p n k es hk hns _ ih =>
    rw [← s.node n]
    exact .down (by rwa [s.tree]) (by rwa [s.node]) ih

variable {b : RadixCache H}

theorem Walked.of_same (s : SameRecords c b) (w : Walked b c' ns n us es last) :
    Walked c c' ns n us es last where
  reshapes := (Reshapes.count (.refl c) s).trans w.reshapes
  reads full hfull := w.reads full (by rwa [s.tree])
  follows := w.follows
  aligned := by
    rw [← s.page_size]
    exact w.aligned
  in_namespace := w.in_namespace
  longest es' hes hu := w.longest es' (s.toSameBooks.heldFrom hes) hu

theorem Walked.append {mid : ℕ} (w : Walked c b ns n us es mid)
    (w' : Walked b c' ns mid (us.drop es.length) rest last) :
    Walked c c' ns n us (es ++ rest) last where
  reshapes := w.reshapes.trans w'.reshapes
  reads full hfull := by
    rw [← append_assoc]
    exact w'.reads _ (w.reads full hfull)
  follows := by
    have htake := prefix_iff_eq_take.mp w.follows
    rw [length_map] at htake
    obtain ⟨more, hmore⟩ := w'.follows
    refine ⟨more, ?_⟩
    rw [map_append, append_assoc, hmore, htake, take_append_drop]
  aligned := by
    rw [length_append]
    refine Nat.dvd_add w.aligned ?_
    rw [← w.reshapes.page_size]
    exact w'.aligned
  in_namespace := w'.in_namespace
  longest es' hes hu := by
    rw [length_append]
    exact Nat.le_add_right_of_le (w.longest es' hes hu)

/-- What the loop of an insertion leaves: the rest of the key and of the value, to be filed below
`last`, where its first page is free. -/
structure Inserting (c c' : RadixCache H) (n : ℕ) (key : RadixKey) (value : List ℤ)
    (last : ℕ) (key' : RadixKey) (value' : List ℤ) (ck' : ChildKey) (es : List (Atom × ℤ)) :
    Prop where
  walked : Walked c c' key.namespace_of n key.units es last
  units : key'.units = key.units.drop es.length
  same_namespace : key'.namespace_of = key.namespace_of
  value : value' = value.drop es.length
  vacant : 0 < key'.len → key'.child_key c'.page_size = .ok ck' ∧ c'.tree.child? last ck' = none

theorem Inserting.cons {mid : ℕ} {key' : RadixKey} {value value' : List ℤ} {ck' : ChildKey}
    (hm : es.length = m)
    (w : ∀ last rest, Walked b c' key.namespace_of mid (key.units.drop m) rest last →
      Walked c c' key.namespace_of n key.units (es ++ rest) last)
    (i : Inserting b c' mid (key.after m) (value.drop m) last key' value' ck' rest) :
    Inserting c c' n key value last key' value' ck' (es ++ rest) where
  walked := by
    have hw := i.walked
    rw [namespace_after, units_after] at hw
    exact w last rest hw
  units := by
    rw [i.units, units_after, drop_drop, length_append, hm]
  same_namespace := by rw [i.same_namespace, namespace_after]
  value := by rw [i.value, drop_drop, length_append, hm]
  vacant := i.vacant

/-- **The insertion loop** reads the longest held part of the key. -/
theorem insert_loop_spec (priority : ℤ) (chunked : Bool) (fuel : ℕ) :
    ∀ {c : RadixCache H} {n : ℕ} {key : RadixKey} {value : List ℤ} {ck : ChildKey} {total : ℕ},
      Shape c → InTree c.tree n →
      (n ≠ c.tree.root → (c.node n).key.namespace_of = key.namespace_of) → key.len < fuel →
      c.page_size ∣ key.len → (0 < key.len → key.child_key c.page_size = .ok ck) →
      ∃ c' last key' value' ck' es, c.insert_loop priority chunked fuel n key value ck total
          = .ok (c', last, key', value', ck', total + es.length) ∧
        Inserting c c' n key value last key' value' ck' es := by
  induction fuel with
  | zero =>
    intro c n key value ck total _ _ _ hfuel
    omega
  | succ fuel ih =>
    intro c n key value ck total h hn hns hfuel hdvd hck
    rw [RadixCache.insert_loop]
    by_cases hpos : key.len > 0
    · have hlen : c.page_size ≤ key.len := Nat.le_of_dvd hpos hdvd
      have hck' := hck hpos
      rw [if_pos hpos]
      cases hchild : c.tree.child? n ck with
      | none =>
        refine ⟨c, n, key, value, ck, [], by simp; rfl, walked_refl hns ?_, by simp, rfl,
          by simp, fun _ => ⟨hck', hchild⟩⟩
        intro es hes hu
        exact h.longest_of_missing hn hlen hck' hchild hes hu
      | some child =>
        have hin : InTree c.tree child := .child hn hchild
        have hnr := h.linked.ne_root hn hchild
        obtain ⟨hcns, m, hmatch, hmpos, hm⟩ := h.round hn hlen hck' hchild
        have hslots := h.slots hin hnr
        dsimp only
        rw [hmatch, Fallible.ok_bind]
        have hrest : c.page_size ∣ (key.after m).len := by
          rw [len_after]
          exact Nat.dvd_sub hdvd hm.aligned
        have hsmall : (key.after m).len < fuel := by
          rw [len_after]
          omega
        -- both branches go on with the rest of the key, from `mid` in a state `b`
        have hgo : ∀ {b : RadixCache H} {mid : ℕ} {es : List (Atom × ℤ)}, Shape b →
            b.config = c.config → InTree b.tree mid → es.length = m →
            (mid ≠ b.tree.root → (b.node mid).key.namespace_of = key.namespace_of) →
            (∀ {c'} last rest, Walked b c' key.namespace_of mid (key.units.drop m) rest last →
              Walked c c' key.namespace_of n key.units (es ++ rest) last) →
            ∃ c' last key' value' ck' es',
              (if (key.after m).len > 0 then do
                  let child_key ← (key.after m).child_key b.page_size
                  b.insert_loop priority chunked fuel mid (key.after m) (value.drop m) child_key
                    (total + m)
                else b.insert_loop priority chunked fuel mid (key.after m) (value.drop m) ck
                  (total + m)) = .ok (c', last, key', value', ck', total + es'.length) ∧
              Inserting c c' n key value last key' value' ck' es' := by
          intro b mid es hb hconf hmid hes hmns hw
          have hps : b.page_size = c.page_size := by
            rw [RadixCache.page_size, hconf, RadixCache.page_size]
          have hrun : ∀ ck', (0 < (key.after m).len →
              (key.after m).child_key b.page_size = .ok ck') →
              ∃ c' last key' value' ck'' es',
                b.insert_loop priority chunked fuel mid (key.after m) (value.drop m) ck'
                  (total + m) = .ok (c', last, key', value', ck'', total + es'.length) ∧
                Inserting c c' n key value last key' value' ck'' es' := by
            intro ck' hck''
            obtain ⟨c', last, key', value', ck'', rest, hok, hi⟩ :=
              @ih b mid (key.after m) (value.drop m) ck' (total + m) hb hmid
                (by rwa [namespace_after]) hsmall (by rwa [hps]) hck''
            refine ⟨c', last, key', value', ck'', es ++ rest, ?_, hi.cons hes hw⟩
            rw [hok, length_append, hes, Nat.add_assoc]
          by_cases hmore : (key.after m).len > 0
          · have hpage : b.page_size ≤ (key.after m).len := by
              rw [hps]
              exact Nat.le_of_dvd hmore hrest
            have hck'' := child_key_eq hpage
            rw [if_pos hmore, hck'']
            exact hrun _ (fun _ => hck'')
          · rw [if_neg hmore]
            exact hrun ck (fun hp => absurd hp hmore)
        by_cases hlt : m < (c.node child).key.len
        · obtain ⟨p, k, k', c₁, hsplit, s⟩ := split_node_spec h hin hnr hmpos hlt hm.aligned
          rw [if_pos hlt, hsplit]
          have w := h.walked_split hn hlen hck' hchild hcns hm s
          have same := (SameRecords.raise_priority c₁ c.tree.counter priority)
          have same' := SameRecords.inc_hit_count
            (c₁.raise_priority c.tree.counter priority) c.tree.counter chunked
          have hesl : (entries (upper (c.node child) m)).length = m := by
            rw [entries_upper, length_take, length_entries hslots]
            omega
          refine hgo (((s.shape h).congr same.toSameBooks).congr same'.toSameBooks) ?_ ?_ hesl
            ?_ ?_
          · rw [same'.config, same.config, s.config]
          · rw [same'.tree]
            exact s.inTree_iff.mpr (.inr rfl)
          · rw [same'.tree, same'.node]
            exact w.in_namespace
          · intro c' last rest hw
            have hw' := Walked.of_same same (Walked.of_same same' hw)
            rw [← hesl] at hw'
            exact w.append hw'
        · have hml : m = (c.node child).key.len := by
            have := hm.le_left
            rw [length_units] at this
            omega
          rw [if_neg hlt]
          have same := SameRecords.raise_priority c child priority
          have same' := SameRecords.inc_hit_count (c.raise_priority child priority) child chunked
          have hesl : (entries (c.node child)).length = m := by
            rw [length_entries hslots, hml]
          refine hgo ((h.congr same.toSameBooks).congr same'.toSameBooks) ?_ ?_ hesl ?_ ?_
          · rw [same'.config, same.config]
          · rw [same'.tree]
            exact hin
          · rw [same'.node]
            exact fun _ => hcns
          · intro c' last rest hw
            subst hml
            exact h.walked_down hn hlen hck' hchild hm (Walked.of_same same (Walked.of_same same' hw))
    · rw [if_neg hpos]
      refine ⟨c, n, key, value, ck, [], by simp; rfl, walked_refl hns ?_, by simp, rfl, by simp,
        fun hp => absurd hp hpos⟩
      intro es _ hu
      have := hu.length_le
      rw [length_map, length_units] at this
      omega

end LightningH3.Radix
