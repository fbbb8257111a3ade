/-
The hashes the radix cache publishes for its pages.

A node's published hashes are a piece of the chain over the pages of its path, seeded by the salt.
They are computed when the node is stored, from the last hash of the parent, and divided when the
node is split, so `Hashed` says the same of every node: its hashes are the chain over its own
pages, continued from what its parent's path ends with. Storing and removing a node then never
raises, and the events are those of the chain.
-/
import LightningH3.RadixCacheWalk

set_option autoImplicit false

namespace LightningH3.Radix

open Arena RadixKey List Function

variable {H : Type} (F : HashFns H)

/-! ## Pages and chains -/

theorem length_pages (page_size : ℕ) (us : List Atom) :
    (pages page_size us).length = (us.length + page_size - 1) / page_size := by
  rw [pages, length_map, length_range]

variable {page_size : ℕ} {us : List Atom}

theorem length_pages_of_dvd (hp : 0 < page_size) (h : page_size ∣ us.length) :
    (pages page_size us).length = us.length / page_size := by
  obtain ⟨q, hq⟩ := h
  rw [length_pages, hq, Nat.mul_div_cancel_left q hp, Nat.add_sub_assoc hp,
    Nat.mul_add_div hp, Nat.div_eq_of_lt (by omega), Nat.add_zero]

variable {vs : List Atom}

theorem pages_append (hp : 0 < page_size) (h : page_size ∣ us.length) :
    pages page_size (us ++ vs) = pages page_size us ++ pages page_size vs := by
  obtain ⟨q, hq⟩ := h
  have hcount : (us ++ vs).length + page_size - 1 = page_size * q + (vs.length + page_size - 1) := by
    rw [length_append]
    omega
  apply ext_getElem
  · rw [length_append, length_pages, hcount, Nat.mul_add_div hp,
      length_pages_of_dvd hp ⟨q, hq⟩, hq, Nat.mul_div_cancel_left q hp, length_pages]
  · intro i h₁ h₂
    have hlen : (pages page_size us).length = q := by
      rw [length_pages_of_dvd hp ⟨q, hq⟩, hq, Nat.mul_div_cancel_left q hp]
    rw [getElem_append]
    split
    · rename_i hi
      rw [hlen] at hi
      have hi' : i * page_size + page_size ≤ us.length := by
        rw [hq, Nat.mul_comm]
        exact Nat.mul_le_mul_left page_size hi
      simp only [pages, getElem_map, getElem_range]
      rw [drop_append_of_le_length (by omega), take_append_of_le_length]
      rw [length_drop]
      omega
    · simp only [pages, getElem_map, getElem_range]
      have hmul : i * page_size = us.length + (i - q) * page_size := by
        rw [hq, Nat.mul_comm page_size q, ← Nat.add_mul]
        congr 1
        omega
      have hlen' : (List.map (fun i => List.take page_size (List.drop (i * page_size) us))
          (List.range ((us.length + page_size - 1) / page_size))).length = q := hlen
      simp only [hlen']
      rw [drop_append, drop_eq_nil_of_le (by omega), nil_append]
      congr 2
      omega

theorem pages_nil (hp : 0 < page_size) : pages page_size [] = [] := by
  apply eq_nil_of_length_eq_zero
  rw [length_pages_of_dvd hp (Nat.dvd_zero _), length_nil, Nat.zero_div]

theorem pages_page (hp : 0 < page_size) {page : List Atom} (hpage : page.length = page_size) :
    pages page_size page = [page] := by
  have hone : (page.length + page_size - 1) / page_size = 1 := by
    apply Nat.div_eq_of_lt_le <;> omega
  rw [pages, hone]
  simp [take_of_length_le hpage.le]

theorem pages_cons (hp : 0 < page_size) {page : List Atom} (hpage : page.length = page_size) :
    pages page_size (page ++ vs) = page :: pages page_size vs := by
  rw [pages_append hp (by rw [hpage]), pages_page hp hpage]
  rfl

@[simp] theorem length_hash_pages (prior : Option H) (ps : List (List Atom)) :
    (hash_pages F prior ps).length = ps.length := by
  induction ps generalizing prior with
  | nil => rfl
  | cons p ps ih => rw [hash_pages, length_cons, ih, length_cons]

theorem hash_pages_append (prior : Option H) (ps qs : List (List Atom)) :
    hash_pages F prior (ps ++ qs) = hash_pages F prior ps ++
      hash_pages F ((hash_pages F prior ps).getLast?.or prior) qs := by
  induction ps generalizing prior with
  | nil => rfl
  | cons p ps ih =>
    rw [cons_append, hash_pages, ih, hash_pages]
    congr 3
    cases hps : hash_pages F (some (F.page prior p)) ps with
    | nil => rfl
    | cons x xs =>
      rfl

/-- The seed of a namespace's event chain: the salt counts, the extra key does not. -/
def seed (ns : Namespace) : Option H := ns.2.map F.salt_digest

/-- The chain over a path in a namespace. -/
def chain (page_size : ℕ) (ns : Namespace) (us : List Atom) : List H :=
  hash_pages F (seed F ns) (pages page_size us)

/-- What the chain of a longer path goes on from. -/
def link (page_size : ℕ) (ns : Namespace) (us : List Atom) : Option H :=
  (chain F page_size ns us).getLast?.or (seed F ns)

theorem chain_append (hp : 0 < page_size) (ns : Namespace) (h : page_size ∣ us.length) :
    chain F page_size ns (us ++ vs)
      = chain F page_size ns us ++ hash_pages F (link F page_size ns us) (pages page_size vs) := by
  rw [chain, pages_append hp h, hash_pages_append]
  rfl

theorem link_append (hp : 0 < page_size) (ns : Namespace) (h : page_size ∣ us.length) :
    link F page_size ns (us ++ vs)
      = (hash_pages F (link F page_size ns us) (pages page_size vs)).getLast?.or
          (link F page_size ns us) := by
  rw [link, chain_append F hp ns h, getLast?_append, Option.or_assoc]
  rfl

theorem link_nil (page_size : ℕ) (hp : 0 < page_size) (ns : Namespace) :
    link F page_size ns [] = seed F ns := by
  rw [link, chain, pages_nil hp]
  rfl

theorem link_eq_last (hp : 0 < page_size) (ns : Namespace) (h : page_size ∣ us.length)
    (hne : us ≠ []) :
    ∃ x, (chain F page_size ns us).getLast? = some x ∧ link F page_size ns us = some x := by
  have hpos : 0 < (chain F page_size ns us).length := by
    rw [chain, length_hash_pages, length_pages_of_dvd hp h]
    exact Nat.div_pos (Nat.le_of_dvd (length_pos_iff.mpr hne) h) hp
  have hlast := getLast?_eq_some_getLast (length_pos_iff.mp hpos)
  exact ⟨_, hlast, by rw [link, hlast]; rfl⟩

/-! ## The published hashes of a node -/

def units_of (d : TreeNode) : List Atom := d.key.units

/-- No namespace: neither an extra key nor a salt. -/
def Plain (k : RadixKey) : Prop := k.extra_key = none ∧ k.cache_salt = none

instance (k : RadixKey) : Decidable (Plain k) := inferInstanceAs (Decidable (_ ∧ _))

theorem plain_iff (k : RadixKey) : Plain k ↔ k.namespace_of = (none, none) := by
  rw [Plain, namespace_of, Prod.mk.injEq]

/-- The hashes a node's events are made from, as far as they are computed. -/
def published (c : RadixCache H) (n : ℕ) : Option (List H) :=
  if Plain (c.node n).key then (c.info n).hash_value else (c.info n).event_hash_value

/-- The hashes a node should carry when `us` is read to its parent: the chain over its own pages,
continued from its parent's path. -/
def node_hashes (c : RadixCache H) (n : ℕ) (us : List Atom) : List H :=
  hash_pages F (link F c.page_size (c.node n).key.namespace_of us)
    (pages c.page_size (c.node n).key.units)

/-- **Hashes on the tree.** While events are recorded, every node carries its part of the chain;
the root carries none. -/
structure Hashed (c : RadixCache H) : Prop where
  root_hash : (c.info c.tree.root).event_hash_value = none
  nodes : c.config.enable_kv_cache_events = true → ∀ p k n us, Reads c.tree units_of p us →
    c.tree.child? p k = some n → published c n = some (node_hashes F c n us)

variable {c : RadixCache H} {n : ℕ}

theorem Shape.dvd_length_units (h : Shape c) (hr : Reads c.tree units_of n us) :
    c.page_size ∣ us.length := by
  induction hr with
  | root => exact Nat.dvd_zero _
  | @child p n k us hp hk ih =>
    rw [length_append]
    refine Nat.dvd_add ih ?_
    have hlen : (units_of (c.tree.data n)).length = (c.node n).key.len := length_units _
    rw [hlen]
    exact (h.keyed n (.child hp.inTree hk) (h.linked.ne_root hp.inTree hk)).2.1

variable {c' : RadixCache H}

theorem published_congr (hkey : (c'.node n).key.namespace_of = (c.node n).key.namespace_of)
    (hh : (c'.info n).hash_value = (c.info n).hash_value)
    (he : (c'.info n).event_hash_value = (c.info n).event_hash_value) :
    published c' n = published c n := by
  have hiff : Plain (c'.node n).key ↔ Plain (c.node n).key := by
    rw [plain_iff, plain_iff, hkey]
  unfold published
  simp only [hiff, hh, he]

theorem SameRecords.hashed (s : SameRecords c c') (h : Hashed F c) : Hashed F c' where
  root_hash := by
    rw [s.tree, (s.hashes _).2]
    exact h.root_hash
  nodes hen p k n us hr hk := by
    rw [s.config] at hen
    rw [s.tree] at hr hk
    rw [published_congr (by rw [s.node]) (s.hashes n).1 (s.hashes n).2, node_hashes, s.node,
      s.page_size]
    exact h.nodes hen p k n us hr hk

/-! ## Splits -/

theorem split_hash_value_eq {hash_value : Option (List H)} {m : ℕ} :
    split_node_hash_value hash_value m page_size
      = (hash_value.map (·.take (m / page_size)), hash_value.map (·.drop (m / page_size))) := by
  unfold split_node_hash_value
  by_cases h1 : page_size = 1
  · subst h1
    simp
  · simp [h1]

section splits

variable {c c' : RadixCache H} {p child : ℕ} {k k' : ChildKey} {m : ℕ}
  (s : Splits c c' p child k k' m)

include s

theorem Splits.published_new :
    published c' c.tree.counter = (published c child).map (·.take (m / c.page_size)) := by
  have hplain : Plain (c'.node c.tree.counter).key ↔ Plain (c.node child).key := by
    rw [plain_iff, plain_iff, s.node_new]
    simp only [upper, namespace_upto]
  have hne : c.tree.counter ≠ child := s.site.child_lt.ne'
  unfold published
  rw [s.info]
  simp only [hplain, split_info, split_hash_value_eq, update_of_ne hne, update_self]
  split <;> rfl

theorem Splits.published_child :
    published c' child = (published c child).map (·.drop (m / c.page_size)) := by
  have hplain : Plain (c'.node child).key ↔ Plain (c.node child).key := by
    rw [plain_iff, plain_iff, s.node_child]
    simp only [lower, namespace_after]
  unfold published
  rw [s.info]
  simp only [hplain, split_info, split_hash_value_eq, update_self]
  split <;> rfl

theorem Splits.published_other {n : ℕ} (hn : InTree c.tree n) (hne : n ≠ child) :
    published c' n = published c n := by
  have hnc := s.ne_counter hn
  refine published_congr (s.namespace_lock_old hn).1 ?_ ?_
  · rw [s.info]
    simp only [split_info, update_of_ne hne, update_of_ne hnc]
  · rw [s.info]
    simp only [split_info, update_of_ne hne, update_of_ne hnc]

theorem Splits.hash_pages_parts (prior : Option H) :
    (hash_pages F prior (pages c.page_size (c.node child).key.units)).take (m / c.page_size)
        = hash_pages F prior (pages c.page_size ((c.node child).key.units.take m)) ∧
      (hash_pages F prior (pages c.page_size (c.node child).key.units)).drop (m / c.page_size)
        = hash_pages F ((hash_pages F prior
            (pages c.page_size ((c.node child).key.units.take m))).getLast?.or prior)
          (pages c.page_size ((c.node child).key.units.drop m)) := by
  have hlt := s.lt
  have hlen : ((c.node child).key.units.take m).length = m := by
    rw [length_take, length_units]
    omega
  have hdvd : c.page_size ∣ ((c.node child).key.units.take m).length := by
    rw [hlen]
    exact s.aligned
  have hcount : (hash_pages F prior (pages c.page_size ((c.node child).key.units.take m))).length
      = m / c.page_size := by
    rw [length_hash_pages, length_pages_of_dvd c.page_size_pos hdvd, hlen]
  have hsplit : pages c.page_size (c.node child).key.units
      = pages c.page_size ((c.node child).key.units.take m)
        ++ pages c.page_size ((c.node child).key.units.drop m) := by
    rw [← pages_append c.page_size_pos hdvd, take_append_drop]
  rw [hsplit, hash_pages_append, ← hcount]
  exact ⟨take_left, drop_left⟩

theorem Splits.reads_units {n : ℕ} {us : List Atom} (hr : Reads c.tree units_of n us) :
    Reads c'.tree units_of n us := by
  rw [s.tree]
  refine s.site.reads ?_ hr
  simp only [units_of, upper, lower, units_upto, units_after, take_append_drop]
  rfl

theorem Splits.reads_units_new {us : List Atom} (hr : Reads c.tree units_of p us) :
    Reads c'.tree units_of c.tree.counter (us ++ (c.node child).key.units.take m) := by
  have hdiv : units_of (upper (c.node child) m) ++ units_of (lower (c.node child) m)
      = units_of (c.tree.data child) := by
    simp only [units_of, upper, lower, units_upto, units_after, take_append_drop]
    rfl
  have hupper : (c.node child).key.units.take m = units_of (upper (c.node child) m) := by
    rw [units_of, upper, units_upto]
  rw [s.tree, hupper]
  exact s.site.reads_new hdiv hr

/-- **A split divides the hashes.** -/
theorem Splits.hashed (h : Shape c) (hh : Hashed F c) : Hashed F c' where
  root_hash := by
    have hrc : c.tree.root ≠ child := (h.linked.ne_root s.site.parent s.site.filed).symm
    rw [s.root, s.info]
    simp only [split_info, update_of_ne hrc, update_of_ne (s.ne_counter .root)]
    exact hh.root_hash
  nodes hen q key n us hr hk := by
    have hlink' : c'.tree.Linked := (s.shape h).linked
    rw [s.config] at hen
    obtain ⟨up, hup⟩ := s.site.parent.reads units_of
    have hpub := hh.nodes hen p k child up hup s.site.filed
    have hparts := s.hash_pages_parts F (link F c.page_size (c.node child).key.namespace_of up)
    rw [node_hashes, s.page_size]
    rcases s.edge_cases hr.inTree hk with ⟨rfl, -, rfl⟩ | ⟨rfl, -, rfl⟩ | ⟨hq, hk', hne⟩
    · rw [hlink'.reads_unique hr (s.reads_units_new hup), s.published_child, hpub, Option.map_some,
        node_hashes, hparts.2, s.node_child]
      simp only [lower, namespace_after, units_after]
      rw [link_append F c.page_size_pos _ (h.dvd_length_units hup)]
    · rw [hlink'.reads_unique hr (s.reads_units hup), s.published_new, hpub, Option.map_some,
        node_hashes, hparts.1, s.node_new]
      simp only [upper, namespace_upto, units_upto]
    · obtain ⟨us₀, hus₀⟩ := hq.reads units_of
      have hin : InTree c.tree n := .child hq hk'
      rw [hlink'.reads_unique hr (s.reads_units hus₀), s.published_other hin hne,
        s.node_other hne (s.ne_counter hin)]
      exact hh.nodes hen q key n us₀ hus₀ hk'

end splits

theorem Reshapes.hashed (r : Reshapes c c') (h : Shape c) (hh : Hashed F c) : Hashed F c' := by
  induction r with
  | refl => exact hh
  | count _ hs ih => exact hs.hashed F ih
  | split hr hs ih => exact hs.hashed F (hr.shape h) ih

theorem Reshapes.queue (r : Reshapes c c') : c'.queue = c.queue := by
  induction r with
  | refl => rfl
  | count _ hs ih => rw [hs.queue, ih]
  | split _ hs ih => rw [hs.queue, ih]

/-! ## Recording -/

/-- A state that differs from `c` in the hashes of `n` and in the queue. -/
structure Records (c c' : RadixCache H) (n : ℕ) : Prop extends SameBooks c c' where
  info : ∀ m, m ≠ n → c'.info m = c.info m

theorem Records.set_info (c : RadixCache H) (n : ℕ) (i : NodeInfo H) : Records c (c.set_info n i) n where
  toSameBooks := SameBooks.set_info c n i
  info m hm := by simp [RadixCache.set_info, hm]

theorem Records.published {m : ℕ} (r : Records c c' n) (hm : m ≠ n) :
    Radix.published c' m = Radix.published c m :=
  published_congr (by rw [r.node]) (by rw [r.info m hm]) (by rw [r.info m hm])

theorem SameBooks.node_hashes (s : SameBooks c c') (n : ℕ) (us : List Atom) :
    Radix.node_hashes F c' n us = Radix.node_hashes F c n us := by
  rw [Radix.node_hashes, Radix.node_hashes, s.node, s.page_size]

/-- What a new leaf finds above it: it hangs below `p`, and every other node carries its hashes. -/
structure Unhashed (c : RadixCache H) (p n : ℕ) (k : ChildKey) (us : List Atom) : Prop where
  shape : Shape c
  reads : Reads c.tree units_of p us
  filed : c.tree.child? p k = some n
  root_hash : (c.info c.tree.root).event_hash_value = none
  others : c.config.enable_kv_cache_events = true → ∀ q k' m vs, Reads c.tree units_of q vs →
    c.tree.child? q k' = some m → m ≠ n → published c m = some (node_hashes F c m vs)
  event_hash_value : (c.info n).event_hash_value = none

namespace Unhashed

variable {F} {c : RadixCache H} {p n : ℕ} {k : ChildKey} {us : List Atom} (u : Unhashed F c p n k us)

include u

theorem parent : (c.tree.cell n).parent = some p :=
  u.shape.linked.child_parent p k n u.reads.inTree u.filed

theorem ne_root : n ≠ c.tree.root := u.shape.linked.ne_root u.reads.inTree u.filed

theorem inTree : InTree c.tree n := .child u.reads.inTree u.filed

theorem key_pos : 0 < (c.node n).key.len := (u.shape.keyed n u.inTree u.ne_root).1

section

variable (hen : c.config.enable_kv_cache_events = true)
include hen

theorem parent_hashes (hp : p ≠ c.tree.root) :
    (c.node p).key.namespace_of = (c.node n).key.namespace_of ∧
      ∃ hs x, published c p = some hs ∧ hs.getLast? = some x ∧
        link F c.page_size (c.node n).key.namespace_of us = some x ∧
        (chain F c.page_size (c.node n).key.namespace_of us).getLast? = some x := by
  have hns := u.shape.uniform p k n u.reads.inTree hp u.filed
  refine ⟨hns.symm, ?_⟩
  obtain ⟨q, k', hq, -, hk', -⟩ := u.shape.exists_parent u.reads.inTree hp
  obtain ⟨vs, hvs⟩ := hq.reads units_of
  have hpn : p ≠ n := u.shape.linked.child_ne u.reads.inTree u.filed
  have hus : us = vs ++ (c.node p).key.units :=
    u.shape.linked.reads_unique u.reads (.child hvs hk')
  have hdvd := u.shape.dvd_length_units hvs
  have hne : us ≠ [] := by
    intro hnil
    have hlen := congrArg List.length (hus.symm.trans hnil)
    rw [length_append, length_units, length_nil] at hlen
    have := (u.shape.keyed p u.reads.inTree hp).1
    omega
  obtain ⟨x, hx, hlx⟩ := link_eq_last F c.page_size_pos (c.node n).key.namespace_of
    (u.shape.dvd_length_units u.reads) hne
  refine ⟨node_hashes F c p vs, x, u.others hen q k' p vs hvs hk' hpn, ?_, hlx, hx⟩
  -- the pages of the parent are not empty, so its last hash is the last of the chain
  have hnp : 0 < (node_hashes F c p vs).length := by
    rw [node_hashes, length_hash_pages, length_pages_of_dvd c.page_size_pos
      (by rw [length_units]; exact (u.shape.keyed p u.reads.inTree hp).2.1), length_units]
    exact Nat.div_pos (u.shape.page_le u.reads.inTree hp) c.page_size_pos
  have hlast := getLast?_eq_some_getLast (length_pos_iff.mp hnp)
  rw [hus, chain_append F c.page_size_pos _ hdvd, getLast?_append, hns] at hx
  have hsame : node_hashes F c p vs = hash_pages F (link F c.page_size (c.node p).key.namespace_of vs)
      (pages c.page_size (c.node p).key.units) := rfl
  rw [← hsame, hlast] at hx
  rw [hlast]
  exact hx

theorem compute_hash_plain (hplain : Plain (c.node n).key) :
    c.compute_node_hash_values F n = node_hashes F c n us := by
  have hns := (plain_iff _).mp hplain
  have hseed : seed F (c.node n).key.namespace_of = none := by
    rw [hns]
    rfl
  by_cases hp : p = c.tree.root
  · have hnil : us = [] := by
      refine u.shape.linked.reads_unique u.reads ?_
      rw [hp]
      exact .root
    have hprior : (do
        let p ← (c.tree.cell n).parent
        let hs ← (c.info p).hash_value
        if 0 < (c.node p).key.len then hs.getLast? else none) = (none : Option H) := by
      rw [u.parent, hp]
      cases hv : (c.info c.tree.root).hash_value with
      | none => simp [hv]
      | some hs => simp [u.shape.root_key]
    unfold RadixCache.compute_node_hash_values
    rw [hprior, get_storage_hash_str, hplain.1, hplain.2, node_hashes, hnil,
      link_nil F _ c.page_size_pos, hseed]
    rfl
  · obtain ⟨hpns, hs, x, hpub, hlast, hlink, -⟩ := u.parent_hashes hen hp
    have hpp : Plain (c.node p).key := by rw [plain_iff, hpns, hns]
    rw [published, if_pos hpp] at hpub
    have hpos := (u.shape.keyed p u.reads.inTree hp).1
    have hprior : (do
        let p ← (c.tree.cell n).parent
        let hs ← (c.info p).hash_value
        if 0 < (c.node p).key.len then hs.getLast? else none) = some x := by
      rw [u.parent]
      simp [hpub, hpos, hlast]
    unfold RadixCache.compute_node_hash_values
    rw [hprior, node_hashes, hlink]
    rfl

theorem compute_event_hash (hplain : ¬ Plain (c.node n).key) :
    ∃ c', c.compute_node_event_hash_values F n = .ok (c', node_hashes F c n us) ∧
      Records c c' n ∧ c'.queue = c.queue ∧
      (c'.info n).event_hash_value = some (node_hashes F c n us) := by
  have hroot : 0 < c.tree.counter :=
    Nat.lt_of_le_of_lt (Nat.zero_le _) (u.shape.linked.fresh c.tree.root .root)
  obtain ⟨f, hf⟩ : ∃ f, c.tree.counter = f + 1 := ⟨c.tree.counter - 1, by omega⟩
  -- the climb stops at the parent, which is the root or has its hashes
  have hclimb : RadixCache.missing_nodes c (c.node n).key.namespace_of (c.tree.counter + 1) (some n)
      = .ok ([n], some p) := by
    have hstop : RadixCache.missing_nodes c (c.node n).key.namespace_of (f + 1) (some p)
        = .ok ([], some p) := by
      rw [RadixCache.missing_nodes]
      by_cases hp : p = c.tree.root
      · rw [if_neg (by rw [hp, u.shape.root_key]; omega)]
        rfl
      · obtain ⟨hpns, hs, x, hpub, -, -, -⟩ := u.parent_hashes hen hp
        have hpp : ¬ Plain (c.node p).key := by rwa [plain_iff, hpns, ← plain_iff]
        rw [published, if_neg hpp] at hpub
        rw [if_pos (u.shape.keyed p u.reads.inTree hp).1, if_neg (not_not.mpr hpns), hpub]
        rfl
    rw [RadixCache.missing_nodes, if_pos u.key_pos, u.event_hash_value,
      if_neg (by simp), u.parent, hf, hstop]
    rfl
  have hlink : ((some p).bind fun current => (c.info current).event_hash_value.bind
      List.getLast?).or ((c.node n).key.cache_salt.map F.salt_digest)
      = link F c.page_size (c.node n).key.namespace_of us := by
    by_cases hp : p = c.tree.root
    · have hnil : us = [] := by
        refine u.shape.linked.reads_unique u.reads ?_
        rw [hp]
        exact .root
      rw [hp, hnil, link_nil F _ c.page_size_pos, Option.bind_some, u.root_hash]
      rfl
    · obtain ⟨hpns, hs, x, hpub, hlast, hlink, -⟩ := u.parent_hashes hen hp
      have hpp : ¬ Plain (c.node p).key := by rwa [plain_iff, hpns, ← plain_iff]
      rw [published, if_neg hpp] at hpub
      rw [Option.bind_some, hpub, Option.bind_some, hlast, hlink]
      rfl
  unfold RadixCache.compute_node_event_hash_values
  rw [u.event_hash_value]
  rw [hclimb, Fallible.ok_bind]
  dsimp only
  rw [hlink, reverse_singleton, RadixCache.fill_event_hashes, RadixCache.fill_event_hashes]
  have hset : ((c.set_info n { c.info n with event_hash_value := some (get_hash_str F (c.node n).key
      (link F c.page_size (c.node n).key.namespace_of us) c.page_size) }).info n).event_hash_value
      = some (node_hashes F c n us) := by
    simp [RadixCache.set_info, node_hashes, get_hash_str]
  rw [hset]
  exact ⟨_, rfl, Records.set_info c n _, rfl, hset⟩

omit hen in
theorem congr {b : RadixCache H} (r : Records c b n)
    (hb : (b.info n).event_hash_value = none) : Unhashed F b p n k us where
  shape := u.shape.congr r.toSameBooks
  reads := by
    rw [r.tree]
    exact u.reads
  filed := by
    rw [r.tree]
    exact u.filed
  root_hash := by
    rw [r.tree, r.info _ u.ne_root.symm]
    exact u.root_hash
  others hen q k' m vs hr hk hm := by
    rw [r.config] at hen
    rw [r.tree] at hr hk
    rw [r.published hm, r.toSameBooks.node_hashes]
    exact u.others hen q k' m vs hr hk hm
  event_hash_value := hb

/-- **The hashes of a new leaf** are computed without failure, and they are its part of the
chain. -/
theorem node_event_hash_values (hhash : (c.info n).hash_value = none) :
    ∃ c', c.node_event_hash_values F n = .ok (c', node_hashes F c n us) ∧
      Records c c' n ∧ c'.queue = c.queue ∧ published c' n = some (node_hashes F c n us) := by
  unfold RadixCache.node_event_hash_values
  rw [hhash, Option.getD_none]
  dsimp only
  generalize hb : c.set_info n { c.info n with
    hash_value := some (c.compute_node_hash_values F n) } = b
  have r : Records c b n := by
    rw [← hb]
    exact Records.set_info c n _
  have hbq : b.queue = c.queue := by
    rw [← hb]
    rfl
  by_cases hplain : Plain (c.node n).key
  · have hbplain : Plain (b.node n).key := by rwa [r.node]
    have hcompute := u.compute_hash_plain hen hplain
    refine ⟨b, ?_, r, hbq, ?_⟩
    · unfold Plain at hbplain
      rw [if_pos hbplain, hcompute]
      rfl
    · rw [published, if_pos hbplain, ← hb, ← hcompute]
      simp [RadixCache.set_info]
  · have hbplain : ¬ Plain (b.node n).key := by rwa [r.node]
    have hbn : (b.info n).event_hash_value = none := by
      rw [← hb]
      simp [RadixCache.set_info, u.event_hash_value]
    obtain ⟨c', hok, r', hq', hpub⟩ := (u.congr r hbn).compute_event_hash (by rwa [r.config]) hbplain
    rw [r.toSameBooks.node_hashes] at hok hpub
    refine ⟨c', ?_, ⟨r.toSameBooks.trans r'.toSameBooks, ?_⟩, hq'.trans hbq, ?_⟩
    · unfold Plain at hbplain
      rw [if_neg hbplain, hok]
    · intro m hm
      rw [r'.info m hm, r.info m hm]
    · have hcplain : ¬ Plain (c'.node n).key := by rwa [r'.node]
      rw [published, if_neg hcplain]
      exact hpub

theorem parent_block_hash {c' : RadixCache H} (r : Records c c' n) : c'.parent_block_hash F n
      = .ok ((chain F c.page_size (c.node n).key.namespace_of us).getLast?.map F.to_int64) := by
  have hpn : p ≠ n := u.shape.linked.child_ne u.reads.inTree u.filed
  unfold RadixCache.parent_block_hash
  rw [r.tree, u.parent]
  dsimp only
  by_cases hp : p = c.tree.root
  · have hnil : us = [] := by
      refine u.shape.linked.reads_unique u.reads ?_
      rw [hp]
      exact .root
    have hpages : pages c.page_size [] = [] := by
      apply eq_nil_of_length_eq_zero
      rw [length_pages_of_dvd c.page_size_pos (Nat.dvd_zero _), length_nil, Nat.zero_div]
    rw [hp, u.shape.linked.root_parent, hnil, chain, hpages]
    rfl
  · obtain ⟨q, k', -, hpar, -, -⟩ := u.shape.exists_parent u.reads.inTree hp
    obtain ⟨hpns, hs, x, hpub, hlast, -, hchain⟩ := u.parent_hashes hen hp
    have hpar' : (c.tree.cell p).parent ≠ none := by
      rw [hpar]
      simp
    have hplain : ((c'.node n).key.extra_key = none ∧ (c'.node n).key.cache_salt = none)
        ↔ Plain (c.node p).key := by
      rw [plain_iff, ← Prod.mk.injEq, r.node, hpns]
      exact Iff.rfl
    rw [if_neg hpar', r.info p hpn, hchain]
    unfold published at hpub
    by_cases hpp : Plain (c.node p).key
    · rw [if_pos hpp] at hpub
      rw [if_pos (hplain.mpr hpp), hpub, Option.bind_some, hlast]
      rfl
    · rw [if_neg hpp] at hpub
      rw [if_neg (fun h => hpp (hplain.mp h)), hpub]
      dsimp only
      rw [hlast]
      rfl

end

end Unhashed

/-- The events of a node that is stored where `us` is read to its parent. -/
def store_events (c : RadixCache H) (n : ℕ) (us : List Atom) : List Event :=
  RadixCache.stored_events F (c.node n).key.cache_salt
    ((chain F c.page_size (c.node n).key.namespace_of us).getLast?.map F.to_int64)
    ((pages c.page_size (c.node n).key.units).zip (node_hashes F c n us))

def remove_event (hs : List H) : Event := .removed ⟨hs.map F.to_int64, .gpu⟩

variable {p : ℕ} {k : ChildKey}

theorem Unhashed.hashed (u : Unhashed F c p n k us) (r : Records c c' n)
    (hpub : published c' n = some (node_hashes F c n us)) : Hashed F c' where
  root_hash := by
    rw [r.tree, r.info _ u.ne_root.symm]
    exact u.root_hash
  nodes hen q k' m vs hr hk := by
    rw [r.config] at hen
    rw [r.tree] at hr hk
    rw [r.toSameBooks.node_hashes]
    by_cases hm : m = n
    · subst hm
      -- a node hangs in one place only
      have hqp := u.shape.linked.parent_unique hr.inTree u.reads.inTree hk u.filed
      subst hqp
      rw [u.shape.linked.reads_unique hr u.reads]
      exact hpub
    · rw [r.published hm]
      exact u.others hen q k' m vs hr hk hm

/-- **`record_store`** of a new leaf succeeds, and afterwards every node carries its hashes. -/
theorem record_store_spec (u : Unhashed F c p n k us) (hhash : (c.info n).hash_value = none) :
    ∃ c', c.record_store F n = .ok c' ∧ Records c c' n ∧ Hashed F c' ∧
      c'.queue = if c.config.enable_kv_cache_events = true
        then (store_events F c n us).foldl enqueue c.queue else c.queue := by
  unfold RadixCache.record_store
  by_cases hen : c.config.enable_kv_cache_events = true
  · obtain ⟨c₁, hok, r, hq, hpub⟩ := u.node_event_hash_values hen hhash
    rw [if_pos hen, if_pos hen, hok, Fallible.ok_bind]
    dsimp only
    rw [u.parent_block_hash hen r, Fallible.ok_bind, r.node, r.page_size]
    rw [if_neg (by rw [node_hashes, length_hash_pages]; omega), hq]
    have r' : Records c { c₁ with queue := (store_events F c n us).foldl enqueue c.queue } n :=
      ⟨⟨r.config, r.tree, r.evictable, r.guarded, r.leaves⟩, r.info⟩
    exact ⟨_, rfl, r', u.hashed F r' hpub, rfl⟩
  · rw [if_neg hen, if_neg hen]
    exact ⟨c, rfl, ⟨SameBooks.refl c, fun _ _ => rfl⟩, ⟨u.root_hash, fun h => absurd h hen⟩, rfl⟩

/-- **`record_remove`** of a node that carries its hashes succeeds. -/
theorem record_remove_spec {hs : List H}
    (hpub : c.config.enable_kv_cache_events = true → published c n = some hs)
    (hlen : hs.length = (pages c.page_size (c.node n).key.units).length) (hne : hs ≠ []) :
    ∃ c', c.record_remove F n = .ok c' ∧ Records c c' n ∧
      c'.queue = if c.config.enable_kv_cache_events = true
        then enqueue c.queue (remove_event F hs) else c.queue := by
  unfold RadixCache.record_remove
  by_cases hen : c.config.enable_kv_cache_events = true
  · have hpub' := hpub hen
    have hvals : ∃ c₁, c.node_event_hash_values F n = .ok (c₁, hs) ∧ Records c c₁ n ∧
        c₁.queue = c.queue := by
      unfold RadixCache.node_event_hash_values
      dsimp only
      generalize hb : c.set_info n { c.info n with
        hash_value := some ((c.info n).hash_value.getD (c.compute_node_hash_values F n)) } = b
      have r : Records c b n := by
        rw [← hb]
        exact Records.set_info c n _
      have hbq : b.queue = c.queue := by
        rw [← hb]
        rfl
      refine ⟨b, ?_, r, hbq⟩
      by_cases hplain : Plain (c.node n).key
      · rw [published, if_pos hplain] at hpub'
        have hbplain : Plain (b.node n).key := by rwa [r.node]
        unfold Plain at hbplain
        rw [if_pos hbplain, hpub']
        rfl
      · rw [published, if_neg hplain] at hpub'
        have hbplain : ¬ Plain (b.node n).key := by rwa [r.node]
        unfold Plain at hbplain
        have hbe : (b.info n).event_hash_value = some hs := by
          rw [← hb]
          simp [RadixCache.set_info, hpub']
        rw [if_neg hbplain, RadixCache.compute_node_event_hash_values, hbe]
        rfl
    obtain ⟨c₁, hok, r, hq⟩ := hvals
    rw [if_pos hen, if_pos hen, hok, Fallible.ok_bind]
    dsimp only
    rw [r.node, r.page_size, if_neg (by omega), ← hlen, take_length,
      if_neg (by rw [map_eq_nil_iff]; exact hne)]
    refine ⟨_, rfl, ⟨⟨r.config, r.tree, r.evictable, r.guarded, r.leaves⟩, r.info⟩, ?_⟩
    rw [hq]
    rfl
  · rw [if_neg hen, if_neg hen]
    exact ⟨c, rfl, ⟨SameBooks.refl c, fun _ _ => rfl⟩, rfl⟩

/-! ## Leaves that come and go -/

theorem info_grown {c : RadixCache H} {p : ℕ} {key : RadixKey} {value : List ℤ} {k : ChildKey}
    {priority : ℤ} {chunked : Bool} :
    (∀ n, n ≠ c.tree.counter → (grown c p key value k priority chunked).info n = c.info n) ∧
      ((grown c p key value k priority chunked).info c.tree.counter).hash_value = none ∧
      ((grown c p key value k priority chunked).info c.tree.counter).event_hash_value = none := by
  unfold grown RadixCache.inc_hit_count
  split
  · refine ⟨fun n hn => ?_, ?_, ?_⟩ <;> simp_all
  · refine ⟨fun n hn => ?_, ?_, ?_⟩ <;> simp_all [RadixCache.set_info]

theorem queue_grown {key : RadixKey} {value : List ℤ} {priority : ℤ} {chunked : Bool} :
    (grown c p key value k priority chunked).queue = c.queue := by
  unfold grown RadixCache.inc_hit_count
  rw [queue_update_leaf_status, queue_update_leaf_status]
  split <;> rfl

theorem Grows.unhashed {key : RadixKey} {value : List ℤ} (g : Grows c c' p k key value)
    (h : Shape c) (hh : Hashed F c) (hinfo : ∀ n, n ≠ c.tree.counter → c'.info n = c.info n)
    (he : (c'.info c.tree.counter).event_hash_value = none) (hus : Reads c.tree units_of p us) :
    Unhashed F c' p c.tree.counter k us where
  shape := g.shape h
  reads := by
    rw [g.tree]
    exact g.site.reads hus
  filed := by
    rw [g.tree]
    exact g.site.filed_new _
  root_hash := by
    rw [g.root, hinfo _ (h.linked.fresh c.tree.root .root).ne]
    exact hh.root_hash
  others hen q k' m vs hr hk hm := by
    rw [g.config] at hen
    rcases g.edge_cases hr.inTree hk with ⟨-, -, rfl⟩ | ⟨hq, hk'⟩
    · exact absurd rfl hm
    · obtain ⟨vs₀, hvs₀⟩ := hq.reads units_of
      have hin : InTree c.tree m := .child hq hk'
      have hvs : vs = vs₀ := by
        refine (g.shape h).linked.reads_unique hr ?_
        rw [g.tree]
        exact g.site.reads hvs₀
      subst hvs
      have hpub : published c' m = published c m :=
        published_congr (by rw [g.node_old hin]) (by rw [hinfo m hm]) (by rw [hinfo m hm])
      rw [hpub, node_hashes, g.node_old hin, g.page_size]
      exact hh.nodes hen q k' m vs hvs₀ hk'
  event_hash_value := he

theorem Deletes.hashed {x : ℕ} (d : Deletes c c' p x k) (hh : Hashed F c) : Hashed F c' where
  root_hash := by
    rw [d.root, d.info]
    exact hh.root_hash
  nodes hen q k' m vs hr hk := by
    rw [d.config] at hen
    rw [d.tree] at hr
    have hr' := (d.site.reads_iff.mp hr).1
    have hk' := ((d.edge_iff hr'.inTree).mp hk).1
    have hpub : published c' m = published c m :=
      published_congr (by rw [d.node]) (by rw [d.info]) (by rw [d.info])
    rw [hpub, node_hashes, d.node, d.page_size]
    exact hh.nodes hen q k' m vs hr' hk'

theorem Records.hashed (r : Records c c' n) (hn : ¬ InTree c.tree n) (hh : Hashed F c) :
    Hashed F c' where
  root_hash := by
    have hrn : c.tree.root ≠ n := by
      rintro rfl
      exact hn .root
    rw [r.tree, r.info _ hrn]
    exact hh.root_hash
  nodes hen q k' m vs hr hk := by
    rw [r.config] at hen
    rw [r.tree] at hr hk
    have hmn : m ≠ n := by
      rintro rfl
      exact hn (.child hr.inTree hk)
    rw [r.published hmn, r.toSameBooks.node_hashes]
    exact hh.nodes hen q k' m vs hr hk

theorem Relocks.hashed {lock : ℤ} (r : Relocks c c' n lock) (hh : Hashed F c) : Hashed F c' where
  root_hash := by
    rw [r.root, r.info]
    exact hh.root_hash
  nodes hen q k' m vs hr hk := by
    rw [r.config] at hen
    rw [r.child?] at hk
    have hr' : Reads c.tree units_of q vs := by
      have hback : Reads (c'.tree.setData n (c.node n)) units_of q vs := by
        refine hr.setData ?_
        have := (r.key_value n).1
        simp only [units_of]
        rw [← RadixCache.node, this]
      have hsame : c'.tree.setData n (c.node n) = c.tree := by
        rw [r.tree]
        unfold Arena.setData Arena.write RadixCache.node Arena.data
        simp
      rwa [hsame] at hback
    have hpub : published c' m = published c m :=
      published_congr (by rw [(r.key_value m).1]) (by rw [r.info]) (by rw [r.info])
    rw [hpub, node_hashes, (r.key_value m).1, r.page_size]
    exact hh.nodes hen q k' m vs hr' hk

end LightningH3.Radix
