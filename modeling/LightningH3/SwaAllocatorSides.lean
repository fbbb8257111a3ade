/-
The two sides of the hybrid allocator.

Both pools are rows in pages: the full pool through the slots of the rows, the SWA pool through the
peers of these slots. `Sides` says so, and that an entry that leads to no live peer is `0`. A
request is extended on both sides at once (`Sides.grow`), a batch request after request; a range is
given up through one representative slot per page, its peers first (`Sides.unpair`) and then its
full pages (`Sides.unown`).
-/
import LightningH3.SwaAllocator
import Mathlib.Algebra.GroupWithZero.Nat

set_option autoImplicit false

namespace LightningH3.SwaAllocator

open List Function

open PageTable (assign assign_of_mem assign_of_notMem assign_const)
open UnifiedPool (ExtendRequest num_new_pages_extend extend_kernel extend_tokens)
open PagedAllocator (stride extend_tokens_eq)

/-- The full pages of the requests. -/
def full_on (reqs : ℕ → Req) (r j : ℕ) : Bool := (reqs r).live j

def slot (reqs : ℕ → Req) (r i : ℕ) : Option ℤ := (reqs r).row[i]?

/-- The pages with a live peer. -/
def swa_on (reqs : ℕ → Req) (r j : ℕ) : Bool := (reqs r).live j && (reqs r).paired j

def peer (reqs : ℕ → Req) (mapping : ℤ → ℤ) (r i : ℕ) : Option ℤ := (reqs r).row[i]?.map mapping

/-- The full pool and the rows. -/
def FullSide (c : SwaConfig) (pool : List ℤ) (reqs : ℕ → Req) : Prop :=
  PagedRows c.page_size c.full.num_pages pool (full_on reqs) (slot reqs)

/-- The SWA pool and the mapping. -/
structure SwaSide (c : SwaConfig) (pool : List ℤ) (reqs : ℕ → Req) (mapping : ℤ → ℤ) : Prop where
  rows : PagedRows c.page_size c.swa.num_pages pool (swa_on reqs) (peer reqs mapping)
  zero : ∀ s, 0 ≤ s → mapping s ≠ 0 →
    ∃ r i, swa_on reqs r (i / c.page_size) = true ∧ slot reqs r i = some s

/-! ## One request extended -/

/-- The slots of the next `extra` tokens of a request whose last page is `base`. -/
def next_slots (c : SwaConfig) (q : Req) (extra : ℕ) (base : ℤ) (pages : List ℤ) : List ℤ :=
  (List.range extra).map fun t =>
    slot_at c.page_size base (page_count c.page_size q.row.length) pages (q.row.length + t)

@[simp] theorem length_next_slots (c : SwaConfig) (q : Req) (extra : ℕ) (base : ℤ) (pages : List ℤ) :
    (next_slots c q extra base pages).length = extra := by
  rw [next_slots, length_map, length_range]

section grow

variable {c : SwaConfig} {q : Req} {extra : ℕ} {base : ℤ} {pages : List ℤ}

variable {slots : List ℤ}

theorem row_grow_old {i : ℕ} (hi : i < q.row.length) : (q.grow c slots).row[i]? = q.row[i]? := by
  rw [Req.grow, getElem?_append_left hi]

theorem row_grow_new {i : ℕ} (hi : q.row.length ≤ i) {s : ℤ} :
    (q.grow c (next_slots c q extra base pages)).row[i]? = some s ↔ i < q.row.length + extra ∧
      s = slot_at c.page_size base (page_count c.page_size q.row.length) pages i := by
  rw [Req.grow, getElem?_append_right hi, next_slots, getElem?_map]
  by_cases hlt : i - q.row.length < extra
  · rw [getElem?_range hlt, Option.map_some, Nat.add_sub_cancel' hi, Option.some.injEq]
    constructor
    · exact fun heq => ⟨by omega, heq.symm⟩
    · exact fun heq => heq.2.symm
  · rw [getElem?_eq_none (by rw [length_range]; omega)]
    constructor
    · intro hn
      cases hn
    · rintro ⟨hlt', -⟩
      omega

variable {j : ℕ}

theorem opens_iff : q.opens c extra j = true ↔ page_count c.page_size q.row.length ≤ j ∧
    j - page_count c.page_size q.row.length < opened c.page_size q.row.length extra := by
  unfold Req.opens opened
  rw [Bool.and_eq_true, decide_eq_true_eq, decide_eq_true_eq]
  omega

theorem live_grow : (q.grow c slots).live j = true ↔
    q.live j = true ∨ q.opens c slots.length j = true := by
  rw [Req.grow, Bool.or_eq_true]

theorem paired_grow (hring : c.swa_req_ring = false) :
    (q.grow c slots).paired j = true ↔ q.paired j = true ∨ q.opens c slots.length j = true := by
  rw [Req.grow, Bool.or_eq_true, hring, Bool.not_false, Bool.and_true]

end grow

section extend

variable {c : SwaConfig} {pool full_pool swa_pool : List ℤ} {reqs : ℕ → Req} {r extra : ℕ}

/-- **The full side of an extended request.** -/
theorem FullSide.grow {base : ℤ} {pages : List ℤ}
    (hpages : opened c.page_size (reqs r).row.length extra ≤ pages.length)
    (h : FullSide c (pages.take (opened c.page_size (reqs r).row.length extra) ++ pool) reqs)
    (hbase : (reqs r).row.length % c.page_size ≠ 0 → page_owns c.page_size (full_on reqs) (slot reqs)
      (r, (reqs r).row.length / c.page_size) base) : FullSide c pool (Function.update reqs r
      ((reqs r).grow c (next_slots c (reqs r) extra base pages))) := by
  refine PagedRows.grow c.page_pos hpages h ?_ hbase ?_ ?_ ?_ ?_
  · intro i s hs
    exact (List.getElem?_eq_some_iff.mp hs).1
  · intro r' hr j
    rw [full_on, update_of_ne hr, full_on]
  · intro j
    rw [full_on, update_self, live_grow, length_next_slots, opens_iff, full_on]
  · intro r' i _ hcase
    by_cases hr : r' = r
    · subst hr
      rw [slot, update_self, row_grow_old (hcase.resolve_left (by simp)), slot]
    · rw [slot, update_of_ne hr, slot]
  · intro i s hi
    rw [slot, update_self, row_grow_new hi]

variable {mapping : ℤ → ℤ} {full_base swa_base : ℤ} {full_pages swa_pages : List ℤ}

/-- **The SWA side of an extended request**: the new slots are mapped one by one, and no other slot
in use is touched. -/
theorem SwaSide.grow (hring : c.swa_req_ring = false)
    (hpages : opened c.page_size (reqs r).row.length extra ≤ swa_pages.length)
    (hfull : FullSide c full_pool (Function.update reqs r
      ((reqs r).grow c (next_slots c (reqs r) extra full_base full_pages))))
    (h : SwaSide c (swa_pages.take (opened c.page_size (reqs r).row.length extra) ++ swa_pool) reqs
      mapping) (hbase : (reqs r).row.length % c.page_size ≠ 0 → page_owns c.page_size (swa_on reqs)
      (peer reqs mapping) (r, (reqs r).row.length / c.page_size) swa_base) :
    SwaSide c swa_pool (Function.update reqs r
      ((reqs r).grow c (next_slots c (reqs r) extra full_base full_pages)))
      (assign mapping ((next_slots c (reqs r) extra full_base full_pages).zip
        (next_slots c (reqs r) extra swa_base swa_pages))) := by
  obtain ⟨q, hq⟩ : ∃ q, reqs r = q := ⟨_, rfl⟩
  rw [hq] at hpages hfull h hbase ⊢
  obtain ⟨reqs', hreqs'⟩ : ∃ reqs', Function.update reqs r
      (q.grow c (next_slots c q extra full_base full_pages)) = reqs' := ⟨_, rfl⟩
  rw [hreqs'] at hfull ⊢
  have hself : reqs' r = q.grow c (next_slots c q extra full_base full_pages) := by
    rw [← hreqs', update_self]
  have hother : ∀ r', r' ≠ r → reqs' r' = reqs r' := by
    intro r' hr'
    rw [← hreqs', update_of_ne hr']
  have hon : ∀ j, swa_on reqs' r j = true ↔ swa_on reqs r j = true ∨
      (page_count c.page_size q.row.length ≤ j ∧
        j - page_count c.page_size q.row.length < opened c.page_size q.row.length extra) := by
    intro j
    rw [swa_on, hself, Bool.and_eq_true, live_grow, paired_grow hring, length_next_slots, opens_iff,
      swa_on, hq, Bool.and_eq_true]
    -- a page that is opened was neither live nor paired in a row that ends before it
    constructor
    · rintro ⟨hl, hp⟩
      rcases hl with hl | hl
      · rcases hp with hp | hp
        · exact .inl ⟨hl, hp⟩
        · exact .inr hp
      · exact .inr hl
    · rintro (⟨hl, hp⟩ | ho)
      · exact ⟨.inl hl, .inl hp⟩
      · exact ⟨.inr ho, .inr ho⟩
  have hlive : ∀ r' j, swa_on reqs' r' j = true → full_on reqs' r' j = true := by
    intro r' j hj
    exact (Bool.and_eq_true _ _ ▸ hj : _ ∧ _).1
  -- the positions of the new slots
  have hnewpos : ∀ i, q.row.length ≤ i → i < q.row.length + extra →
      swa_on reqs' r (i / c.page_size) = true ∧ slot reqs' r i
        = some (slot_at c.page_size full_base (page_count c.page_size q.row.length) full_pages i) := by
    intro i hi hlt
    refine ⟨?_, ?_⟩
    · rw [hon]
      rcases new_position c.page_pos hi hlt with ⟨hz, hlast, -⟩ | ho
      · rw [hlast]
        exact .inl (hbase hz).1
      · exact .inr ho
    · rw [slot, hself, row_grow_new hi]
      exact ⟨hlt, rfl⟩
  have hmem : ∀ s, s ∈ next_slots c q extra full_base full_pages ↔
      ∃ i, q.row.length ≤ i ∧ i < q.row.length + extra ∧ slot reqs' r i = some s := by
    intro s
    rw [next_slots, mem_map]
    constructor
    · rintro ⟨t, ht, rfl⟩
      rw [mem_range] at ht
      exact ⟨_, Nat.le_add_right _ t, by omega, (hnewpos _ (Nat.le_add_right _ t) (by omega)).2⟩
    · rintro ⟨i, hi, hlt, hs⟩
      rw [(hnewpos i hi hlt).2] at hs
      refine ⟨i - q.row.length, by rw [mem_range]; omega, ?_⟩
      rw [Nat.add_sub_cancel' hi]
      exact Option.some.inj hs
  have hnd : (next_slots c q extra full_base full_pages).Nodup := by
    refine nodup_range.map_on ?_
    intro t ht t' ht' heq
    rw [mem_range] at ht ht'
    obtain ⟨h₁, hs₁⟩ := hnewpos _ (Nat.le_add_right _ t) (by omega)
    obtain ⟨h₂, hs₂⟩ := hnewpos _ (Nat.le_add_right _ t') (by omega)
    rw [← heq] at hs₂
    have := (hfull.slot_once c.page_pos (hlive _ _ h₁) hs₁ (hlive _ _ h₂) hs₂).2
    omega
  have hkeys : ((next_slots c q extra full_base full_pages).zip
      (next_slots c q extra swa_base swa_pages)).map Prod.fst
      = next_slots c q extra full_base full_pages := by
    rw [map_fst_zip]
    rw [length_next_slots, length_next_slots]
  obtain ⟨mapping', hmapping'⟩ : ∃ mapping', assign mapping
      ((next_slots c q extra full_base full_pages).zip
        (next_slots c q extra swa_base swa_pages)) = mapping' := ⟨_, rfl⟩
  rw [hmapping']
  have hkept : ∀ s, s ∉ next_slots c q extra full_base full_pages → mapping' s = mapping s := by
    intro s hs
    rw [← hmapping', assign_of_notMem (by rwa [hkeys])]
  have hset : ∀ i, q.row.length ≤ i → i < q.row.length + extra →
      mapping' (slot_at c.page_size full_base (page_count c.page_size q.row.length) full_pages i)
        = slot_at c.page_size swa_base (page_count c.page_size q.row.length) swa_pages i := by
    intro i hi hlt
    rw [← hmapping']
    refine assign_of_mem (by rw [hkeys]; exact hnd) ?_ mapping
    have hidx : i - q.row.length < extra := by omega
    rw [mem_iff_getElem?]
    refine ⟨i - q.row.length, ?_⟩
    rw [getElem?_zip_eq_some, next_slots, next_slots, getElem?_map, getElem?_map,
      getElem?_range hidx, Option.map_some, Option.map_some, Nat.add_sub_cancel' hi]
    exact ⟨rfl, rfl⟩
  refine ⟨?_, ?_⟩
  · refine PagedRows.grow c.page_pos hpages h.rows ?_ hbase ?_ ?_ ?_ ?_
    · intro i v hv
      rw [peer, hq, Option.map_eq_some_iff] at hv
      obtain ⟨s, hs, -⟩ := hv
      exact (List.getElem?_eq_some_iff.mp hs).1
    · intro r' hr j
      rw [swa_on, hother r' hr, swa_on]
    · exact hon
    · intro r' i hj hcase
      have hrow : (reqs' r').row[i]? = (reqs r').row[i]? := by
        by_cases hr : r' = r
        · subst hr
          rw [hself, row_grow_old (hcase.resolve_left (by simp)), hq]
        · rw [hother r' hr]
      rw [peer, peer, hrow]
      cases hs : (reqs r').row[i]? with
      | none => rfl
      | some s =>
        rw [Option.map_some, Option.map_some, hkept s]
        intro hin
        obtain ⟨i', hi', hlt', hs'⟩ := (hmem s).mp hin
        have hj' : full_on reqs' r' (i / c.page_size) = true := by
          by_cases hr : r' = r
          · subst hr
            exact hlive _ _ ((hon _).mpr (.inl hj))
          · rw [full_on, hother r' hr]
            exact (Bool.and_eq_true _ _ ▸ hj : _ ∧ _).1
        obtain ⟨hrr, hii⟩ := hfull.slot_once c.page_pos hj' (hrow.trans hs)
          (hlive _ _ (hnewpos i' hi' hlt').1) hs'
        rcases hcase with hr | hlt
        · exact hr hrr
        · omega
    · intro i v hi
      rw [peer, hself, Option.map_eq_some_iff]
      constructor
      · rintro ⟨s, hs, rfl⟩
        obtain ⟨hlt, rfl⟩ := (row_grow_new hi).mp hs
        exact ⟨hlt, hset i hi hlt⟩
      · rintro ⟨hlt, rfl⟩
        exact ⟨_, (row_grow_new hi).mpr ⟨hlt, rfl⟩, hset i hi hlt⟩
  · intro s hs hne
    by_cases hin : s ∈ next_slots c q extra full_base full_pages
    · obtain ⟨i, hi, hlt, hrow⟩ := (hmem s).mp hin
      exact ⟨r, i, (hnewpos i hi hlt).1, hrow⟩
    · rw [hkept s hin] at hne
      obtain ⟨r', i, hj, hrow⟩ := h.zero s hs hne
      refine ⟨r', i, ?_⟩
      by_cases hr : r' = r
      · subst hr
        refine ⟨(hon _).mpr (.inl hj), ?_⟩
        rw [slot, hself, row_grow_old]
        · rw [← hq]
          exact hrow
        · rw [slot, hq] at hrow
          exact (List.getElem?_eq_some_iff.mp hrow).1
      · rw [swa_on, slot, hother r' hr]
        exact ⟨hj, hrow⟩

end extend

/-! ## A batch extended -/

/-- A request for `extra` more tokens of a row of `len`; `owns` says which page its last one is. -/
structure Asks (page_size len extra : ℕ) (owns : ℤ → Prop) (req : ExtendRequest) : Prop where
  prefix_eq : req.prefix_len = len
  seq_eq : req.seq_len = len + extra
  last : len % page_size ≠ 0 → ∃ base, owns base ∧
    req.last_loc = base * page_size + ((len - 1) % page_size : ℕ)

namespace Asks

variable {c : SwaConfig} {q : Req} {extra : ℕ} {owns : ℤ → Prop} {req : ExtendRequest}

theorem tokens (h : Asks c.page_size q.row.length extra owns req) (free_pages : List ℤ) (first : ℕ) :
    ∃ base, (q.row.length % c.page_size ≠ 0 → owns base) ∧
      extend_tokens c.page_size free_pages first req
        = next_slots c q extra base (free_pages.drop first) := by
  by_cases hz : q.row.length % c.page_size = 0
  · refine ⟨0, fun hn => absurd hz hn, ?_⟩
    exact extend_tokens_eq c.page_pos free_pages first req h.prefix_eq h.seq_eq
      fun hn => absurd hz hn
  · obtain ⟨base, hbase, hlast⟩ := h.last hz
    exact ⟨base, fun _ => hbase,
      extend_tokens_eq c.page_pos free_pages first req h.prefix_eq h.seq_eq fun _ => hlast⟩

theorem new_pages {page_size len : ℕ} (h : Asks page_size len extra owns req) (hp : 0 < page_size) :
    req.new_pages page_size = opened page_size len extra :=
  PagedAllocator.new_pages_natCast hp req h.prefix_eq h.seq_eq

theorem mono {page_size len : ℕ} {owns' : ℤ → Prop} (h : Asks page_size len extra owns req)
    (ho : ∀ p, owns p → owns' p) : Asks page_size len extra owns' req where
  prefix_eq := h.prefix_eq
  seq_eq := h.seq_eq
  last hz := by
    obtain ⟨base, hbase, hlast⟩ := h.last hz
    exact ⟨base, ho base hbase, hlast⟩

end Asks

section batch

variable {c : SwaConfig} {full_pool swa_pool : List ℤ}

/-- What a batch asks the full pool for. -/
def FullAsks (c : SwaConfig) (reqs : ℕ → Req) : List (ℕ × ℕ) → List ExtendRequest → Prop :=
  List.Forall₂ fun b req => Asks c.page_size (reqs b.1).row.length b.2 (page_owns c.page_size
    (full_on reqs) (slot reqs) (b.1, (reqs b.1).row.length / c.page_size)) req

/-- What it asks the SWA pool for. -/
def SwaAsks (c : SwaConfig) (reqs : ℕ → Req) (mapping : ℤ → ℤ) :
    List (ℕ × ℕ) → List ExtendRequest → Prop :=
  List.Forall₂ fun b req => Asks c.page_size (reqs b.1).row.length b.2 (page_owns c.page_size
    (swa_on reqs) (peer reqs mapping) (b.1, (reqs b.1).row.length / c.page_size)) req

variable {rest : List ExtendRequest}

theorem num_new_pages_cons {page_size len extra : ℕ} {owns : ℤ → Prop} {req : ExtendRequest} {n : ℕ}
    (hp : 0 < page_size) (h : Asks page_size len extra owns req)
    (hn : num_new_pages_extend page_size (req :: rest) = n) :
    ∃ m : ℕ, num_new_pages_extend page_size rest = m ∧ n = opened page_size len extra + m := by
  have hrest := PagedAllocator.num_new_pages_nonneg
    (show (0 : ℤ) < page_size by exact_mod_cast hp) rest
  obtain ⟨m, hm⟩ := Int.eq_ofNat_of_zero_le hrest
  refine ⟨m, hm, ?_⟩
  unfold num_new_pages_extend at hn hm
  rw [map_cons, sum_cons, h.new_pages hp, hm] at hn
  exact_mod_cast hn.symm

theorem take_split (free_pages pool : List ℤ) (first a m : ℕ) :
    (free_pages.drop first).take (a + m) ++ pool
      = (free_pages.drop first).take a ++ ((free_pages.drop (first + a)).take m ++ pool) := by
  rw [take_add, drop_drop, append_assoc]

theorem length_drop_ge {free_pages : List ℤ} {first a m n : ℕ} (hn : n = a + m)
    (hle : first + n ≤ free_pages.length) : a ≤ (free_pages.drop first).length := by
  rw [length_drop]
  omega

variable {reqs : ℕ → Req} {r : ℕ}

theorem FullSide.not_mem_next_slots {pool pages : List ℤ} {extra : ℕ} {base : ℤ}
    (h : FullSide c pool (Function.update reqs r
      ((reqs r).grow c (next_slots c (reqs r) extra base pages))))
    (hlast : (reqs r).row.length % c.page_size ≠ 0 →
      full_on reqs r ((reqs r).row.length / c.page_size) = true) {r' i : ℕ} {s : ℤ} (hr : r' ≠ r)
    (hon : full_on reqs r' (i / c.page_size) = true) (hs : slot reqs r' i = some s) :
    s ∉ next_slots c (reqs r) extra base pages := by
  intro hin
  obtain ⟨t, ht, rfl⟩ := mem_map.mp hin
  rw [mem_range] at ht
  have hge : (reqs r).row.length ≤ (reqs r).row.length + t := Nat.le_add_right _ t
  have hon' : full_on (Function.update reqs r
      ((reqs r).grow c (next_slots c (reqs r) extra base pages))) r
      (((reqs r).row.length + t) / c.page_size) = true := by
    rw [full_on, update_self, live_grow, length_next_slots, opens_iff]
    rcases new_position c.page_pos hge (show _ < (reqs r).row.length + extra by omega) with
      ⟨hz, heq, -⟩ | ho
    · rw [heq]
      exact .inl (hlast hz)
    · exact .inr ho
  obtain ⟨reqs', hreqs'⟩ : ∃ reqs', Function.update reqs r
      ((reqs r).grow c (next_slots c (reqs r) extra base pages)) = reqs' := ⟨_, rfl⟩
  have hself : reqs' r = (reqs r).grow c (next_slots c (reqs r) extra base pages) := by
    rw [← hreqs', update_self]
  have hother : reqs' r' = reqs r' := by rw [← hreqs', update_of_ne hr]
  rw [hreqs'] at h hon'
  rw [full_on, ← hother] at hon
  rw [slot, ← hother] at hs
  have hnew : slot reqs' r ((reqs r).row.length + t) = some (slot_at c.page_size base
      (page_count c.page_size (reqs r).row.length) pages ((reqs r).row.length + t)) := by
    rw [slot, hself, row_grow_new hge]
    exact ⟨by omega, rfl⟩
  exact hr (h.slot_once c.page_pos hon hs hon' hnew).1

theorem assign_next_slots {slots : List ℤ} (peers : List ℤ) (mapping : ℤ → ℤ) {s : ℤ} (hs : s ∉ slots) :
    assign mapping (slots.zip peers) s = mapping s := by
  refine assign_of_notMem ?_ mapping
  intro hin
  obtain ⟨p, hp, rfl⟩ := mem_map.mp hin
  exact hs (of_mem_zip hp).1

variable {batch : List (ℕ × ℕ)}

theorem FullAsks.update {q : Req} (h : FullAsks c reqs batch rest) (hr : r ∉ batch.map Prod.fst) :
    FullAsks c (Function.update reqs r q) batch rest := by
  induction h with
  | nil => exact .nil
  | @cons b req batch rest hb _ ih =>
    rw [map_cons, mem_cons, not_or] at hr
    refine .cons ?_ (ih hr.2)
    have hne : b.1 ≠ r := fun heq => hr.1 heq.symm
    rw [update_of_ne hne]
    refine hb.mono ?_
    rintro p ⟨hon, hs⟩
    refine ⟨?_, ?_⟩
    · rw [full_on, update_of_ne hne]
      exact hon
    · rw [slot, update_of_ne hne]
      exact hs

theorem SwaAsks.update {mapping mapping' : ℤ → ℤ} {q : Req} (h : SwaAsks c reqs mapping batch rest)
    (hr : r ∉ batch.map Prod.fst)
    (hkept : ∀ r' i s, r' ≠ r → full_on reqs r' (i / c.page_size) = true → slot reqs r' i = some s →
      mapping' s = mapping s) : SwaAsks c (Function.update reqs r q) mapping' batch rest := by
  induction h with
  | nil => exact .nil
  | @cons b req batch rest hb _ ih =>
    rw [map_cons, mem_cons, not_or] at hr
    refine .cons ?_ (ih hr.2)
    have hne : b.1 ≠ r := fun heq => hr.1 heq.symm
    rw [update_of_ne hne]
    refine hb.mono ?_
    rintro p ⟨hon, hs⟩
    refine ⟨?_, ?_⟩
    · rw [swa_on, update_of_ne hne]
      exact hon
    · rw [peer, update_of_ne hne]
      rw [peer, Option.map_eq_some_iff] at hs
      obtain ⟨s, hrow, hs⟩ := hs
      have hfull : full_on reqs b.1
          ((reqs b.1).row.length / c.page_size * c.page_size / c.page_size) = true := by
        rw [Nat.mul_div_cancel _ c.page_pos]
        exact (Bool.and_eq_true _ _ ▸ hon : _ ∧ _).1
      rw [hrow, Option.map_some, hkept b.1 _ s hne hfull hrow, hs]

/-- **The full side of a batch**, by induction on its requests. -/
theorem FullSide.grow_batch {free_pages : List ℤ} :
    ∀ {reqs : ℕ → Req} {rest : List ExtendRequest} {first n : ℕ}, (batch.map Prod.fst).Nodup →
      FullAsks c reqs batch rest → num_new_pages_extend c.page_size rest = n →
      first + n ≤ free_pages.length →
      FullSide c ((free_pages.drop first).take n ++ full_pool) reqs → FullSide c full_pool
        (write_rows c reqs batch (extend_kernel c.page_size free_pages first rest)) := by
  induction batch with
  | nil =>
    intro reqs rest first n _ hasks hn _ h
    cases hasks
    have hzero : n = 0 := by
      have : (n : ℤ) = 0 := by rw [← hn]; rfl
      exact_mod_cast this
    rw [hzero] at h
    exact h
  | cons b batch ih =>
    intro reqs rest first n hnd hasks hn hle h
    cases hasks with
    | @cons _ req _ rest hb hrest =>
      rw [map_cons, nodup_cons] at hnd
      obtain ⟨m, hm, hnm⟩ := num_new_pages_cons c.page_pos hb hn
      obtain ⟨base, hbase, htokens⟩ := Asks.tokens hb free_pages first
      rw [hnm, take_split] at h
      have hstep := FullSide.grow (length_drop_ge hnm hle) h hbase
      rw [extend_kernel, htokens, hb.new_pages c.page_pos, write_rows,
        take_left' (length_next_slots ..), drop_left' (length_next_slots ..)]
      exact ih hnd.2 (FullAsks.update hrest hnd.1) hm (by omega) hstep

theorem assign_append (f : ℤ → ℤ) (xs ys : List (ℤ × ℤ)) :
    assign f (xs ++ ys) = assign (assign f xs) ys := foldl_append

/-- **Both sides of a batch.** -/
theorem grow_batch (hring : c.swa_req_ring = false) {full_pages swa_pages : List ℤ} :
    ∀ {reqs : ℕ → Req} {mapping : ℤ → ℤ} {full_rest swa_rest : List ExtendRequest} {first n : ℕ},
      (batch.map Prod.fst).Nodup → FullAsks c reqs batch full_rest →
      SwaAsks c reqs mapping batch swa_rest → num_new_pages_extend c.page_size full_rest = n →
      first + n ≤ full_pages.length → first + n ≤ swa_pages.length →
      FullSide c ((full_pages.drop first).take n ++ full_pool) reqs →
      SwaSide c ((swa_pages.drop first).take n ++ swa_pool) reqs mapping → SwaSide c swa_pool
        (write_rows c reqs batch (extend_kernel c.page_size full_pages first full_rest))
        (assign mapping ((extend_kernel c.page_size full_pages first full_rest).zip
          (extend_kernel c.page_size swa_pages first swa_rest))) := by
  induction batch with
  | nil =>
    intro reqs mapping full_rest swa_rest first n _ hfasks hsasks hn _ _ _ h
    cases hfasks
    cases hsasks
    have hzero : n = 0 := by
      have : (n : ℤ) = 0 := by rw [← hn]; rfl
      exact_mod_cast this
    rw [hzero] at h
    exact h
  | cons b batch ih =>
    obtain ⟨r, extra⟩ := b
    intro reqs mapping full_rest swa_rest first n hnd hfasks hsasks hn hfle hsle hfull hswa
    cases hfasks with
    | @cons _ full_req _ full_rest hfb hfrest =>
      cases hsasks with
      | @cons _ swa_req _ swa_rest hsb hsrest =>
        rw [map_cons, nodup_cons] at hnd
        obtain ⟨m, hm, hnm⟩ := num_new_pages_cons c.page_pos hfb hn
        obtain ⟨full_base, hfbase, hftokens⟩ := Asks.tokens hfb full_pages first
        obtain ⟨swa_base, hsbase, hstokens⟩ := Asks.tokens hsb swa_pages first
        rw [hnm, take_split] at hfull hswa
        have hfstep := FullSide.grow (length_drop_ge hnm hfle) hfull hfbase
        have hsstep := SwaSide.grow hring (length_drop_ge hnm hsle) hfstep hswa hsbase
        -- the slots of the other requests are not among those just mapped
        have hsasks' := SwaAsks.update (q := (reqs r).grow c
            (next_slots c (reqs r) extra full_base (full_pages.drop first))) hsrest hnd.1 fun r' i s hne hon hs =>
          assign_next_slots (next_slots c (reqs r) extra swa_base (swa_pages.drop first)) mapping
            (FullSide.not_mem_next_slots hfstep (fun hz => (hfbase hz).1) hne hon hs)
        rw [extend_kernel, extend_kernel, hftokens, hstokens, hfb.new_pages c.page_pos,
          hsb.new_pages c.page_pos, write_rows, take_left' (length_next_slots ..),
          drop_left' (length_next_slots ..),
          zip_append (by rw [length_next_slots, length_next_slots]), assign_append]
        exact ih hnd.2 (FullAsks.update hfrest hnd.1) hsasks' hm (by omega) (by omega) hfstep hsstep

end batch

/-! ## Ranges given up -/

section ranges

variable {c : SwaConfig}

/-- The pages of the range from `start` to `stop`. -/
def range_pages (c : SwaConfig) (start stop : ℕ) : List ℕ :=
  (List.range (page_count c.page_size (stop - start))).map fun i => start / c.page_size + i

theorem nodup_range_pages (start stop : ℕ) : (range_pages c start stop).Nodup := by
  refine nodup_range.map_on ?_
  intro i _ j _ h
  omega

theorem mem_range_pages {start stop : ℕ} (hs : start % c.page_size = 0) (j : ℕ) :
    j ∈ range_pages c start stop ↔ Req.within c start stop j = true := by
  have hp := c.page_pos
  obtain ⟨a, rfl⟩ := Nat.dvd_of_mod_eq_zero hs
  unfold range_pages Req.within
  rw [mem_map, Bool.and_eq_true, decide_eq_true_eq, decide_eq_true_eq,
    Nat.mul_div_cancel_left _ hp, Nat.mul_comm c.page_size a]
  constructor
  · rintro ⟨i, hi, rfl⟩
    rw [mem_range, lt_page_count hp] at hi
    rw [Nat.add_mul]
    omega
  · rintro ⟨hge, hlt⟩
    have haj : a ≤ j := Nat.le_of_mul_le_mul_right hge hp
    refine ⟨j - a, ?_, by omega⟩
    rw [mem_range, lt_page_count hp, Nat.sub_mul]
    omega

theorem stride_segment {q : Req} {start stop : ℕ} (hs : start % c.page_size = 0)
    (hstop : stop ≤ q.row.length) : stride c.page_size (segment q start stop)
      = (range_pages c start stop).map fun j => (q.row[j * c.page_size]?).getD 0 := by
  have hp := c.page_pos
  obtain ⟨a, rfl⟩ := Nat.dvd_of_mod_eq_zero hs
  have hlen : (segment q (c.page_size * a) stop).length = stop - c.page_size * a := by
    rw [segment, length_take, length_drop]
    omega
  unfold stride range_pages
  rw [hlen, map_map]
  apply map_congr_left
  intro i hi
  rw [mem_range] at hi
  have hlt := (lt_page_count hp).mp hi
  rw [comp_apply, Nat.mul_div_cancel_left _ hp, getD_eq_getElem?_getD, segment,
    getElem?_take_of_lt hlt, getElem?_drop, Nat.add_mul, Nat.mul_comm c.page_size a]

end ranges

section giveup

variable {c : SwaConfig} {pool full_pool : List ℤ} {reqs : ℕ → Req} {r start stop : ℕ}
  {mapping : ℤ → ℤ}

theorem slot_update {q : Req} (hrow : q.row = (reqs r).row) :
    slot (Function.update reqs r q) = slot reqs := by
  funext r' i
  by_cases hr : r' = r
  · subst hr
    rw [slot, update_self, hrow, slot]
  · rw [slot, update_of_ne hr, slot]

theorem FullSide.unpair (h : FullSide c pool reqs) :
    FullSide c pool (Function.update reqs r ((reqs r).unpair c start stop)) := by
  have hon : full_on (Function.update reqs r ((reqs r).unpair c start stop)) = full_on reqs := by
    funext r' j
    by_cases hr : r' = r
    · subst hr
      rw [full_on, update_self]
      rfl
    · rw [full_on, update_of_ne hr, full_on]
  unfold FullSide
  rw [hon, slot_update (by rfl)]
  exact h

theorem FullSide.first_slot (h : FullSide c pool reqs) {j : ℕ} (hj : full_on reqs r j = true) :
    page_owns c.page_size (full_on reqs) (slot reqs) (r, j)
      (((reqs r).row[j * c.page_size]?).getD 0 / c.page_size) := by
  obtain ⟨p, hown, -⟩ := h.laid r j hj
  have hne : (c.page_size : ℤ) ≠ 0 := by exact_mod_cast c.page_pos.ne'
  have hrow : (reqs r).row[j * c.page_size]? = some (p * c.page_size) := hown.2
  rw [hrow, Option.getD_some, Int.mul_ediv_cancel _ hne]
  exact hown

/-- **The full pages of a range given up.** -/
theorem FullSide.unown (h : FullSide c pool reqs) (hs : start % c.page_size = 0)
    (hstop : stop ≤ (reqs r).row.length)
    (hall : ∀ j, Req.within c start stop j = true → full_on reqs r j = true) :
    FullSide c ((stride c.page_size (segment (reqs r) start stop)).map (fun s : ℤ => s / c.page_size)
      ++ pool) (Function.update reqs r ((reqs r).unown c start stop)) := by
  rw [stride_segment hs hstop, map_map]
  refine (PagedRows.drop (r := r) h c.page_pos (nodup_range_pages start stop) ?_ ?_ ?_ ?_ ?_).2
  · exact fun j hj => hall j ((mem_range_pages hs j).mp hj)
  · exact fun j hj => h.first_slot (hall j ((mem_range_pages hs j).mp hj))
  · intro r' hr j
    rw [full_on, update_of_ne hr, full_on]
  · intro j
    rw [Req.unown, mem_range_pages hs]
    simp [full_on]
  · intro r' i _
    rw [slot_update (by rfl)]

theorem SwaSide.unown (h : SwaSide c pool reqs mapping)
    (hall : ∀ j, Req.within c start stop j = true → swa_on reqs r j = false) :
    SwaSide c pool (Function.update reqs r ((reqs r).unown c start stop)) mapping := by
  have hon : swa_on (Function.update reqs r ((reqs r).unown c start stop)) = swa_on reqs := by
    funext r' j
    by_cases hr : r' = r
    · subst hr
      have hj := hall j
      rw [swa_on, Req.unown]
      rw [swa_on] at hj ⊢
      cases hw : Req.within c start stop j with
      | false => simp [hw]
      | true => simp [hw, hj hw]
    · rw [swa_on, update_of_ne hr, swa_on]
  have hslot := @slot_update reqs r ((reqs r).unown c start stop) rfl
  have hpeer : peer (Function.update reqs r ((reqs r).unown c start stop)) mapping = peer reqs mapping := by
    funext r' i
    have := congrFun (congrFun hslot r') i
    rw [slot, slot] at this
    rw [peer, peer, this]
  refine ⟨?_, ?_⟩
  · rw [hon, hpeer]
    exact h.rows
  · rw [hon, hslot]
    exact h.zero

theorem mem_expand {reps : List ℤ} {s : ℤ} : s ∈ expand_to_full_pages c reps ↔
    ∃ t ∈ reps, ∃ o < c.page_size, s = t / c.page_size * c.page_size + (o : ℤ) := by
  unfold expand_to_full_pages
  rw [mem_flatMap]
  constructor
  · rintro ⟨t, ht, hs⟩
    obtain ⟨o, ho, rfl⟩ := mem_map.mp hs
    exact ⟨t, ht, o, mem_range.mp ho, rfl⟩
  · rintro ⟨t, ht, o, ho, rfl⟩
    exact ⟨t, ht, mem_map.mpr ⟨o, mem_range.mpr ho, rfl⟩⟩

theorem FullSide.mem_expand_iff (h : FullSide c full_pool reqs) (hs : start % c.page_size = 0)
    (hstop : stop ≤ (reqs r).row.length)
    (hall : ∀ j, Req.within c start stop j = true → full_on reqs r j = true) {r' i : ℕ} {s : ℤ}
    (hon : full_on reqs r' (i / c.page_size) = true) (hslot : slot reqs r' i = some s) :
    s ∈ expand_to_full_pages c (stride c.page_size (segment (reqs r) start stop)) ↔
      r' = r ∧ Req.within c start stop (i / c.page_size) = true := by
  have hp := c.page_pos
  obtain ⟨p, hown, heq⟩ := h.slot_of hon hslot
  rw [mem_expand, stride_segment hs hstop]
  constructor
  · rintro ⟨t, ht, o, ho, hso⟩
    obtain ⟨j, hj, rfl⟩ := mem_map.mp ht
    have hin := (mem_range_pages hs j).mp hj
    rw [heq] at hso
    obtain ⟨hpj, -⟩ := slot_inj hp (Nat.mod_lt i hp) ho hso
    have hownj := h.first_slot (hall j hin)
    rw [← hpj] at hownj
    obtain ⟨hr, hji⟩ := Prod.mk.inj (h.ledger.single _ _ p hown hownj)
    exact ⟨hr, by rw [hji]; exact hin⟩
  · rintro ⟨rfl, hin⟩
    refine ⟨_, mem_map.mpr ⟨_, (mem_range_pages hs _).mpr hin, rfl⟩, i % c.page_size,
      Nat.mod_lt i hp, ?_⟩
    have hfirst := h.first_slot (hall _ hin)
    have hpe := mul_page_inj hp (Option.some.inj (hown.2.symm.trans hfirst.2))
    rw [← hpe, heq]

theorem SwaSide.first_peer (h : SwaSide c pool reqs mapping) {j : ℕ} (hj : swa_on reqs r j = true) :
    page_owns c.page_size (swa_on reqs) (peer reqs mapping) (r, j)
      (mapping (((reqs r).row[j * c.page_size]?).getD 0) / c.page_size) ∧
    0 < mapping (((reqs r).row[j * c.page_size]?).getD 0) := by
  obtain ⟨q, hown, -⟩ := h.rows.laid r j hj
  have hpos : (0 : ℤ) < c.page_size := by exact_mod_cast c.page_pos
  obtain ⟨hone, -⟩ := h.rows.ledger.owned_range hown
  have hpeer : (reqs r).row[j * c.page_size]?.map mapping = some (q * c.page_size) := hown.2
  obtain ⟨s, hrow, hs⟩ := Option.map_eq_some_iff.mp hpeer
  rw [hrow, Option.getD_some, hs, Int.mul_ediv_cancel _ hpos.ne']
  exact ⟨hown, Int.mul_pos (by omega) hpos⟩

/-- **The peers of a range given up**: one representative per page finds its SWA page, and the
entries of the whole pages are cleared. -/
theorem SwaSide.unpair (hfull : FullSide c full_pool reqs) (h : SwaSide c pool reqs mapping)
    (hs : start % c.page_size = 0) (hstop : stop ≤ (reqs r).row.length)
    (hall : ∀ j, Req.within c start stop j = true → swa_on reqs r j = true) :
    (∀ t ∈ (stride c.page_size (segment (reqs r) start stop)).map mapping, 0 < t) ∧
    (((stride c.page_size (segment (reqs r) start stop)).map mapping).map
      fun t : ℤ => t / c.page_size).Nodup ∧
    SwaSide c ((((stride c.page_size (segment (reqs r) start stop)).map mapping).map
        fun t : ℤ => t / c.page_size) ++ pool)
      (Function.update reqs r ((reqs r).unpair c start stop))
      (assign mapping ((expand_to_full_pages c (stride c.page_size (segment (reqs r) start stop))).map
        fun s => (s, 0))) := by
  have hlive : ∀ r' j, swa_on reqs r' j = true → full_on reqs r' j = true := by
    intro r' j hj
    exact (Bool.and_eq_true _ _ ▸ hj : _ ∧ _).1
  have hallf : ∀ j, Req.within c start stop j = true → full_on reqs r j = true :=
    fun j hj => hlive r j (hall j hj)
  obtain ⟨cleared, hcleared⟩ : ∃ cleared,
      expand_to_full_pages c (stride c.page_size (segment (reqs r) start stop)) = cleared := ⟨_, rfl⟩
  have hmem : ∀ {r' i s}, full_on reqs r' (i / c.page_size) = true → slot reqs r' i = some s →
      (s ∈ cleared ↔ r' = r ∧ Req.within c start stop (i / c.page_size) = true) := by
    intro r' i s hon hrow
    rw [← hcleared]
    exact hfull.mem_expand_iff hs hstop hallf hon hrow
  have hval : ∀ s, assign mapping (cleared.map fun s => (s, (0 : ℤ))) s
      = if s ∈ cleared then 0 else mapping s := fun s => assign_const mapping s
  have hslot := @slot_update reqs r ((reqs r).unpair c start stop) rfl
  have hon' : ∀ r' j, swa_on (Function.update reqs r ((reqs r).unpair c start stop)) r' j = true ↔
      swa_on reqs r' j = true ∧ ¬ (r' = r ∧ Req.within c start stop j = true) := by
    intro r' j
    by_cases hr : r' = r
    · subst hr
      rw [swa_on, update_self, Req.unpair, swa_on]
      simp only [Bool.and_eq_true, Bool.not_eq_true', true_and, Bool.not_eq_true]
      tauto
    · rw [swa_on, swa_on]
      simp [hr]
  rw [hcleared, stride_segment hs hstop, map_map, map_map]
  have hdrop : _ ∧ PagedRows c.page_size c.swa.num_pages _
      (swa_on (Function.update reqs r ((reqs r).unpair c start stop)))
      (peer (Function.update reqs r ((reqs r).unpair c start stop))
        (assign mapping (cleared.map fun s => (s, 0)))) :=
    PagedRows.drop (r := r) h.rows c.page_pos (nodup_range_pages start stop)
      (fun j hj => hall j ((mem_range_pages hs j).mp hj))
      (fun j hj => (h.first_peer (hall j ((mem_range_pages hs j).mp hj))).1) ?_ ?_ ?_
  · refine ⟨?_, hdrop.1, hdrop.2, ?_⟩
    · intro t ht
      obtain ⟨j, hj, rfl⟩ := mem_map.mp ht
      exact (h.first_peer (hall j ((mem_range_pages hs j).mp hj))).2
    · -- an entry that is still set was set before, and its page is not in the range
      intro s hnonneg hne
      rw [hval] at hne
      split at hne
      · exact absurd rfl hne
      · rename_i hout
        obtain ⟨r', i, hj, hrow⟩ := h.zero s hnonneg hne
        refine ⟨r', i, (hon' r' _).mpr ⟨hj, ?_⟩, by rw [hslot]; exact hrow⟩
        intro hin
        exact hout ((hmem (hlive _ _ hj) hrow).mpr hin)
  · intro r' hr j
    rw [swa_on, update_of_ne hr, swa_on]
  · intro j
    rw [hon', mem_range_pages hs]
    simp
  · intro r' i hj
    obtain ⟨hold, hout⟩ := (hon' _ _).mp hj
    have hrow := congrFun (congrFun hslot r') i
    rw [slot, slot] at hrow
    rw [peer, peer, hrow]
    cases hsome : (reqs r').row[i]? with
    | none => rfl
    | some s =>
      rw [Option.map_some, Option.map_some, hval, if_neg]
      intro hin
      exact hout ((hmem (hlive _ _ hold) hsome).mp hin)

end giveup

end LightningH3.SwaAllocator
