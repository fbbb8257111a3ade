/-
Rows of slots laid out in pages.

Slot `p * page_size + o` is slot `o` of page `p`. A family of rows holds slots at positions
`0, 1, ..`; page `j` of a row covers the positions `j * page_size + o`. `PagedRows` says that the
pages that are `on` are laid out page by page, slot by slot, and that together with a pool of free
pages they share out the pages `1 .. n`. A row grows into the rest of its last page and into pages
taken from the pool (`PagedRows.grow`); pages that are given up go back to the pool
(`PagedRows.drop`).
-/
import LightningH3.Lib.PageLedger

set_option autoImplicit false

/-- The pages that `len` slots need. -/
def page_count (page_size len : ℕ) : ℕ := (len + page_size - 1) / page_size

/-- The slot of a position: the last page held before is `base`, and `pages` follow from page
`first_new` on. -/
def slot_at (page_size : ℕ) (base : ℤ) (first_new : ℕ) (pages : List ℤ) (i : ℕ) : ℤ :=
  (if i / page_size < first_new then base else pages.getD (i / page_size - first_new) 0) * page_size
    + (i % page_size : ℕ)

/-- The pages that `extra` more slots open. -/
def opened (page_size len extra : ℕ) : ℕ := page_count page_size (len + extra) - page_count page_size len

section arithmetic

variable {page_size : ℕ} (hp : 0 < page_size)

include hp

theorem page_count_cases (len : ℕ) :
    (len % page_size = 0 ∧ page_count page_size len = len / page_size ∧
      page_count page_size len * page_size = len) ∨
    (len % page_size ≠ 0 ∧ page_count page_size len = len / page_size + 1 ∧
      page_count page_size len * page_size = len - len % page_size + page_size) := by
  have hdiv := Nat.div_add_mod' len page_size
  have hlt := Nat.mod_lt len hp
  unfold page_count
  by_cases hz : len % page_size = 0
  · left
    have hc : (len + page_size - 1) / page_size = len / page_size := by
      have hsum : len + page_size - 1 = page_size * (len / page_size) + (page_size - 1) := by
        rw [Nat.mul_comm]
        omega
      rw [hsum, Nat.mul_add_div hp, Nat.div_eq_of_lt (Nat.sub_lt hp Nat.one_pos), Nat.add_zero]
    rw [hc]
    exact ⟨hz, rfl, by omega⟩
  · right
    have hc : (len + page_size - 1) / page_size = len / page_size + 1 := by
      have hsum : len + page_size - 1 = page_size * (len / page_size + 1) + (len % page_size - 1) := by
        rw [Nat.mul_comm, Nat.add_mul]
        omega
      have hlt' : len % page_size - 1 < page_size := by omega
      rw [hsum, Nat.mul_add_div hp, Nat.div_eq_of_lt hlt']
    refine ⟨hz, hc, ?_⟩
    rw [hc, Nat.add_mul]
    omega

/-- The pages begun by `len` slots are those with a number below `page_count`. -/
theorem lt_page_count {len j : ℕ} : j < page_count page_size len ↔ j * page_size < len := by
  unfold page_count
  rw [Nat.lt_iff_add_one_le, Nat.le_div_iff_mul_le hp, Nat.add_mul]
  omega

theorem page_count_mul (j : ℕ) : page_count page_size (j * page_size) = j := by
  rcases page_count_cases hp (j * page_size) with ⟨-, hc, -⟩ | ⟨hz, -, -⟩
  · rw [hc, Nat.mul_div_cancel _ hp]
  · exact absurd (Nat.mul_mod_left j page_size) hz

omit hp in
theorem page_count_mono {a b : ℕ} (h : a ≤ b) : page_count page_size a ≤ page_count page_size b := by
  exact Nat.div_le_div_right (by omega)

variable {p : ℤ}

theorem mul_page_inj {p' : ℤ} (h : p * page_size = p' * page_size) : p = p' := by
  have hne : (page_size : ℤ) ≠ 0 := by exact_mod_cast Nat.ne_of_gt hp
  exact Int.eq_of_mul_eq_mul_right hne h

theorem slot_div {o : ℕ} (ho : o < page_size) : (p * page_size + (o : ℤ)) / page_size = p := by
  have hpos : (page_size : ℤ) ≠ 0 := by exact_mod_cast Nat.ne_of_gt hp
  rw [Int.add_comm, Int.add_mul_ediv_right _ _ hpos, Int.ediv_eq_zero_of_lt (by omega) (by omega),
    Int.zero_add]

theorem slot_inj {p' : ℤ} {o o' : ℕ} (ho : o < page_size) (ho' : o' < page_size)
    (h : p * page_size + (o : ℤ) = p' * page_size + (o' : ℤ)) : p = p' ∧ o = o' := by
  have heq : p = p' := by rw [← slot_div hp ho (p := p), h, slot_div hp ho']
  subst heq
  exact ⟨rfl, by omega⟩

/-- A position past the end lies in the partial last page or in a page that is opened. -/
theorem new_position {len extra i : ℕ} (hi : len ≤ i) (hlt : i < len + extra) :
    (len % page_size ≠ 0 ∧ i / page_size = len / page_size ∧ i / page_size < page_count page_size len) ∨
      (page_count page_size len ≤ i / page_size ∧
        i / page_size - page_count page_size len < opened page_size len extra) := by
  have hin : i / page_size < page_count page_size (len + extra) := by
    rw [lt_page_count hp]
    have := Nat.div_mul_le_self i page_size
    omega
  by_cases hold : i / page_size < page_count page_size len
  · left
    have hge : len / page_size ≤ i / page_size := Nat.div_le_div_right hi
    rcases page_count_cases hp len with ⟨-, hc, -⟩ | ⟨hz, hc, -⟩
    · omega
    · exact ⟨hz, by omega, hold⟩
  · right
    unfold opened
    omega

end arithmetic

/-- Row `k.1` has the page `p` as its page `k.2`. -/
def page_owns {ι : Type} (page_size : ℕ) (on : ι → ℕ → Bool) (val : ι → ℕ → Option ℤ) (k : ι × ℕ)
    (p : ℤ) : Prop :=
  on k.1 k.2 = true ∧ val k.1 (k.2 * page_size) = some (p * page_size)

/-- Rows in pages: `val r i` is the slot at position `i` of row `r`. -/
structure PagedRows {ι : Type} (page_size : ℕ) (n : ℤ) (pool : List ℤ) (on : ι → ℕ → Bool)
    (val : ι → ℕ → Option ℤ) : Prop where
  ledger : PageLedger n pool (page_owns page_size on val)
  laid : ∀ r j, on r j = true → ∃ p, page_owns page_size on val (r, j) p ∧
    ∀ i, i / page_size = j → ∀ v, val r i = some v → v = p * page_size + (i % page_size : ℕ)

namespace PagedRows

open List

variable {ι : Type} {page_size : ℕ} {n : ℤ} {pool pages : List ℤ} {on on' : ι → ℕ → Bool}
  {val val' : ι → ℕ → Option ℤ}

variable {r : ι} {i : ℕ} {v : ℤ}

section

variable (h : PagedRows page_size n pool on val)
include h

theorem slot_of (hon : on r (i / page_size) = true)
    (hv : val r i = some v) : ∃ p, page_owns page_size on val (r, i / page_size) p ∧
      v = p * page_size + (i % page_size : ℕ) := by
  obtain ⟨p, hp, hlaid⟩ := h.laid r _ hon
  exact ⟨p, hp, hlaid i rfl v hv⟩

/-- **No slot twice**: a slot is at one position of one row. -/
theorem slot_once (hp : 0 < page_size) {r' : ι} {i' : ℕ}
    (hon : on r (i / page_size) = true) (hv : val r i = some v)
    (hon' : on r' (i' / page_size) = true) (hv' : val r' i' = some v) : r = r' ∧ i = i' := by
  obtain ⟨p, hown, heq⟩ := h.slot_of hon hv
  obtain ⟨p', hown', heq'⟩ := h.slot_of hon' hv'
  rw [heq] at heq'
  obtain ⟨rfl, ho⟩ := slot_inj hp (Nat.mod_lt i hp) (Nat.mod_lt i' hp) heq'
  obtain ⟨hr, hj⟩ := Prod.mk.inj (h.ledger.single _ _ p hown hown')
  refine ⟨hr, ?_⟩
  rw [← Nat.div_add_mod i page_size, ← Nat.div_add_mod i' page_size, hj, ho]

theorem page_le_slot (hon : on r (i / page_size) = true)
    (hv : val r i = some v) : (page_size : ℤ) ≤ v := by
  obtain ⟨p, hown, heq⟩ := h.slot_of hon hv
  obtain ⟨hone, -⟩ := h.ledger.owned_range hown
  have hmul : 1 * (page_size : ℤ) ≤ p * page_size :=
    Int.mul_le_mul_of_nonneg_right hone (Int.natCast_nonneg _)
  omega

theorem perm (hperm : pool.Perm pages) :
    PagedRows page_size n pages on val := ⟨h.ledger.perm hperm, h.laid⟩

theorem congr (hp : 0 < page_size) (hon : ∀ r j, on' r j = on r j)
    (hval : ∀ r i, on r (i / page_size) = true → val' r i = val r i) :
    PagedRows page_size n pool on' val' := by
  have howns : ∀ k p, page_owns page_size on' val' k p ↔ page_owns page_size on val k p := by
    rintro ⟨r, j⟩ p
    dsimp only [page_owns]
    rw [hon]
    constructor
    · rintro ⟨h₁, h₂⟩
      rw [hval r _ (by rwa [Nat.mul_div_cancel _ hp])] at h₂
      exact ⟨h₁, h₂⟩
    · rintro ⟨h₁, h₂⟩
      rw [hval r _ (by rwa [Nat.mul_div_cancel _ hp])]
      exact ⟨h₁, h₂⟩
  refine ⟨h.ledger.congr howns, ?_⟩
  intro r j hj
  rw [hon] at hj
  obtain ⟨p, hown, hlaid⟩ := h.laid r j hj
  refine ⟨p, (howns _ _).mpr hown, ?_⟩
  intro i hi v hv
  rw [hval r i (by rwa [hi])] at hv
  exact hlaid i hi v hv

end

theorem idle (hnd : pool.Nodup) (hpool : ∀ p, p ∈ pool ↔ 1 ≤ p ∧ p ≤ n) (hon : ∀ r j, on r j = false) :
    PagedRows page_size n pool on val := by
  refine ⟨.full hnd hpool ?_, ?_⟩
  · rintro ⟨r, j⟩ p ⟨h, -⟩
    rw [hon] at h
    cases h
  · intro r j h
    rw [hon] at h
    cases h

/-- **Growth.** Row `r`, which had `len` slots, gets `extra` more: they fill its last page `base` and
the first `pages` of the pool. -/
theorem grow {len extra : ℕ} {base : ℤ} (hp : 0 < page_size)
    (hpages : opened page_size len extra ≤ pages.length)
    (h : PagedRows page_size n (pages.take (opened page_size len extra) ++ pool) on val)
    (hlen : ∀ i v, val r i = some v → i < len)
    (hbase : len % page_size ≠ 0 → page_owns page_size on val (r, len / page_size) base)
    (hother : ∀ r', r' ≠ r → ∀ j, on' r' j = on r' j)
    (hself : ∀ j, on' r j = true ↔ on r j = true ∨ (page_count page_size len ≤ j ∧
      j - page_count page_size len < opened page_size len extra))
    (hold : ∀ r' i, on r' (i / page_size) = true → (r' ≠ r ∨ i < len) → val' r' i = val r' i)
    (hnew : ∀ i v, len ≤ i → (val' r i = some v ↔ i < len + extra ∧
      v = slot_at page_size base (page_count page_size len) pages i)) :
    PagedRows page_size n pool on' val' := by
  obtain ⟨c₀, hc₀⟩ : ∃ c₀, page_count page_size len = c₀ := ⟨_, rfl⟩
  rw [hc₀] at hself hnew
  -- the pages that are opened begin with the pages taken
  have hget : ∀ m, m < opened page_size len extra →
      ∃ p, (pages.take (opened page_size len extra))[m]? = some p ∧ pages.getD m 0 = p := by
    intro m hm
    have hlt : m < pages.length := by omega
    refine ⟨pages.getD m 0, ?_, rfl⟩
    rw [getElem?_take_of_lt hm, getD_eq_getElem?_getD, getElem?_eq_getElem hlt]
    rfl
  have hbegun : ∀ j, on r j = true → j < c₀ := by
    intro j hj
    obtain ⟨p, ⟨-, hv⟩, -⟩ := h.laid r j hj
    rw [← hc₀, lt_page_count hp]
    exact hlen _ _ hv
  have hopen : ∀ j, c₀ ≤ j → j - c₀ < opened page_size len extra → len ≤ j * page_size ∧
      j * page_size < len + extra := by
    intro j hge hlt
    have hnot : ¬ j < page_count page_size len := by omega
    have hin : j < page_count page_size (len + extra) := by
      unfold opened at hlt
      omega
    rw [lt_page_count hp] at hnot hin
    omega
  have hfirst : ∀ j, c₀ ≤ j → slot_at page_size base c₀ pages (j * page_size)
      = pages.getD (j - c₀) 0 * page_size := by
    intro j hge
    rw [slot_at, Nat.mul_div_cancel _ hp, Nat.mul_mod_left, if_neg (Nat.not_lt.mpr hge),
      Int.natCast_zero, Int.add_zero]
  have hkeep : ∀ r' j p, page_owns page_size on val (r', j) p → page_owns page_size on' val' (r', j) p := by
    rintro r' j p ⟨hj, hv⟩
    by_cases hr : r' = r
    · subst hr
      refine ⟨(hself j).mpr (.inl hj), ?_⟩
      rw [hold r' _ (by rwa [Nat.mul_div_cancel _ hp]) (.inr (hlen _ _ hv))]
      exact hv
    · refine ⟨by rw [hother r' hr]; exact hj, ?_⟩
      rw [hold r' _ (by rwa [Nat.mul_div_cancel _ hp]) (.inl hr)]
      exact hv
  have howns : ∀ k p, page_owns page_size on' val' k p ↔ page_owns page_size on val k p ∨
      (k.1 = r ∧ c₀ ≤ k.2 ∧ (pages.take (opened page_size len extra))[k.2 - c₀]? = some p) := by
    rintro ⟨r', j⟩ p
    constructor
    · rintro ⟨hj, hv⟩
      by_cases hr : r' = r
      · subst hr
        rcases (hself j).mp hj with hj | ⟨hge, hlt⟩
        · left
          have hlt := (lt_page_count hp).mp (hc₀ ▸ hbegun j hj)
          rw [hold r' _ (by rwa [Nat.mul_div_cancel _ hp]) (.inr hlt)] at hv
          exact ⟨hj, hv⟩
        · right
          obtain ⟨p', hp', hget'⟩ := hget _ hlt
          obtain ⟨-, heq⟩ := (hnew _ _ (hopen j hge hlt).1).mp hv
          rw [hfirst j hge, hget'] at heq
          exact ⟨rfl, hge, by rw [hp', mul_page_inj hp heq]⟩
      · rw [hother r' hr] at hj
        rw [hold r' _ (by rwa [Nat.mul_div_cancel _ hp]) (.inl hr)] at hv
        exact .inl ⟨hj, hv⟩
    · rintro (hown | ⟨heq, hge, hs⟩)
      · exact hkeep r' j p hown
      · subst heq
        have hlt := (List.getElem?_eq_some_iff.mp hs).1
        rw [length_take] at hlt
        obtain ⟨p', hp', hget'⟩ := hget (j - c₀) (by omega)
        rw [hs, Option.some.injEq] at hp'
        have ho := hopen j hge (by omega)
        refine ⟨(hself j).mpr (.inr ⟨hge, by omega⟩), (hnew _ _ ho.1).mpr ⟨ho.2, ?_⟩⟩
        rw [hfirst j hge, hget', hp']
  refine ⟨h.ledger.take howns ?_ ?_ ?_, ?_⟩
  · rintro k p ⟨-, -, hs⟩
    exact mem_of_getElem? hs
  · intro p hmem
    obtain ⟨m, hm⟩ := mem_iff_getElem?.mp hmem
    refine ⟨(r, c₀ + m), rfl, by dsimp only; omega, ?_⟩
    rwa [Nat.add_sub_cancel_left]
  · rintro ⟨r₁, j₁⟩ ⟨r₂, j₂⟩ p ⟨h₁, hge₁, hs₁⟩ ⟨h₂, hge₂, hs₂⟩
    dsimp only at h₁ h₂ hge₁ hge₂ hs₁ hs₂
    have hnd : (pages.take (opened page_size len extra)).Nodup :=
      (nodup_append.mp h.ledger.nodup).1
    have hlt := (List.getElem?_eq_some_iff.mp hs₁).1
    have hidx := (getElem?_inj hlt hnd).mp (hs₁.trans hs₂.symm)
    rw [h₂]
    congr 1
    omega
  · intro r' j hj
    by_cases hr : r' = r
    · subst hr
      by_cases hjold : on r' j = true
      · obtain ⟨p, hown, hlaid⟩ := h.laid r' j hjold
        refine ⟨p, hkeep r' j p hown, ?_⟩
        intro i hi v hv
        by_cases hlt : i < len
        · rw [hold r' i (by rwa [hi]) (.inr hlt)] at hv
          exact hlaid i hi v hv
        · -- a new position in a page that was on is in the partial last page
          obtain ⟨hin, rfl⟩ := (hnew i v (Nat.le_of_not_lt hlt)).mp hv
          rcases new_position hp (Nat.le_of_not_lt hlt) hin with ⟨hz, hlast, hc⟩ | ⟨hge, -⟩
          · have hb := hbase hz
            rw [← hlast, hi] at hb
            have hpb : p = base := mul_page_inj hp (Option.some.inj (hown.2.symm.trans hb.2))
            rw [slot_at, if_pos (by rwa [← hc₀]), hpb]
          · have := hbegun j hjold
            omega
      · obtain ⟨hge, hlt⟩ := ((hself j).mp hj).resolve_left hjold
        obtain ⟨p, hs, hget'⟩ := hget _ hlt
        refine ⟨p, (howns _ _).mpr (.inr ⟨rfl, hge, hs⟩), ?_⟩
        intro i hi v hv
        have hpast : len ≤ i := by
          have hle := Nat.div_mul_le_self i page_size
          have := (hopen j hge hlt).1
          rw [hi] at hle
          omega
        obtain ⟨-, rfl⟩ := (hnew i v hpast).mp hv
        rw [slot_at, hi, if_neg (Nat.not_lt.mpr hge), hget']
    · rw [hother r' hr] at hj
      obtain ⟨p, hown, hlaid⟩ := h.laid r' j hj
      refine ⟨p, hkeep r' j p hown, ?_⟩
      intro i hi v hv
      rw [hold r' i (by rwa [hi]) (.inl hr)] at hv
      exact hlaid i hi v hv

/-- **Giving pages up.** The pages `js` of row `r` go to the pool. -/
theorem drop {js : List ℕ} (h : PagedRows page_size n pool on val) (hp : 0 < page_size)
    (hnd : js.Nodup) (hall : ∀ j ∈ js, on r j = true) {page_of : ℕ → ℤ}
    (hpage : ∀ j ∈ js, page_owns page_size on val (r, j) (page_of j))
    (hother : ∀ r', r' ≠ r → ∀ j, on' r' j = on r' j)
    (hself : ∀ j, on' r j = true ↔ on r j = true ∧ j ∉ js)
    (hval : ∀ r' i, on' r' (i / page_size) = true → val' r' i = val r' i) :
    (js.map page_of).Nodup ∧ PagedRows page_size n (js.map page_of ++ pool) on' val' := by
  have hdrop : ∀ r' j p, page_owns page_size on val (r', j) p →
      (on' r' j = true ↔ p ∉ js.map page_of) := by
    rintro r' j p hown
    rw [mem_map]
    by_cases hr : r' = r
    · subst hr
      rw [hself]
      constructor
      · rintro ⟨-, hnot⟩ ⟨j', hj', rfl⟩
        obtain ⟨-, hjj⟩ := Prod.mk.inj (h.ledger.single _ _ _ hown (hpage j' hj'))
        exact hnot (hjj ▸ hj')
      · intro hnot
        refine ⟨hown.1, fun hj => hnot ⟨j, hj, ?_⟩⟩
        exact mul_page_inj hp (Option.some.inj ((hpage j hj).2.symm.trans hown.2))
    · rw [hother r' hr]
      constructor
      · rintro - ⟨j', hj', rfl⟩
        exact hr (Prod.mk.inj (h.ledger.single _ _ _ hown (hpage j' hj'))).1
      · exact fun _ => hown.1
  have hsub : ∀ r' j, on' r' j = true → on r' j = true := by
    intro r' j hj
    by_cases hr : r' = r
    · subst hr
      exact ((hself j).mp hj).1
    · rwa [← hother r' hr]
  have howns : ∀ k p, page_owns page_size on' val' k p ↔
      page_owns page_size on val k p ∧ p ∉ js.map page_of := by
    rintro ⟨r', j⟩ p
    constructor
    · rintro ⟨hj, hv⟩
      rw [hval r' _ (by rwa [Nat.mul_div_cancel _ hp])] at hv
      have hown : page_owns page_size on val (r', j) p := ⟨hsub r' j hj, hv⟩
      exact ⟨hown, (hdrop r' j p hown).mp hj⟩
    · rintro ⟨hown, hnot⟩
      have hj := (hdrop r' j p hown).mpr hnot
      refine ⟨hj, ?_⟩
      rw [hval r' _ (by rwa [Nat.mul_div_cancel _ hp])]
      exact hown.2
  have hpnd : (js.map page_of).Nodup := by
    refine hnd.map_on ?_
    intro j hj j' hj' heq
    have hown := hpage j' hj'
    rw [← heq] at hown
    exact (Prod.mk.inj (h.ledger.single _ _ _ (hpage j hj) hown)).2
  refine ⟨hpnd, h.ledger.give hpnd ?_ howns, ?_⟩
  · intro p hmem
    obtain ⟨j, hj, rfl⟩ := mem_map.mp hmem
    exact ⟨_, hpage j hj⟩
  · intro r' j hj
    obtain ⟨p, hown, hlaid⟩ := h.laid r' j (hsub r' j hj)
    refine ⟨p, (howns _ _).mpr ⟨hown, (hdrop r' j p hown).mp hj⟩, ?_⟩
    intro i hi v hv
    rw [hval r' i (by rwa [hi])] at hv
    exact hlaid i hi v hv

end PagedRows
