/-
A two-way page table over a paged memory.

`v2p` sends a virtual page to the physical page that backs it, `p2v` sends a physical page
to the virtual page it backs, and a negative entry means "none". `mem` holds the contents
of the physical pages. Pages are bound and unbound in batches, and a batch of moves copies
pages and redirects both tables at once.

The reasoning interface of a batch of moves is `Movable` (when it is safe) and
`move_spec` (what it then does): the tables stay inverse to each other, the same virtual
pages are bound, and what is read through a virtual page does not change.
-/
import Mathlib.Data.List.Nodup
import Mathlib.Data.List.Perm.Subperm
import Mathlib.Data.Int.Notation

set_option autoImplicit false

/-- The two tables and the contents of the physical pages. -/
structure PageTable (β : Type) where
  v2p : ℤ → ℤ
  p2v : ℤ → ℤ
  mem : ℤ → β

namespace PageTable

open List

variable {α β : Type}

/-! ## Assigning a batch of entries -/

/-- `table[keys] = values`, for a table read as a function. -/
def assign (f : ℤ → α) (writes : List (ℤ × α)) : ℤ → α :=
  writes.foldl (fun g w => Function.update g w.1 w.2) f

theorem assign_cons (f : ℤ → α) (w : ℤ × α) (ws : List (ℤ × α)) :
    assign f (w :: ws) = assign (Function.update f w.1 w.2) ws := rfl

theorem assign_of_notMem {writes : List (ℤ × α)} {k : ℤ} (h : k ∉ writes.map Prod.fst)
    (f : ℤ → α) : assign f writes k = f k := by
  induction writes generalizing f with
  | nil => rfl
  | cons w ws ih =>
    rw [map_cons, mem_cons, not_or] at h
    rw [assign_cons, ih h.2, Function.update_of_ne h.1]

theorem assign_of_mem {writes : List (ℤ × α)} (hnd : (writes.map Prod.fst).Nodup) {k : ℤ} {a : α}
    (h : (k, a) ∈ writes) (f : ℤ → α) : assign f writes k = a := by
  induction writes generalizing f with
  | nil => simp at h
  | cons w ws ih =>
    rw [map_cons, nodup_cons] at hnd
    rw [assign_cons]
    rcases mem_cons.mp h with rfl | h
    · rw [assign_of_notMem hnd.1, Function.update_self]
    · exact ih hnd.2 h _

theorem assign_const {ks : List ℤ} {a : α} (f : ℤ → α) (k : ℤ) :
    assign f (ks.map (fun k => (k, a))) k = if k ∈ ks then a else f k := by
  induction ks generalizing f with
  | nil => rfl
  | cons k' ks ih =>
    rw [map_cons, assign_cons, ih]
    by_cases hk : k ∈ ks
    · rw [if_pos hk, if_pos (mem_cons_of_mem _ hk)]
    · rw [if_neg hk]
      by_cases hkk : k = k'
      · subst hkk
        rw [Function.update_self, if_pos mem_cons_self]
      · rw [Function.update_of_ne hkk, if_neg]
        intro hmem
        rcases mem_cons.mp hmem with h | h
        · exact hkk h
        · exact hk h

/-! ## Binding and unbinding -/

variable (t : PageTable β)

/-- `v2p[v] = p; p2v[p] = v` for a batch of pairs `(v, p)`. -/
def bind (pairs : List (ℤ × ℤ)) : PageTable β :=
  { t with v2p := assign t.v2p pairs, p2v := assign t.p2v (pairs.map Prod.swap) }

/-- `p = v2p[v]; v2p[v] = -1; p2v[p] = -1` for a batch of virtual pages. -/
def unbind (vs : List ℤ) : PageTable β :=
  { t with
    v2p := assign t.v2p (vs.map (fun v => (v, -1)))
    p2v := assign t.p2v ((vs.map t.v2p).map (fun p => (p, -1))) }

/-- `p2v[p] = -1` for a batch of physical pages. -/
def vacate (ps : List ℤ) : PageTable β :=
  { t with p2v := assign t.p2v (ps.map (fun p => (p, -1))) }

/-- `mem[dst] = mem[src]`, one after another, for a batch of pairs `(src, dst)`. -/
def copies (m : ℤ → β) (moves : List (ℤ × ℤ)) : ℤ → β :=
  moves.foldl (fun m sd => Function.update m sd.2 (m sd.1)) m

/-- Copy a batch of pages. -/
def copy (moves : List (ℤ × ℤ)) : PageTable β := { t with mem := copies t.mem moves }

/-- `v = p2v[src]; v2p[v] = dst; p2v[dst] = v` for a batch of pairs `(src, dst)`. -/
def rebind (moves : List (ℤ × ℤ)) : PageTable β :=
  { t with
    v2p := assign t.v2p (moves.map (fun sd => (t.p2v sd.1, sd.2)))
    p2v := assign t.p2v (moves.map (fun sd => (sd.2, t.p2v sd.1))) }

/-- Copy pages, redirect both tables to the copies and vacate the sources. -/
def move (moves : List (ℤ × ℤ)) : PageTable β :=
  ((t.copy moves).rebind moves).vacate (moves.map Prod.fst)

/-- The two tables are inverse to each other on the bound pages. -/
def Inverse : Prop := ∀ v p, 0 ≤ v → 0 ≤ p → (t.v2p v = p ↔ t.p2v p = v)

/-- What is read through a virtual page. -/
def read (v : ℤ) : β := t.mem (t.v2p v)

variable {t}

theorem Inverse.injective (h : t.Inverse) {v w : ℤ} (hv : 0 ≤ v) (hw : 0 ≤ w)
    (hp : 0 ≤ t.v2p v) (hvw : t.v2p v = t.v2p w) : v = w := by
  have h1 := (h v (t.v2p v) hv hp).mp rfl
  have h2 := (h w (t.v2p v) hw hp).mp hvw.symm
  rw [← h1, h2]

theorem Inverse.p2v_v2p (h : t.Inverse) {v : ℤ} (hv : 0 ≤ v) (hp : 0 ≤ t.v2p v) :
    t.p2v (t.v2p v) = v := (h v _ hv hp).mp rfl

theorem Inverse.v2p_p2v (h : t.Inverse) {p : ℤ} (hp : 0 ≤ p) (hv : 0 ≤ t.p2v p) :
    t.v2p (t.p2v p) = p := (h _ p hv hp).mpr rfl

/-! ### Binding -/

/-- A batch of bindings is fresh: distinct unbound virtual pages, distinct unbound
physical pages. -/
structure Fresh (t : PageTable β) (pairs : List (ℤ × ℤ)) : Prop where
  virtual_nodup : (pairs.map Prod.fst).Nodup
  physical_nodup : (pairs.map Prod.snd).Nodup
  virtual_unbound : ∀ x ∈ pairs, 0 ≤ x.1 ∧ t.v2p x.1 < 0
  physical_unbound : ∀ x ∈ pairs, 0 ≤ x.2 ∧ t.p2v x.2 < 0

section Bind

variable {pairs : List (ℤ × ℤ)}

theorem map_fst_swap (pairs : List (ℤ × ℤ)) :
    (pairs.map Prod.swap).map Prod.fst = pairs.map Prod.snd := by
  rw [map_map]
  rfl

variable {v p : ℤ}

theorem v2p_bind_of_mem (hf : Fresh t pairs) (h : (v, p) ∈ pairs) :
    (t.bind pairs).v2p v = p := assign_of_mem hf.virtual_nodup h t.v2p

theorem v2p_bind_of_notMem (h : v ∉ pairs.map Prod.fst) :
    (t.bind pairs).v2p v = t.v2p v := assign_of_notMem h t.v2p

theorem p2v_bind_of_mem (hf : Fresh t pairs) (h : (v, p) ∈ pairs) : (t.bind pairs).p2v p = v := by
  have hmem : (p, v) ∈ pairs.map Prod.swap := mem_map.mpr ⟨(v, p), h, rfl⟩
  refine assign_of_mem ?_ hmem t.p2v
  rw [map_fst_swap]
  exact hf.physical_nodup

theorem p2v_bind_of_notMem (h : p ∉ pairs.map Prod.snd) : (t.bind pairs).p2v p = t.p2v p := by
  refine assign_of_notMem ?_ t.p2v
  rw [map_fst_swap]
  exact h

/-- A fresh batch of bindings keeps the tables inverse to each other. -/
theorem Inverse.bind (h : t.Inverse) (hf : Fresh t pairs) : (t.bind pairs).Inverse := by
  intro v p hv hp
  by_cases hvm : v ∈ pairs.map Prod.fst
  · obtain ⟨⟨v', q⟩, hmem, rfl⟩ := mem_map.mp hvm
    have hq := v2p_bind_of_mem hf hmem
    constructor
    · rintro rfl
      rw [hq]
      exact p2v_bind_of_mem hf hmem
    · intro hpv
      by_cases hpm : p ∈ pairs.map Prod.snd
      · obtain ⟨⟨w, p'⟩, hmem', rfl⟩ := mem_map.mp hpm
        rw [p2v_bind_of_mem hf hmem'] at hpv
        subst hpv
        exact v2p_bind_of_mem hf hmem'
      · rw [p2v_bind_of_notMem hpm] at hpv
        have hold := (h _ p hv hp).mpr hpv
        have hneg := (hf.virtual_unbound _ hmem).2
        omega
  · rw [v2p_bind_of_notMem hvm]
    by_cases hpm : p ∈ pairs.map Prod.snd
    · obtain ⟨⟨w, p'⟩, hmem, rfl⟩ := mem_map.mp hpm
      rw [p2v_bind_of_mem hf hmem]
      constructor
      · intro hvp
        have hold := (h v _ hv hp).mp hvp
        have hneg := (hf.physical_unbound _ hmem).2
        omega
      · rintro rfl
        exact absurd (mem_map.mpr ⟨_, hmem, rfl⟩) hvm
    · rw [p2v_bind_of_notMem hpm]
      exact h v p hv hp

end Bind

/-! ### Unbinding -/

section Unbind

variable {vs : List ℤ}

theorem v2p_unbind (vs : List ℤ) (v : ℤ) :
    (t.unbind vs).v2p v = if v ∈ vs then -1 else t.v2p v := assign_const t.v2p v

theorem p2v_unbind (vs : List ℤ) (p : ℤ) :
    (t.unbind vs).p2v p = if p ∈ vs.map t.v2p then -1 else t.p2v p := assign_const t.p2v p

theorem p2v_vacate (ps : List ℤ) (p : ℤ) :
    (t.vacate ps).p2v p = if p ∈ ps then -1 else t.p2v p := assign_const t.p2v p

theorem Inverse.unbind (h : t.Inverse) (hvs : ∀ v ∈ vs, 0 ≤ v ∧ 0 ≤ t.v2p v) :
    (t.unbind vs).Inverse := by
  intro v p hv hp
  rw [v2p_unbind, p2v_unbind]
  by_cases hvm : v ∈ vs
  · rw [if_pos hvm]
    constructor
    · intro h'
      omega
    · intro h'
      split at h'
      · omega
      next hpm =>
        exact absurd (mem_map.mpr ⟨v, hvm, (h v p hv hp).mpr h'⟩) hpm
  · rw [if_neg hvm]
    constructor
    · intro h'
      rw [if_neg]
      · exact (h v p hv hp).mp h'
      · intro hpm
        obtain ⟨w, hw, hwp⟩ := mem_map.mp hpm
        have hvw := h.injective hv (hvs w hw).1 (by omega) (h'.trans hwp.symm)
        exact hvm (hvw ▸ hw)
    · intro h'
      split at h'
      · omega
      · exact (h v p hv hp).mpr h'

theorem Inverse.nodup_map (h : t.Inverse) (hnd : vs.Nodup)
    (hvs : ∀ v ∈ vs, 0 ≤ v ∧ 0 ≤ t.v2p v) : (vs.map t.v2p).Nodup := by
  refine List.Nodup.map_on ?_ hnd
  intro v hv w hw hvw
  exact h.injective (hvs v hv).1 (hvs w hw).1 (hvs v hv).2 hvw

end Unbind

/-! ## Moves -/

/-- A batch of moves is safe: the sources are distinct bound pages, the destinations
distinct unbound ones. -/
structure Movable (t : PageTable β) (moves : List (ℤ × ℤ)) : Prop where
  src_nodup : (moves.map Prod.fst).Nodup
  dst_nodup : (moves.map Prod.snd).Nodup
  src_bound : ∀ x ∈ moves, 0 ≤ x.1 ∧ 0 ≤ t.p2v x.1
  dst_unbound : ∀ x ∈ moves, 0 ≤ x.2 ∧ t.p2v x.2 < 0

section Move

variable {moves : List (ℤ × ℤ)}

theorem Movable.disjoint (hm : Movable t moves) :
    List.Disjoint (moves.map Prod.fst) (moves.map Prod.snd) := by
  intro p hs hd
  obtain ⟨x, hx, rfl⟩ := mem_map.mp hs
  obtain ⟨y, hy, hxy⟩ := mem_map.mp hd
  have h1 := (hm.src_bound x hx).2
  have h2 := (hm.dst_unbound y hy).2
  rw [hxy] at h2
  omega

theorem Movable.moved_nodup (h : t.Inverse) (hm : Movable t moves) :
    (moves.map (fun sd => t.p2v sd.1)).Nodup := by
  have h1 : ((moves.map Prod.fst).map t.p2v).Nodup := by
    refine List.Nodup.map_on ?_ hm.src_nodup
    intro p hp q hq hpq
    obtain ⟨x, hx, rfl⟩ := mem_map.mp hp
    obtain ⟨y, hy, rfl⟩ := mem_map.mp hq
    have hx' := h.v2p_p2v (hm.src_bound x hx).1 (hm.src_bound x hx).2
    have hy' := h.v2p_p2v (hm.src_bound y hy).1 (hm.src_bound y hy).2
    rw [← hx', ← hy', hpq]
  rwa [map_map] at h1

theorem p2v_move_src {p : ℤ} (hp : p ∈ moves.map Prod.fst) : (t.move moves).p2v p = -1 := by
  unfold move
  rw [p2v_vacate, if_pos hp]

theorem p2v_move_dst (hm : Movable t moves) {s d : ℤ} (h : (s, d) ∈ moves) :
    (t.move moves).p2v d = t.p2v s := by
  have hd : d ∉ moves.map Prod.fst := by
    intro hs
    exact hm.disjoint hs (mem_map.mpr ⟨_, h, rfl⟩)
  unfold move
  rw [p2v_vacate, if_neg hd]
  have hmem : (d, t.p2v s) ∈ moves.map (fun sd => (sd.2, t.p2v sd.1)) :=
    mem_map.mpr ⟨(s, d), h, rfl⟩
  refine assign_of_mem ?_ hmem _
  rw [map_map]
  exact hm.dst_nodup

theorem p2v_move_other {p : ℤ} (hs : p ∉ moves.map Prod.fst) (hd : p ∉ moves.map Prod.snd) :
    (t.move moves).p2v p = t.p2v p := by
  unfold move
  rw [p2v_vacate, if_neg hs]
  refine assign_of_notMem ?_ _
  rw [map_map]
  exact hd

theorem v2p_move_moved (h : t.Inverse) (hm : Movable t moves) {s d : ℤ} (hsd : (s, d) ∈ moves) :
    (t.move moves).v2p (t.p2v s) = d := by
  have hmem : (t.p2v s, d) ∈ moves.map (fun sd => (t.p2v sd.1, sd.2)) :=
    mem_map.mpr ⟨(s, d), hsd, rfl⟩
  refine assign_of_mem ?_ hmem _
  rw [map_map]
  exact hm.moved_nodup h

variable {v : ℤ}

theorem v2p_move_other (hv : v ∉ moves.map (fun sd => t.p2v sd.1)) :
    (t.move moves).v2p v = t.v2p v := by
  refine assign_of_notMem ?_ _
  rw [map_map]
  exact hv

section

variable (h : t.Inverse) (hm : Movable t moves)
include h hm

theorem v2p_move_of_notMem (hv : t.v2p v ∉ moves.map Prod.fst) :
    (t.move moves).v2p v = t.v2p v := by
  apply v2p_move_other
  intro hmem
  obtain ⟨x, hx, hxv⟩ := mem_map.mp hmem
  have hx' := h.v2p_p2v (hm.src_bound x hx).1 (hm.src_bound x hx).2
  rw [hxv] at hx'
  exact hv (mem_map.mpr ⟨x, hx, hx'.symm⟩)

theorem Inverse.move : (t.move moves).Inverse := by
  intro v p hv hp
  by_cases hvm : v ∈ moves.map (fun sd => t.p2v sd.1)
  · obtain ⟨⟨s, d⟩, hsd, rfl⟩ := mem_map.mp hvm
    rw [v2p_move_moved h hm hsd]
    constructor
    · rintro rfl
      exact p2v_move_dst hm hsd
    · intro hpv
      by_cases hps : p ∈ moves.map Prod.fst
      · rw [p2v_move_src hps] at hpv
        omega
      · by_cases hpd : p ∈ moves.map Prod.snd
        · obtain ⟨⟨s', d'⟩, hsd', rfl⟩ := mem_map.mp hpd
          rw [p2v_move_dst hm hsd'] at hpv
          rw [← v2p_move_moved h hm hsd, ← v2p_move_moved h hm hsd', hpv]
        · rw [p2v_move_other hps hpd] at hpv
          have hs := (h _ p hv hp).mpr hpv
          rw [h.v2p_p2v (hm.src_bound _ hsd).1 hv] at hs
          exact absurd (hs ▸ mem_map.mpr ⟨_, hsd, rfl⟩) hps
  · rw [v2p_move_other hvm]
    by_cases hps : p ∈ moves.map Prod.fst
    · rw [p2v_move_src hps]
      constructor
      · intro hvp
        obtain ⟨x, hx, rfl⟩ := mem_map.mp hps
        have hpv := (h v _ hv hp).mp hvp
        exact absurd (mem_map.mpr ⟨x, hx, hpv⟩) hvm
      · intro h'
        omega
    · by_cases hpd : p ∈ moves.map Prod.snd
      · obtain ⟨⟨s, d⟩, hsd, rfl⟩ := mem_map.mp hpd
        rw [p2v_move_dst hm hsd]
        constructor
        · intro hvp
          have hpv := (h v _ hv hp).mp hvp
          have hneg := (hm.dst_unbound _ hsd).2
          omega
        · intro h'
          exact absurd (mem_map.mpr ⟨(s, d), hsd, h'⟩) hvm
      · rw [p2v_move_other hps hpd]
        exact h v p hv hp

theorem v2p_move_bound_iff (hv : 0 ≤ v) : 0 ≤ (t.move moves).v2p v ↔ 0 ≤ t.v2p v := by
  by_cases hvm : v ∈ moves.map (fun sd => t.p2v sd.1)
  · obtain ⟨⟨s, d⟩, hsd, rfl⟩ := mem_map.mp hvm
    rw [v2p_move_moved h hm hsd, h.v2p_p2v (hm.src_bound _ hsd).1 hv]
    exact ⟨fun _ => (hm.src_bound _ hsd).1, fun _ => (hm.dst_unbound _ hsd).1⟩
  · rw [v2p_move_other hvm]

end

end Move

end PageTable
