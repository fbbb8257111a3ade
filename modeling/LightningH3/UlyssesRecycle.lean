/-
Three input exchanges in a row, and when the staging buffer is recycled under their results.
-/
import LightningH3.UlyssesPacked

set_option autoImplicit false

namespace LightningH3.Ulysses

open Segments Tensors List

variable {α : Type}

/-! ## When the result is a view of the buffer -/

theorem permuted_contiguous_iff {w hl b s d : ℕ} (hw : 2 ≤ w) :
    Tensor.permuted_contiguous [w, hl, b, s, d] [2, 0, 3, 1, 4] = true
      ↔ b * s * hl * d = 0 ∨ (b = 1 ∧ (hl = 1 ∨ s = 1)) := by
  have hsizes : Tensor.permuted_contiguous [w, hl, b, s, d] [2, 0, 3, 1, 4]
      = Tensor.is_contiguous [b, w, s, hl, d]
          [s * (d * 1), hl * (b * (s * (d * 1))), d * 1, b * (s * (d * 1)), 1] := rfl
  rw [hsizes]
  unfold Tensor.is_contiguous
  simp only [zip_cons_cons, zip_nil_right, Tensor.contiguous_scan, prod_cons,
    prod_nil, Bool.or_eq_true, Bool.and_eq_true, beq_iff_eq, mul_one, or_true, true_and]
  have hzero : b * (w * (s * (hl * d))) = 0 ↔ b * s * hl * d = 0 := by
    simp only [Nat.mul_eq_zero]
    omega
  rw [hzero]
  by_cases hne : b * s * hl * d = 0
  · simp [hne]
  · simp only [hne, false_or]
    have hs : 0 < s := Nat.pos_of_ne_zero (fun h => hne (by rw [h]; ring))
    have hl' : 0 < hl := Nat.pos_of_ne_zero (fun h => hne (by rw [h]; ring))
    have hd : 0 < d := Nat.pos_of_ne_zero (fun h => hne (by rw [h]; ring))
    have hbatch : hl * (b * (s * d)) = s * (hl * d) ↔ b = 1 := by
      have heq : hl * (b * (s * d)) = b * (s * (hl * d)) := by ring
      rw [heq]
      exact Nat.mul_eq_right (Nat.mul_ne_zero hs.ne' (Nat.mul_ne_zero hl'.ne' hd.ne'))
    have hrow : d = hl * d ↔ hl = 1 := by
      rw [eq_comm]
      exact Nat.mul_eq_right hd.ne'
    rw [hbatch, hrow]
    constructor
    · rintro ⟨⟨⟨-, h2⟩, h3⟩, -⟩
      have hb1 : b = 1 := h3.resolve_left (by omega)
      exact ⟨hb1, h2.symm⟩
    · rintro ⟨rfl, h⟩
      refine ⟨⟨⟨?_, h.symm⟩, .inr rfl⟩, .inl rfl⟩
      rcases h with h | h
      · exact .inl h
      · exact .inr (by rw [h, one_mul, one_mul])

/-! ## One call -/

namespace Memory

section Staging

variable {env : Env} {role : Role} {m : Memory α} {numel : ℕ}

theorem keeps_staging_write (data : ℕ → α) (n : ℕ) :
    Keeps role m ((m.a2a_staging_buffer env role numel).2.write
      (m.a2a_staging_buffer env role numel).1 n data) := by
  intro id hid
  -- the buffer is a new storage, or the one that is cached
  have hnew : Keeps role m (m.new_staging_buffer role numel).2
      ∧ id ≠ (m.new_staging_buffer role numel).1 := by
    refine ⟨fun id hid => ⟨rfl, Nat.lt_succ_of_lt hid.1, fun n' h => ?_⟩, Nat.ne_of_lt hid.1⟩
    replace h : (if role = role then some (m.next, numel) else m.cache role) = some (id, n') := h
    rw [if_pos rfl] at h
    cases h
    exact Nat.lt_irrefl _ hid.1
  have hkeep : Keeps role m (m.a2a_staging_buffer env role numel).2
      ∧ id ≠ (m.a2a_staging_buffer env role numel).1 := by
    unfold a2a_staging_buffer
    split
    · split
      · rename_i storage capacity hcache
        split
        · exact hnew
        · refine ⟨Keeps.refl _ _, fun h => ?_⟩
          exact hid.2 capacity (by rw [hcache, h])
      · exact hnew
    · exact ⟨keeps_empty _ _, Nat.ne_of_lt hid.1⟩
  obtain ⟨heq, howned⟩ := hkeep.1 id hid
  refine ⟨?_, howned⟩
  funext k
  rw [cells_write, if_neg (fun h => hkeep.2 h.1), heq]

theorem owned_staging (hstaging : env.staging = false) :
    (m.a2a_staging_buffer env role numel).2.Owned role (m.a2a_staging_buffer env role numel).1 := by
  unfold a2a_staging_buffer
  rw [hstaging]
  refine ⟨Nat.lt_succ_self _, fun n h => ?_⟩
  exact Nat.lt_irrefl _ (m.cache_lt role _ n h)

theorem cached_staging (hstaging : env.staging = true) :
    ∃ capacity, numel ≤ capacity ∧ (m.a2a_staging_buffer env role numel).2.cache role
      = some ((m.a2a_staging_buffer env role numel).1, capacity) := by
  have hnew : ∃ capacity, numel ≤ capacity ∧ (m.new_staging_buffer role numel).2.cache role
      = some ((m.new_staging_buffer role numel).1, capacity) := by
    refine ⟨numel, Nat.le_refl _, ?_⟩
    show (if role = role then some (m.next, numel) else m.cache role) = _
    rw [if_pos rfl]
    rfl
  unfold a2a_staging_buffer
  rw [if_pos hstaging]
  split
  · rename_i storage capacity hcache
    split
    · exact hnew
    · exact ⟨capacity, by omega, hcache⟩
  · exact hnew

theorem staging_of_cached {storage capacity : ℕ} (hstaging : env.staging = true)
    (hcache : m.cache role = some (storage, capacity)) (hle : numel ≤ capacity) :
    (m.a2a_staging_buffer env role numel) = (storage, m) := by
  unfold a2a_staging_buffer
  rw [if_pos hstaging, hcache]
  exact if_neg (by omega)

end Staging

end Memory

section Call

variable {env : Env} {xs : ℕ → Tensor α} {r b s h d : ℕ} {m : Memory α}

theorem input_collective_eq (hshape : (xs r).shape = [b, s, h, d]) (hdiv : h % env.world_size = 0) :
    input_collective env 2 xs r m = .ok
      ((usp_all_to_all_single env .usp_input (fun j => (xs j).permute [2, 0, 1, 3]) r m).2.contiguous
        (usp_all_to_all_single env .usp_input (fun j => (xs j).permute [2, 0, 1, 3]) r m).1
        [env.world_size, h / env.world_size, b, s, d] [2, 0, 3, 1, 4]
        [b, s * env.world_size, h / env.world_size, d]) := by
  unfold input_collective
  rw [hshape]
  simp only [reduceIte, ne_eq, not_true_eq_false, and_false, hdiv, OfNat.ofNat_ne_one]

theorem numel_delivered (hshape : (xs r).shape = [b, s, h, d]) :
    (delivered env.world_size (fun j => (xs j).permute [2, 0, 1, 3]) r).numel = h * b * s * d := by
  show [(xs r).shape.getD 2 0, (xs r).shape.getD 0 0, (xs r).shape.getD 1 0,
    (xs r).shape.getD 3 0].prod = _
  rw [hshape]
  simp only [getD_cons_zero, getD_cons_succ, prod_cons, prod_nil]
  ring

/-- The buffer of a role is recycled under the result of a call. -/
def Recycled (env : Env) (b s h d : ℕ) : Prop :=
  2 ≤ env.world_size ∧ env.staging = true ∧ ¬ (env.world_size = 2 ∧ env.ipc = true)
    ∧ b * s * h * d ≠ 0 ∧ b = 1 ∧ (h / env.world_size = 1 ∨ s = 1)

instance : Decidable (Recycled env b s h d) := inferInstanceAs (Decidable (_ ∧ _))

/-- What a caller can rely on after a call. -/
structure CallSpec (env : Env) (b s h d : ℕ) (m : Memory α) (out : Handle α × Memory α) : Prop where
  keeps : Memory.Keeps .usp_input m out.2
  owned : ¬ Recycled env b s h d → b * s * h * d ≠ 0 → out.2.Owned .usp_input out.1.storage
  shape_const : ∀ data data' : ℕ → α, (out.1.view data).shape = (out.1.view data').shape

theorem callSpec_alloc (x : Tensor α) : CallSpec env b s h d m (m.alloc x) :=
  ⟨Memory.keeps_alloc _ _ _, fun _ _ => Memory.owned_alloc _ _ _, fun _ _ => rfl⟩

variable (xs) in
/-- **What one input exchange does to memory.** -/
theorem usp_input_all_to_all_callSpec (hshape : (xs r).shape = [b, s, h, d])
    (hdiv : h % env.world_size = 0) {out : Handle α × Memory α}
    (hout : usp_input_all_to_all env 2 xs r m = .ok out) : CallSpec env b s h d m out := by
  unfold usp_input_all_to_all at hout
  split at hout
  · cases hout
    exact callSpec_alloc _
  split at hout
  · obtain ⟨y, -, hy⟩ := Fallible.bind_eq_ok.mp hout
    cases hy
    exact callSpec_alloc _
  · rename_i hipc
    rw [input_collective_eq hshape hdiv] at hout
    replace hout := Except.ok.inj hout
    have hkeep : Memory.Keeps .usp_input m
        (usp_all_to_all_single env .usp_input (fun j => (xs j).permute [2, 0, 1, 3]) r m).2 :=
      Memory.keeps_staging_write _ _
    unfold Memory.contiguous at hout
    split at hout
    · rename_i hcontig
      subst hout
      refine ⟨hkeep, fun hnot hne => ?_, fun _ _ => rfl⟩
      have hstaging : env.staging = false := by
        rw [permuted_contiguous_iff (by omega)] at hcontig
        by_contra hstaging
        rw [Bool.not_eq_false] at hstaging
        refine hnot ⟨by omega, hstaging, fun h => hipc ⟨h.1, rfl, h.2⟩, hne, ?_⟩
        refine hcontig.resolve_left (fun h0 => hne ?_)
        have hheads : env.world_size * (h / env.world_size) = h :=
          Nat.mul_div_cancel' (Nat.dvd_of_mod_eq_zero hdiv)
        calc b * s * h * d = b * s * (env.world_size * (h / env.world_size)) * d := by rw [hheads]
          _ = env.world_size * (b * s * (h / env.world_size) * d) := by ring
          _ = 0 := by rw [h0, Nat.mul_zero]
      exact Memory.owned_staging hstaging
    · subst hout
      exact ⟨hkeep.trans (Memory.keeps_alloc _ _ _), fun _ _ => Memory.owned_alloc _ _ _,
        fun _ _ => rfl⟩

/-- The view of a buffer that needs no copy. -/
def buffer_view (env : Env) (b s h d : ℕ) (data : ℕ → α) : Tensor α :=
  ((Tensor.of_flat [env.world_size, h / env.world_size, b, s, d] data).permute
    [2, 0, 3, 1, 4]).reshape [b, s * env.world_size, h / env.world_size, d]

variable (xs) in
theorem usp_input_all_to_all_recycled (hshape : (xs r).shape = [b, s, h, d])
    (hdiv : h % env.world_size = 0) (hrec : Recycled env b s h d) :
    ∃ capacity, h * b * s * d ≤ capacity ∧ ∃ out : Handle α × Memory α,
      usp_input_all_to_all env 2 xs r m = .ok out ∧
      out.1 = ⟨(m.a2a_staging_buffer env .usp_input (h * b * s * d)).1, buffer_view env b s h d⟩ ∧
      out.2.cache .usp_input = some (out.1.storage, capacity) := by
  obtain ⟨hw, hstaging, hipc, -, hb, hone⟩ := hrec
  have hnumel : (delivered env.world_size (fun j => (xs j).permute [2, 0, 1, 3]) r).numel
      = h * b * s * d := numel_delivered hshape
  obtain ⟨capacity, hle, hcache⟩ : ∃ capacity, h * b * s * d ≤ capacity ∧
      (m.a2a_staging_buffer env .usp_input (h * b * s * d)).2.cache .usp_input
        = some ((m.a2a_staging_buffer env .usp_input (h * b * s * d)).1, capacity) :=
    Memory.cached_staging hstaging
  have hcontig : Tensor.permuted_contiguous [env.world_size, h / env.world_size, b, s, d]
      [2, 0, 3, 1, 4] = true := (permuted_contiguous_iff hw).mpr (.inr ⟨hb, hone⟩)
  refine ⟨capacity, hle, (⟨(usp_all_to_all_single env .usp_input
    (fun j => (xs j).permute [2, 0, 1, 3]) r m).1, buffer_view env b s h d⟩, (usp_all_to_all_single env .usp_input
    (fun j => (xs j).permute [2, 0, 1, 3]) r m).2), ?_, ?_, ?_⟩
  · unfold usp_input_all_to_all
    rw [if_neg (by omega), if_neg (fun h => hipc ⟨h.1, h.2.2⟩), input_collective_eq hshape hdiv]
    unfold Memory.contiguous
    rw [if_pos hcontig]
    rfl
  · rw [← hnumel]
    rfl
  · rw [← hnumel] at hcache
    exact hcache

end Call

/-! ## Three calls -/

section Separate

variable {env : Env} {xs : ℕ → Qkv (Tensor α)} {X : ℕ → Whole α} {r b s h d : ℕ}

/-- The operands of one attention, as shards of equal lengths. -/
structure QkvShards (env : Env) (b s h d : ℕ) (X : ℕ → Whole α) (xs : ℕ → Qkv (Tensor α)) :
    Prop where
  sizes : ∀ i < 3, (X i).batch = b ∧ (X i).heads = h ∧ (X i).head_size = d
    ∧ (X i).lens = List.replicate env.world_size s
  shards : ∀ i < 3, ∀ g < env.world_size, (X i).SeqShard 2 g ((xs g).part i)

theorem QkvShards.shape_eq (hxs : QkvShards env b s h d X xs) {i g : ℕ} (hi : i < 3)
    (hg : g < env.world_size) : ((xs g).part i).shape = [b, s, h, d] := by
  obtain ⟨hb, hh, hd, hlens⟩ := hxs.sizes i hi
  obtain ⟨-, -, hlen⟩ := equal_lens hlens
  rw [(hxs.shards i hi g hg).shape_eq, hb, hh, hd, hlen g hg]
  rfl

theorem QkvShards.call (hxs : QkvShards env b s h d X xs) (hdiv : h % env.world_size = 0)
    (hr : r < env.world_size) {i : ℕ} (hi : i < 3) (m : Memory α) : ∃ out : Handle α × Memory α,
      usp_input_all_to_all env 2 (fun j => (xs j).part i) r m = .ok out
      ∧ (X i).HeadShard 2 r (out.2.read out.1) ∧ CallSpec env b s h d m out := by
  obtain ⟨-, hh, -, hlens⟩ := hxs.sizes i hi
  obtain ⟨out, m', hout, hshard⟩ := usp_input_all_to_all_headShard env (.inr rfl) hlens
    (by rw [hh]; exact hdiv) (hxs.shards i hi) hr m
  exact ⟨(out, m'), hout, hshard, usp_input_all_to_all_callSpec (fun j => (xs j).part i)
    (hxs.shape_eq hi hr) hdiv hout⟩

theorem separate_eq {q k v : Handle α × Memory α} {m : Memory α}
    (hq : usp_input_all_to_all env 2 (fun j => (xs j).part 0) r m = .ok q)
    (hk : usp_input_all_to_all env 2 (fun j => (xs j).part 1) r q.2 = .ok k)
    (hv : usp_input_all_to_all env 2 (fun j => (xs j).part 2) r k.2 = .ok v) :
    separate env xs r m = .ok (⟨q.1, k.1, v.1⟩, v.2) := by
  obtain ⟨q, m₁⟩ := q
  obtain ⟨k, m₂⟩ := k
  obtain ⟨v, m₃⟩ := v
  unfold separate
  replace hq : usp_input_all_to_all env 2 (fun j => (xs j).q) r m = .ok (q, m₁) := hq
  replace hk : usp_input_all_to_all env 2 (fun j => (xs j).k) r m₁ = .ok (k, m₂) := hk
  replace hv : usp_input_all_to_all env 2 (fun j => (xs j).v) r m₂ = .ok (v, m₃) := hv
  simp only [hq, hk, hv, Fallible.ok_bind]
  rfl

theorem headShard_later {Y : Whole α} {m m' : Memory α} {out : Handle α × Memory α}
    (hY : Y.batch = b ∧ Y.heads = h ∧ Y.head_size = d ∧ Y.lens = List.replicate env.world_size s)
    (hnot : ¬ Recycled env b s h d) (hcall : CallSpec env b s h d m out)
    (hshard : Y.HeadShard 2 r (out.2.read out.1)) (hkeeps : Memory.Keeps .usp_input out.2 m') :
    Y.HeadShard 2 r (m'.read out.1) := by
  by_cases hne : b * s * h * d = 0
  · -- an empty result has no entries to lose
    obtain ⟨hb, hh, hd, hlens⟩ := hY
    obtain ⟨hlength, hsum, -⟩ := equal_lens hlens
    refine ⟨(hcall.shape_const _ _).trans hshard.shape_eq, fun i j k l hi hj hk hl => ?_⟩
    exfalso
    rw [hh] at hj
    rw [hsum] at hk
    obtain ⟨-, ht⟩ := row_bounds hk
    have hh' : 0 < h := by
      rcases Nat.eq_zero_or_pos h with h0 | h0
      · rw [h0, Nat.zero_div] at hj
        omega
      · exact h0
    exact Nat.mul_ne_zero (Nat.mul_ne_zero (Nat.mul_ne_zero (by omega) (by omega)) (by omega))
      (by omega) hne
  · rw [hkeeps.read_eq (hcall.owned hnot hne)]
    exact hshard

/-- **Three exchanges whose buffer is not recycled** return the three operands. -/
theorem separate_of_not_recycled (hxs : QkvShards env b s h d X xs)
    (hdiv : h % env.world_size = 0) (hr : r < env.world_size) (hnot : ¬ Recycled env b s h d)
    (m : Memory α) : ∃ hs m', separate env xs r m = .ok (hs, m')
      ∧ ∀ i < 3, (X i).HeadShard 2 r (m'.read (hs.part i)) := by
  obtain ⟨q, hq, hq', hqspec⟩ := hxs.call hdiv hr (show 0 < 3 by omega) m
  obtain ⟨k, hk, hk', hkspec⟩ := hxs.call hdiv hr (show 1 < 3 by omega) q.2
  obtain ⟨v, hv, hv', hvspec⟩ := hxs.call hdiv hr (show 2 < 3 by omega) k.2
  refine ⟨_, _, separate_eq hq hk hv, fun i hi => ?_⟩
  interval_cases i
  · exact headShard_later (hxs.sizes 0 hi) hnot hqspec hq' (hkspec.keeps.trans hvspec.keeps)
  · exact headShard_later (hxs.sizes 1 hi) hnot hkspec hk' hvspec.keeps
  · exact hv'

/-- **Three exchanges whose buffer is recycled** return the last operand three times. -/
theorem separate_of_recycled (hxs : QkvShards env b s h d X xs)
    (hdiv : h % env.world_size = 0) (hr : r < env.world_size) (hrec : Recycled env b s h d)
    (m : Memory α) : ∃ hs m', separate env xs r m = .ok (hs, m')
      ∧ ∀ i < 3, (X 2).HeadShard 2 r (m'.read (hs.part i)) := by
  obtain ⟨-, hstaging, -⟩ := id hrec
  obtain ⟨cap, hcap, q, hq, hqh, hqc⟩ :=
    usp_input_all_to_all_recycled (m := m) (fun j => (xs j).part 0)
      (hxs.shape_eq (show 0 < 3 by omega) hr) hdiv hrec
  obtain ⟨cap', hcap', k, hk, hkh, hkc⟩ :=
    usp_input_all_to_all_recycled (m := q.2) (fun j => (xs j).part 1)
      (hxs.shape_eq (show 1 < 3 by omega) hr) hdiv hrec
  obtain ⟨-, -, v, hv, hvh, -⟩ :=
    usp_input_all_to_all_recycled (m := k.2) (fun j => (xs j).part 2)
      (hxs.shape_eq (show 2 < 3 by omega) hr) hdiv hrec
  -- the buffer of the first call is handed out to the second and the third
  have hqk : k.1 = q.1 := by
    rw [hkh, Memory.staging_of_cached hstaging hqc hcap]
    rw [hqh]
  have hkv : v.1 = k.1 := by
    rw [hvh, Memory.staging_of_cached hstaging hkc hcap']
    rw [hkh]
  obtain ⟨v', hv', hshard, -⟩ := hxs.call hdiv hr (show 2 < 3 by omega) k.2
  have hvv : v' = v := Except.ok.inj (hv'.symm.trans hv)
  rw [hvv] at hshard
  refine ⟨_, _, separate_eq hq hk hv, fun i hi => ?_⟩
  interval_cases i
  · rw [← hqk, ← hkv]
    exact hshard
  · rw [← hkv]
    exact hshard
  · exact hshard

end Separate

end LightningH3.Ulysses
