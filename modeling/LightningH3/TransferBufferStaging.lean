/-
The round trip through the transfer buffer: what is staged and then read back with its manifest.

The slot is sized by the sum of the bytes, the tensors are written at multiples of 512, and nothing
frees the slot when a write raises. So a dictionary comes back the same, or leaves no slot behind,
exactly under a condition on the dictionary and on the allocator before the call (`staging_iff`).
A sum that just fills its power of two breaks it as soon as there are two tensors.
-/
import Mathlib.Algebra.Order.BigOperators.Group.List
import LightningH3.TransferBufferWrite

set_option autoImplicit false

namespace LightningH3.TransferBuffer

open List OrderedDict

open BuddyAllocator (Allocator slot_size next_offset)

/-! ## 1. Sizing -/

/-- A list among the fields holds a `None`. -/
def HasNone (items : List (String × Option Value)) : Prop :=
  ∃ name ts, (name, some (Value.list ts)) ∈ items ∧ none ∈ ts

/-- The sum that sizes the slot. -/
def total_bytes (items : List (String × Option Value)) : ℕ :=
  ((tensors_of items).map Tensor.nbytes).sum

theorem size_list_ok (ts : List (Option Tensor)) (total_size : ℕ) : none ∉ ts →
    size_list ts total_size = .ok (total_size + ((ts.filterMap id).map Tensor.nbytes).sum) := by
  induction ts generalizing total_size with
  | nil =>
    intro _
    rfl
  | cons o rest ih =>
    intro hnone
    cases o with
    | none => exact absurd mem_cons_self hnone
    | some t =>
      have hrest := ih (total_size + t.nbytes) fun h => hnone (mem_cons_of_mem _ h)
      rw [Nat.add_assoc] at hrest
      exact hrest

theorem size_list_error (ts : List (Option Tensor)) (total_size : ℕ) : none ∈ ts →
    size_list ts total_size = .error .none_has_no_nelement := by
  induction ts generalizing total_size with
  | nil =>
    intro h
    exact absurd h not_mem_nil
  | cons o rest ih =>
    intro h
    cases o with
    | none => rfl
    | some t => exact ih _ ((mem_cons.mp h).resolve_left (Option.some_ne_none t).symm)

theorem total_bytes_cons (name : String) (value : Value) (rest : List (String × Option Value)) :
    total_bytes ((name, some value) :: rest)
      = (value.tensors.map Tensor.nbytes).sum + total_bytes rest := by
  show (List.map Tensor.nbytes (value.tensors ++ tensors_of rest)).sum = _
  rw [map_append, sum_append]
  rfl

theorem HasNone.cons {e : String × Option Value} {rest : List (String × Option Value)}
    (h : HasNone rest) : HasNone (e :: rest) := by
  obtain ⟨name, ts, hmem, hnone⟩ := h
  exact ⟨name, ts, mem_cons_of_mem _ hmem, hnone⟩

theorem size_fields_ok : ∀ (items : List (String × Option Value)) (total_size : ℕ),
    ¬ HasNone items → size_fields items total_size = .ok (total_size + total_bytes items) := by
  intro items
  induction items with
  | nil =>
    intro total_size _
    rfl
  | cons e rest ih =>
    obtain ⟨name, v⟩ := e
    intro total_size h
    have hrest : ¬ HasNone rest := fun hbad => h hbad.cons
    cases v with
    | none => exact ih total_size hrest
    | some value =>
      rw [total_bytes_cons, ← Nat.add_assoc]
      cases value with
      | tensor t =>
        show size_fields rest (total_size + t.nbytes) = _
        rw [ih _ hrest]
        rfl
      | list ts =>
        have hnone : none ∉ ts := fun hbad => h ⟨name, ts, mem_cons_self, hbad⟩
        show (size_list ts total_size >>= _) = _
        rw [size_list_ok ts total_size hnone]
        exact ih _ hrest

theorem size_fields_error : ∀ (items : List (String × Option Value)) (total_size : ℕ),
    HasNone items → ∃ f, size_fields items total_size = .error f := by
  intro items
  induction items with
  | nil =>
    rintro total_size ⟨name, ts, hmem, -⟩
    exact absurd hmem not_mem_nil
  | cons e rest ih =>
    obtain ⟨name, v⟩ := e
    rintro total_size ⟨name', ts, hmem, hnone⟩
    rcases mem_cons.mp hmem with heq | hrest
    · obtain ⟨-, rfl⟩ := Prod.mk.inj heq
      refine ⟨.none_has_no_nelement, ?_⟩
      show (size_list ts total_size >>= _) = _
      rw [size_list_error ts total_size hnone]
      rfl
    · cases v with
      | none => exact ih total_size ⟨name', ts, hrest, hnone⟩
      | some value =>
        have hlater : HasNone rest := ⟨name', ts, hrest, hnone⟩
        cases value with
        | tensor t => exact ih _ hlater
        | list us =>
          show ∃ f, (size_list us total_size >>= _) = _
          cases size_list us total_size with
          | error f => exact ⟨f, rfl⟩
          | ok n => exact ih n hlater

/-! ## 2. Reading back -/

/-- The same field. -/
inductive SameValue : Value → Value → Prop
  | tensor {t u : Tensor} (h : t.Same u) : SameValue (.tensor t) (.tensor u)
  | list {ts us : List (Option Tensor)} (h : List.Forall₂ (Option.Rel Tensor.Same) ts us) :
      SameValue (.list ts) (.list us)

/-- The same fields: a `None` is no field. -/
def SameFields (fields : Fields) (result : OrderedDict String Value) : Prop :=
  ∀ name, Option.Rel SameValue (fields.get? name).join (result.get? name)

section Reading

variable {pool : List UInt8} {handle : SlotHandle}

variable {byte_offset : ℕ}

theorem read_tensor_ok {t : Tensor}
    (hbytes : slice pool (handle.offset + byte_offset) (handle.offset + byte_offset + t.nbytes)
      = t.data) (hle : handle.offset + byte_offset ≤ pool.length)
    (hdvd : t.element_size ∣ handle.offset + byte_offset) :
    ∃ u, read_tensor pool handle t.shape t.dtype byte_offset = .ok u ∧ t.Same u := by
  have hlen : (slice pool (handle.offset + byte_offset)
      (handle.offset + byte_offset + t.shape.prod * t.dtype.element_size)).length
      = t.shape.prod * t.dtype.element_size := by
    have hraw := congrArg List.length hbytes
    rw [t.full] at hraw
    exact hraw
  refine ⟨⟨t.dtype, t.shape, row_major t.shape, slice pool (handle.offset + byte_offset)
    (handle.offset + byte_offset + t.shape.prod * t.dtype.element_size),
    length_row_major t.shape, hlen⟩, ?_, rfl, rfl, hbytes.symm⟩
  have haligned : (handle.offset + byte_offset) % t.dtype.element_size = 0 :=
    Nat.mod_eq_zero_of_dvd hdvd
  unfold read_tensor
  dsimp only
  rw [Nat.min_eq_left hle, if_neg (not_not.mpr haligned), dif_pos hlen]

theorem dvd_of_read_tensor {shape : List ℕ} {dtype : DType} {u : Tensor}
    (h : read_tensor pool handle shape dtype byte_offset = .ok u)
    (hle : handle.offset + byte_offset ≤ pool.length) :
    dtype.element_size ∣ handle.offset + byte_offset := by
  unfold read_tensor at h
  dsimp only at h
  rw [Nat.min_eq_left hle] at h
  split at h
  · cases h
  · next haligned => exact Nat.dvd_of_mod_eq_zero (not_not.mp haligned)

/-- Everything placed can be read back. -/
def Readable (pool : List UInt8) (handle : SlotHandle) (ts : List Tensor) (byte_offset : ℕ) :
    Prop :=
  ∀ p ∈ placed ts byte_offset,
    ∃ u, read_tensor pool handle p.2.shape p.2.dtype p.1 = .ok u ∧ p.2.Same u

theorem Readable.append {ts us : List Tensor} (h : Readable pool handle (ts ++ us) byte_offset) :
    Readable pool handle ts byte_offset ∧ Readable pool handle us (end_of ts byte_offset) := by
  unfold Readable at h
  rw [placed_append] at h
  exact forall_mem_append.mp h

theorem exists_map_some {ts : List (Option Tensor)} : none ∉ ts →
    ∃ us : List Tensor, ts = us.map some := by
  induction ts with
  | nil =>
    intro _
    exact ⟨[], rfl⟩
  | cons o rest ih =>
    intro h
    cases o with
    | none => exact absurd mem_cons_self h
    | some t =>
      obtain ⟨us, rfl⟩ := ih fun hbad => h (mem_cons_of_mem _ hbad)
      exact ⟨t :: us, rfl⟩

theorem read_entries_ok (us : List Tensor) (i byte_offset : ℕ) (done : List (Option Tensor)) :
    done.length = i → Readable pool handle us byte_offset →
    ∃ vs, read_entries pool handle (list_entries (us.map some) i byte_offset)
        (done ++ List.replicate us.length none) = .ok (done ++ vs) ∧
      List.Forall₂ (Option.Rel Tensor.Same) (us.map some) vs := by
  induction us generalizing i byte_offset done with
  | nil =>
    intro _ _
    exact ⟨[], rfl, List.Forall₂.nil⟩
  | cons t rest ih =>
    intro hdone hread
    obtain ⟨hone, hrest⟩ := forall_mem_cons.mp hread
    obtain ⟨u, hu, hsame⟩ := hone
    obtain ⟨vs, hvs, hall⟩ := ih (i + 1) _ (done ++ [some u])
      (by rw [length_append, hdone]; rfl) hrest
    refine ⟨some u :: vs, ?_, List.Forall₂.cons (Option.Rel.some hsame) hall⟩
    show (str_to_dtype (dtype_str t.dtype) >>= _) = _
    rw [str_to_dtype_dtype_str]
    show (read_tensor pool handle t.shape t.dtype byte_offset >>= _) = _
    rw [hu]
    show (if i < (done ++ List.replicate (rest.length + 1) none).length then
        read_entries pool handle (list_entries (rest.map some) (i + 1) _)
          ((done ++ List.replicate (rest.length + 1) none).set i (some u)) else _) = _
    have hlt : i < (done ++ List.replicate (rest.length + 1) (none : Option Tensor)).length := by
      rw [length_append, length_replicate]
      omega
    have hset : (done ++ List.replicate (rest.length + 1) none).set i (some u)
        = done ++ [some u] ++ List.replicate rest.length none := by
      rw [set_append_right _ _ (Nat.le_of_eq hdone), hdone, Nat.sub_self,
        replicate_succ, append_assoc]
      rfl
    rw [if_pos hlt, hset, hvs, append_assoc]
    rfl

theorem foldl_max_list_entries (us : List Tensor) (i byte_offset acc : ℕ) : us ≠ [] → acc ≤ i →
    ((list_entries (us.map some) i byte_offset).map fun e => e.list_index.getD 0).foldl max acc + 1
      = i + us.length := by
  induction us generalizing i byte_offset acc with
  | nil =>
    intro hne _
    exact absurd rfl hne
  | cons t rest ih =>
    intro _ hle
    show (List.map _ (list_entries (rest.map some) (i + 1) _)).foldl max (max acc i) + 1 = _
    rw [Nat.max_eq_right hle]
    cases rest with
    | nil => rfl
    | cons u rest =>
      rw [ih (i + 1) _ i (cons_ne_nil _ _) (Nat.le_succ i), length_cons, length_cons, length_cons]
      omega

/-- **A field that holds a tensor is read back.** -/
theorem read_value_ok {value : Value} (hnone : ∀ ts, value = .list ts → none ∉ ts)
    (hne : value.tensors ≠ []) (hread : Readable pool handle value.tensors byte_offset) :
    ∃ value', read_value pool handle (value.entries byte_offset) = .ok (some value') ∧
      SameValue value value' := by
  cases value with
  | tensor t =>
    obtain ⟨u, hu, hsame⟩ := hread (byte_offset, t) mem_cons_self
    refine ⟨.tensor u, ?_, SameValue.tensor hsame⟩
    show (str_to_dtype (dtype_str t.dtype) >>= _) = _
    rw [str_to_dtype_dtype_str]
    show (read_tensor pool handle t.shape t.dtype byte_offset >>= _) = _
    rw [hu]
    rfl
  | list ts =>
    obtain ⟨us, rfl⟩ := exists_map_some (hnone ts rfl)
    have hus : (us.map some).filterMap id = us := by
      rw [filterMap_map]
      exact filterMap_some
    replace hne : (us.map some).filterMap id ≠ [] := hne
    replace hread : Readable pool handle ((us.map some).filterMap id) byte_offset := hread
    rw [hus] at hne hread
    obtain ⟨vs, hvs, hall⟩ := read_entries_ok us 0 byte_offset [] rfl hread
    refine ⟨.list vs, ?_, SameValue.list hall⟩
    have hmax := foldl_max_list_entries us 0 byte_offset 0 hne (Nat.le_refl 0)
    rw [Nat.zero_add] at hmax
    cases us with
    | nil => exact absurd rfl hne
    | cons t rest =>
      show (read_entries pool handle (list_entries ((t :: rest).map some) 0 byte_offset)
        (List.replicate (((list_entries ((t :: rest).map some) 0 byte_offset).map fun e =>
          e.list_index.getD 0).foldl max 0 + 1) none) >>= _) = _
      rw [hmax]
      rw [nil_append] at hvs
      rw [hvs]
      rfl

/-- The fields that hold a tensor. -/
def kept (items : List (String × Option Value)) : List (String × Value) :=
  items.filterMap fun e => e.2.bind fun v => if v.tensors.isEmpty then none else some (e.1, v)

theorem kept_cons (name : String) (value : Value) (rest : List (String × Option Value)) :
    kept ((name, some value) :: rest)
      = if value.tensors.isEmpty then kept rest else (name, value) :: kept rest := by
  show List.filterMap _ ((name, some value) :: rest) = _
  rw [filterMap_cons, Option.bind_some]
  by_cases h : value.tensors.isEmpty = true
  · rw [if_pos h, if_pos h]
    rfl
  · rw [if_neg h, if_neg h]
    rfl

theorem entries_isEmpty (value : Value) (byte_offset : ℕ) :
    (value.entries byte_offset).isEmpty = value.tensors.isEmpty := by
  have hlist (ts : List (Option Tensor)) (i : ℕ) :
      (list_entries ts i byte_offset).isEmpty = (ts.filterMap id).isEmpty := by
    induction ts generalizing i with
    | nil => rfl
    | cons o rest ih =>
      cases o with
      | none => exact ih (i + 1)
      | some t => rfl
  cases value with
  | tensor t => rfl
  | list ts => exact hlist ts 0

/-- **All fields that hold a tensor are read back, and no others.** -/
theorem read_fields_ok : ∀ (items : List (String × Option Value)) (byte_offset : ℕ)
    (result : OrderedDict String Value), ¬ HasNone items →
    Readable pool handle (tensors_of items) byte_offset →
    ∃ values, read_fields pool handle (records items byte_offset) result
        = .ok (result.update values) ∧
      List.Forall₂ (fun e v => e.1 = v.1 ∧ SameValue e.2 v.2) (kept items) values := by
  intro items
  induction items with
  | nil =>
    intro byte_offset result _ _
    exact ⟨[], rfl, List.Forall₂.nil⟩
  | cons e rest ih =>
    obtain ⟨name, v⟩ := e
    intro byte_offset result hnone hread
    have hrest : ¬ HasNone rest := fun hbad => hnone hbad.cons
    cases v with
    | none => exact ih byte_offset result hrest hread
    | some value =>
      obtain ⟨hhere, hlater⟩ := Readable.append hread
      rw [records_cons, kept_cons, entries_isEmpty]
      by_cases hempty : value.tensors.isEmpty = true
      · rw [if_pos hempty, if_pos hempty]
        exact ih _ result hrest hlater
      · rw [if_neg hempty, if_neg hempty]
        have hone : ∀ ts, value = .list ts → none ∉ ts := by
          rintro ts rfl hbad
          exact hnone ⟨name, ts, mem_cons_self, hbad⟩
        obtain ⟨value', hvalue, hsame⟩ := read_value_ok hone
          (fun hnil => hempty (List.isEmpty_iff.mpr hnil)) hhere
        obtain ⟨values, hvalues, hall⟩ := ih _ (result.set name value') hrest hlater
        refine ⟨(name, value') :: values, ?_, List.Forall₂.cons ⟨rfl, hsame⟩ hall⟩
        show (read_value pool handle (value.entries byte_offset) >>= _) = _
        rw [hvalue]
        exact hvalues

theorem any_list_index (ts : List (Option Tensor)) (i byte_offset : ℕ) :
    list_entries ts i byte_offset ≠ [] →
    ((list_entries ts i byte_offset).any fun e => e.list_index.isSome) = true := by
  induction ts generalizing i byte_offset with
  | nil =>
    intro hne
    exact absurd rfl hne
  | cons o rest ih =>
    intro hne
    cases o with
    | none => exact ih (i + 1) byte_offset hne
    | some t => rfl

theorem read_of_read_entries (ts : List (Option Tensor)) (i byte_offset : ℕ)
    (tensors out : List (Option Tensor)) :
    read_entries pool handle (list_entries ts i byte_offset) tensors = .ok out →
    ∀ p ∈ placed (ts.filterMap id) byte_offset,
      ∃ u, read_tensor pool handle p.2.shape p.2.dtype p.1 = .ok u := by
  induction ts generalizing i byte_offset tensors out with
  | nil =>
    intro _ p hp
    exact absurd hp not_mem_nil
  | cons o rest ih =>
    intro h
    cases o with
    | none => exact ih (i + 1) byte_offset tensors out h
    | some t =>
      replace h : (str_to_dtype (dtype_str t.dtype) >>= fun dtype =>
          read_tensor pool handle t.shape dtype byte_offset >>= fun u =>
            if i < tensors.length then
              read_entries pool handle
                (list_entries rest (i + 1) (align_512 (byte_offset + t.nbytes)))
                (tensors.set i (some u))
            else .error .index_out_of_range) = .ok out := h
      rw [str_to_dtype_dtype_str] at h
      cases hu : read_tensor pool handle t.shape t.dtype byte_offset with
      | error f =>
        replace h : (read_tensor pool handle t.shape t.dtype byte_offset >>= _) = _ := h
        rw [hu] at h
        cases h
      | ok u =>
        replace h : (read_tensor pool handle t.shape t.dtype byte_offset >>= fun u =>
          if i < tensors.length then
            read_entries pool handle
              (list_entries rest (i + 1) (align_512 (byte_offset + t.nbytes)))
              (tensors.set i (some u))
          else .error .index_out_of_range) = _ := h
        rw [hu] at h
        replace h : (if i < tensors.length then
            read_entries pool handle
              (list_entries rest (i + 1) (align_512 (byte_offset + t.nbytes)))
              (tensors.set i (some u))
          else .error .index_out_of_range) = .ok out := h
        intro p hp
        rcases mem_cons.mp hp with rfl | hp
        · exact ⟨u, hu⟩
        · split at h
          · exact ih _ _ _ _ h p hp
          · cases h

theorem read_of_read_value {value : Value} {out : Option Value}
    (h : read_value pool handle (value.entries byte_offset) = .ok out) :
    ∀ p ∈ placed value.tensors byte_offset,
      ∃ u, read_tensor pool handle p.2.shape p.2.dtype p.1 = .ok u := by
  cases value with
  | tensor t =>
    intro p hp
    obtain rfl := mem_singleton.mp hp
    replace h : (str_to_dtype (dtype_str t.dtype) >>= fun dtype =>
        read_tensor pool handle t.shape dtype byte_offset >>= fun u =>
          (.ok (some (.tensor u)) : Except Fault (Option Value))) = .ok out := h
    rw [str_to_dtype_dtype_str] at h
    replace h : (read_tensor pool handle t.shape t.dtype byte_offset >>= fun u =>
          (.ok (some (.tensor u)) : Except Fault (Option Value))) = .ok out := h
    cases hu : read_tensor pool handle t.shape t.dtype byte_offset with
    | error f =>
      rw [hu] at h
      cases h
    | ok u => exact ⟨u, rfl⟩
  | list ts =>
    replace h : read_value pool handle (list_entries ts 0 byte_offset) = .ok out := h
    cases hentries : list_entries ts 0 byte_offset with
    | nil =>
      have hempty := entries_isEmpty (.list ts) byte_offset
      rw [show (Value.list ts).entries byte_offset = [] from hentries] at hempty
      rw [List.isEmpty_iff.mp hempty.symm]
      intro p hp
      exact absurd hp not_mem_nil
    | cons e rest =>
      unfold read_value at h
      rw [hentries] at h
      dsimp only at h
      have hindexed : ((e :: rest).any fun e => e.list_index.isSome) = true := by
        rw [← hentries]
        exact any_list_index ts 0 byte_offset (by rw [hentries]; exact cons_ne_nil _ _)
      rw [if_pos hindexed, ← hentries] at h
      cases hread : read_entries pool handle (list_entries ts 0 byte_offset)
          (List.replicate (((list_entries ts 0 byte_offset).map fun e =>
            e.list_index.getD 0).foldl max 0 + 1) none) with
      | error f =>
        rw [hread] at h
        cases h
      | ok vs => exact read_of_read_entries ts 0 byte_offset _ vs hread

theorem read_of_read_fields : ∀ (items : List (String × Option Value)) (byte_offset : ℕ)
    (result out : OrderedDict String Value),
    read_fields pool handle (records items byte_offset) result = .ok out →
    ∀ p ∈ placed (tensors_of items) byte_offset,
      ∃ u, read_tensor pool handle p.2.shape p.2.dtype p.1 = .ok u := by
  intro items
  induction items with
  | nil =>
    intro byte_offset result out _ p hp
    exact absurd hp not_mem_nil
  | cons e rest ih =>
    obtain ⟨name, v⟩ := e
    intro byte_offset result out h
    cases v with
    | none => exact ih byte_offset result out h
    | some value =>
      show ∀ p ∈ placed (value.tensors ++ tensors_of rest) byte_offset, _
      rw [placed_append, forall_mem_append]
      rw [records_cons, entries_isEmpty] at h
      by_cases hempty : value.tensors.isEmpty = true
      · rw [if_pos hempty] at h
        refine ⟨?_, ih _ result out h⟩
        rw [List.isEmpty_iff.mp hempty]
        intro p hp
        exact absurd hp not_mem_nil
      · rw [if_neg hempty] at h
        change (read_value pool handle (value.entries byte_offset) >>= _) = Except.ok out at h
        cases hread : read_value pool handle (value.entries byte_offset) with
        | error f =>
          rw [hread] at h
          cases h
        | ok read =>
          rw [hread] at h
          refine ⟨read_of_read_value hread, ?_⟩
          cases read with
          | none => exact ih _ result out h
          | some value' => exact ih _ (result.set name value') out h

end Reading

/-! ## 3. The slot -/

/-- A buffer in use: its allocator has been through any calls, its memory holds anything. -/
def Reached (b : TransferTensorBuffer) : Prop :=
  ∃ pool_size min_block_size memory b₀,
    TransferTensorBuffer.init pool_size min_block_size memory = .ok b₀ ∧
      BuddyAllocator.Reachable b₀.allocator b.allocator ∧ b.pool.length = b₀.pool.length

/-- No block is allocated that was not before, and none has been lost. -/
def SameAllocated (a a' : Allocator) : Prop :=
  ∀ o b, b.allocated = true → (a'.blocks o = some b ↔ a.blocks o = some b)

variable {b : TransferTensorBuffer}

theorem Reached.good (h : Reached b) :
    ∃ x y, BuddyAllocator.Good x y b.allocator none ∧ b.pool.length = b.allocator.pool_size := by
  obtain ⟨pool_size, min_block_size, memory, b₀, hinit, hreach, hlen⟩ := h
  unfold TransferTensorBuffer.init at hinit
  cases ha : BuddyAllocator.init pool_size min_block_size with
  | error f =>
    rw [ha] at hinit
    cases hinit
  | ok a =>
    rw [ha] at hinit
    dsimp only at hinit
    split at hinit
    · next hsmall =>
      cases hinit
      -- a pool that torch can allocate is one of 64 bits
      obtain ⟨e, hmin, -, hpool, -⟩ := BuddyAllocator.init_ok ha
      have hpos : 0 < max pool_size min_block_size := by
        have hone : 0 < min_block_size := by
          rw [hmin]
          exact Nat.two_pow_pos e
        omega
      have hle := (BuddyAllocator.next_power_of_2_bounds hpos).1
      have hgap : BuddyAllocator.NoGap ((max pool_size min_block_size).toNat - 1) :=
        BuddyAllocator.noGap_of_lt (by omega)
      obtain ⟨q, hq⟩ := (BuddyAllocator.next_power_of_2_iff hpos).mpr hgap
      obtain ⟨x, y, hgood⟩ := BuddyAllocator.good_init ha hq
      have hgood' := BuddyAllocator.good_of_reachable hgood hreach
      refine ⟨x, y, hgood', ?_⟩
      rw [hlen, hgood'.pool_eq]
      rw [length_map, length_range, hgood.pool_eq]
    · cases hinit

/-- The slot that a request gets. -/
def slot_of (a : Allocator) (request_id : String) (size offset : ℕ) : SlotHandle :=
  ⟨request_id, offset, slot_size a.min_block_size size⟩

/-- **What `allocate` hands out**: the free block at `next_offset`, aligned and inside the pool. -/
structure Granted (b : TransferTensorBuffer) (a' : Allocator) (request_id : String)
    (size offset : ℕ) : Prop where
  allocate : b.allocate size request_id
    = .ok ({ b with allocator := a' }, some (slot_of b.allocator request_id size offset))
  block : ∃ blk, a'.blocks offset = some blk ∧ blk.allocated = true ∧
    blk.size = slot_size b.allocator.min_block_size size
  free : ∀ blk, b.allocator.blocks offset = some blk → blk.allocated = false
  inside : Inside (slot_of b.allocator request_id size offset) b.pool
  holds : size ≤ slot_size b.allocator.min_block_size size
  aligned : ∃ j, slot_size b.allocator.min_block_size size = 2 ^ j ∧ 2 ^ j ∣ offset

variable {offset : ℕ}

theorem granted (h : Reached b) {size : ℕ} (hpos : 0 < size)
    (hnext : next_offset b.allocator size = some offset) (request_id : String) :
    ∃ a', Granted b a' request_id size offset := by
  obtain ⟨x, y, hgood, hlen⟩ := h.good
  have hsize : (0 : ℤ) < size := Int.natCast_pos.mpr hpos
  obtain ⟨a', out, hok, hgood', hans, hout, hexact⟩ :=
    BuddyAllocator.allocate_exact hgood hsize (some request_id)
  rw [hnext] at hout
  subst hout
  obtain ⟨blk, hblk, hal, -, hfit, hapart⟩ := hans
  have hslot := hexact offset blk rfl hblk
  have hinv := BuddyAllocator.invariant_of_good hgood'
  obtain ⟨j, hj, hdvd⟩ := hinv.aligned offset blk hblk
  rw [hj] at hdvd
  refine ⟨a', ?_, ⟨blk, hblk, hal, hslot⟩, ?_, ?_, ?_, ⟨j, hslot.symm.trans hj, hdvd⟩⟩
  · unfold TransferTensorBuffer.allocate
    rw [hok]
    dsimp only
    rw [hblk, Option.map_some, hslot]
    rfl
  · intro blk' hblk'
    by_contra hbad
    rw [Bool.not_eq_false] at hbad
    obtain ⟨-, happart⟩ := hapart offset blk' hblk' hbad
    obtain ⟨j', hj', -⟩ := (BuddyAllocator.invariant_of_good hgood).aligned offset blk' hblk'
    have hpos₂ : 0 < blk'.size := by
      rw [hj']
      exact Nat.two_pow_pos j'
    omega
  · unfold Inside slot_of
    rw [hlen, hgood.pool_eq, ← hgood'.pool_eq, ← hslot]
    exact (hinv.inside offset blk hblk).2
  · rw [← hslot]
    exact Int.ofNat_le.mp hfit

theorem not_granted (h : Reached b) {size : ℕ} (hpos : 0 < size)
    (hnext : next_offset b.allocator size = none) (request_id : String) :
    b.allocate size request_id = .ok (b, none) := by
  obtain ⟨x, y, hgood, -⟩ := h.good
  have hsize : (0 : ℤ) < size := Int.natCast_pos.mpr hpos
  obtain ⟨a', out, hok, -, hans, hout, -⟩ :=
    BuddyAllocator.allocate_exact hgood hsize (some request_id)
  rw [hnext] at hout
  subst hout
  obtain ⟨rfl, -⟩ := hans
  unfold TransferTensorBuffer.allocate
  rw [hok]

/-! ## 4. The round trip -/

/-- What staging promises: a slot that is handed out holds the fields, and they are read back; a
call that hands out none leaves the allocations as they were. -/
def RoundTrips (m : TransferManager) (request_id : String) (fields : Fields) : Prop :=
  match stage_tensors_async m request_id fields with
  | (m', .ok (some staged)) =>
    match staged.slot with
    | none => SameAllocated m.buffer.allocator m'.buffer.allocator
    | some slot =>
      (∃ blk, m'.buffer.allocator.blocks slot.offset = some blk ∧ blk.allocated = true ∧
        blk.size = slot.size) ∧
      (∀ i, i < slot.offset ∨ slot.offset + slot.size ≤ i →
        m'.buffer.pool[i]? = m.buffer.pool[i]?) ∧
      ∃ tensors, read_tensors_from_manifest m'.buffer.pool slot staged.manifest = .ok tensors ∧
        SameFields fields tensors
  | (m', .ok none) => SameAllocated m.buffer.allocator m'.buffer.allocator
  | (m', .error _) => SameAllocated m.buffer.allocator m'.buffer.allocator

/-- The dictionary can be staged in the slot it gets. -/
structure Stageable (a : Allocator) (items : List (String × Option Value)) : Prop where
  viewable : ∀ t ∈ tensors_of items, t.Viewable
  fits : Fits (slot_size a.min_block_size (total_bytes items)) (tensors_of items) 0
  aligned : ∀ offset, next_offset a (total_bytes items) = some offset →
    ∀ t ∈ tensors_of items, t.nelement = 0 → t.element_size ∣ offset
  no_empty_list : ∀ name, (name, some (Value.list [])) ∉ items

theorem SameAllocated.refl (a : Allocator) : SameAllocated a a := fun _ _ _ => Iff.rfl

theorem DType.element_size_dvd (d : DType) {j : ℕ} (h : d.element_size ≤ 2 ^ j) :
    d.element_size ∣ 2 ^ j := by
  have hpow : ∃ i, d.element_size = 2 ^ i := by
    cases d
    all_goals first
      | exact ⟨0, rfl⟩
      | exact ⟨1, rfl⟩
      | exact ⟨2, rfl⟩
      | exact ⟨3, rfl⟩
      | exact ⟨4, rfl⟩
  obtain ⟨i, hi⟩ := hpow
  rw [hi] at h ⊢
  exact Nat.pow_dvd_pow 2 ((Nat.pow_le_pow_iff_right (by decide)).mp h)

theorem DType.element_size_dvd_512 (d : DType) : d.element_size ∣ 512 := by
  cases d <;> decide

variable {items : List (String × Option Value)}

theorem nbytes_le_total {t : Tensor} (ht : t ∈ tensors_of items) : t.nbytes ≤ total_bytes items :=
  single_le_sum (fun _ _ => Nat.zero_le _) _ (mem_map.mpr ⟨t, ht, rfl⟩)

theorem Granted.element_size_dvd {a' : Allocator} {request_id : String}
    (hg : Granted b a' request_id (total_bytes items) offset) {t : Tensor}
    (ht : t ∈ tensors_of items) (hne : t.nelement ≠ 0) : t.element_size ∣ offset := by
  obtain ⟨j, hj, hdvd⟩ := hg.aligned
  have hle : t.dtype.element_size ≤ 2 ^ j := by
    rw [← hj]
    calc t.dtype.element_size ≤ t.nbytes := Nat.le_mul_of_pos_left _ (Nat.pos_of_ne_zero hne)
      _ ≤ total_bytes items := nbytes_le_total ht
      _ ≤ _ := hg.holds
  exact Nat.dvd_trans (t.dtype.element_size_dvd hle) hdvd

theorem sublist_records : ∀ (items : List (String × Option Value)) (byte_offset : ℕ),
    List.Sublist ((records items byte_offset).map Prod.fst) (items.map Prod.fst) := by
  intro items
  induction items with
  | nil =>
    intro byte_offset
    exact List.Sublist.refl _
  | cons e rest ih =>
    obtain ⟨name, v⟩ := e
    intro byte_offset
    cases v with
    | none => exact (ih byte_offset).cons _
    | some value =>
      rw [records_cons]
      split
      · exact (ih _).cons _
      · exact (ih _).cons_cons _

theorem sublist_kept (items : List (String × Option Value)) :
    List.Sublist ((kept items).map Prod.fst) (items.map Prod.fst) := by
  induction items with
  | nil => exact List.Sublist.refl _
  | cons e rest ih =>
    obtain ⟨name, v⟩ := e
    cases v with
    | none => exact ih.cons _
    | some value =>
      rw [kept_cons]
      split
      · exact ih.cons _
      · exact ih.cons_cons _

theorem mem_kept {name : String} {value : Value} :
    (name, value) ∈ kept items ↔ (name, some value) ∈ items ∧ value.tensors ≠ [] := by
  unfold kept
  rw [mem_filterMap]
  constructor
  · rintro ⟨⟨name', v⟩, hmem, hv⟩
    obtain ⟨value', rfl, hite⟩ := Option.bind_eq_some_iff.mp hv
    split at hite
    · cases hite
    · next hne =>
      cases hite
      exact ⟨hmem, fun hnil => hne (List.isEmpty_iff.mpr hnil)⟩
  · rintro ⟨hmem, hne⟩
    refine ⟨(name, some value), hmem, ?_⟩
    rw [Option.bind_some, if_neg fun hempty => hne (List.isEmpty_iff.mp hempty)]

theorem items_manifest (fields : Fields) :
    (OrderedDict.update (.empty : Manifest) (records fields.items 0)).items
      = records fields.items 0 :=
  items_ofList_of_nodup ((sublist_records fields.items 0).nodup fields.nodup)

section Paired

variable {α β : Type} {R : α → β → Prop}

theorem exists_of_mem_right {l : List α} {m : List β} (h : List.Forall₂ R l m) {b : β}
    (hb : b ∈ m) : ∃ a ∈ l, R a b := by
  induction h with
  | nil => exact absurd hb not_mem_nil
  | cons hab _ ih =>
    rcases mem_cons.mp hb with rfl | hb
    · exact ⟨_, mem_cons_self, hab⟩
    · obtain ⟨a, ha, hr⟩ := ih hb
      exact ⟨a, mem_cons_of_mem _ ha, hr⟩

theorem exists_of_mem_left {l : List α} {m : List β} (h : List.Forall₂ R l m) {a : α}
    (ha : a ∈ l) : ∃ b ∈ m, R a b := by
  obtain ⟨b, hb, hr⟩ := exists_of_mem_right h.flip ha
  exact ⟨b, hb, hr⟩

theorem map_fst_of_paired {S : α → β → Prop} {l : List (String × α)} {m : List (String × β)}
    (h : List.Forall₂ (fun e v => e.1 = v.1 ∧ S e.2 v.2) l m) :
    m.map Prod.fst = l.map Prod.fst := by
  induction h with
  | nil => rfl
  | cons hab _ ih => rw [map_cons, map_cons, ih, hab.1]

end Paired

variable {fields : Fields}

theorem sameFields_iff {values : List (String × Value)} (hnone : ¬ HasNone fields.items)
    (hall : List.Forall₂ (fun e v => e.1 = v.1 ∧ SameValue e.2 v.2) (kept fields.items) values) :
    SameFields fields (OrderedDict.update .empty values) ↔
      ∀ name, (name, some (Value.list [])) ∉ fields.items := by
  have hnames := map_fst_of_paired hall
  have hnodup : (values.map Prod.fst).Nodup := by
    rw [hnames]
    exact (sublist_kept fields.items).nodup fields.nodup
  have hget : ∀ name value', (OrderedDict.update .empty values).get? name = some value' ↔
      (name, value') ∈ values := by
    intro name value'
    rw [get?_eq_some_iff]
    have hitems : (OrderedDict.update (.empty : OrderedDict String Value) values).items = values :=
      items_ofList_of_nodup hnodup
    rw [hitems]
  -- what a field holds and what is read under its name
  have hto : ∀ name value', (name, value') ∈ values →
      ∃ value, (name, value) ∈ kept fields.items ∧ SameValue value value' := by
    intro name value' hmem
    obtain ⟨e, he, hname, hsame⟩ := exists_of_mem_right hall hmem
    exact ⟨e.2, by rw [show name = e.1 from hname.symm]; exact he, hsame⟩
  have hfrom : ∀ name value, (name, value) ∈ kept fields.items →
      ∃ value', (name, value') ∈ values ∧ SameValue value value' := by
    intro name value hmem
    obtain ⟨v, hv, hname, hsame⟩ := exists_of_mem_left hall hmem
    exact ⟨v.2, by rw [show name = v.1 from hname]; exact hv, hsame⟩
  have hempty : ∀ value : Value, (∀ ts, value = .list ts → none ∉ ts) → value.tensors = [] →
      value = .list [] := by
    intro value hfull hnil
    cases value with
    | tensor t => cases hnil
    | list ts =>
      obtain ⟨us, rfl⟩ := exists_map_some (hfull ts rfl)
      cases us with
      | nil => rfl
      | cons u us => cases hnil
  constructor
  · intro hsame name hmem
    have hrel := hsame name
    rw [get?_eq_some_iff.mpr hmem] at hrel
    cases hr : (OrderedDict.update .empty values).get? name with
    | none =>
      rw [hr] at hrel
      cases hrel
    | some value' =>
      obtain ⟨value, hv, -⟩ := hto name value' ((hget name value').mp hr)
      obtain ⟨hmem', hne⟩ := mem_kept.mp hv
      have heq := value_unique hmem' hmem
      rw [Option.some.inj heq] at hne
      exact hne rfl
  · intro hno name
    cases hr : (OrderedDict.update .empty values).get? name with
    | some value' =>
      obtain ⟨value, hv, hsame⟩ := hto name value' ((hget name value').mp hr)
      rw [get?_eq_some_iff.mpr (mem_kept.mp hv).1]
      exact Option.Rel.some hsame
    | none =>
      cases hf : fields.get? name with
      | none => exact Option.Rel.none
      | some v =>
        cases v with
        | none => exact Option.Rel.none
        | some value =>
          have hmem := get?_eq_some_iff.mp hf
          have hne : value.tensors ≠ [] := by
            intro hnil
            have hval := hempty value
              (fun ts hts hbad => hnone ⟨name, ts, hts ▸ hmem, hbad⟩) hnil
            rw [hval] at hmem
            exact hno name hmem
          obtain ⟨value', hv, -⟩ := hfrom name value (mem_kept.mpr ⟨hmem, hne⟩)
          rw [(hget name value').mpr hv] at hr
          cases hr

variable {handle : SlotHandle}

theorem place_dvd_iff {p : ℕ × Tensor} (hp : p ∈ placed (tensors_of items) 0) :
    p.2.element_size ∣ handle.offset + p.1 ↔ p.2.element_size ∣ handle.offset := by
  have hdvd : p.2.element_size ∣ p.1 :=
    Nat.dvd_trans p.2.dtype.element_size_dvd_512
      (dvd_of_mem_placed _ 0 p (Nat.dvd_zero 512) hp)
  exact (Nat.dvd_add_iff_left hdvd).symm

theorem mem_of_placed (ts : List Tensor) (byte_offset : ℕ) (p : ℕ × Tensor) :
    p ∈ placed ts byte_offset → p.2 ∈ ts := by
  induction ts generalizing byte_offset p with
  | nil =>
    intro hp
    exact absurd hp not_mem_nil
  | cons t rest ih =>
    intro hp
    rcases mem_cons.mp hp with rfl | hp
    · exact mem_cons_self
    · exact mem_cons_of_mem _ (ih _ p hp)

theorem placed_of_mem (ts : List Tensor) (byte_offset : ℕ) (t : Tensor) : t ∈ ts →
    ∃ o, (o, t) ∈ placed ts byte_offset := by
  induction ts generalizing byte_offset t with
  | nil =>
    intro ht
    exact absurd ht not_mem_nil
  | cons u rest ih =>
    intro ht
    rcases mem_cons.mp ht with rfl | ht
    · exact ⟨byte_offset, mem_cons_self⟩
    · obtain ⟨o, ho⟩ := ih (align_512 (byte_offset + u.nbytes)) t ht
      exact ⟨o, mem_cons_of_mem _ ho⟩

theorem readable_of_aligned {pool : List UInt8} (hin : Inside handle pool)
    (hfits : Fits handle.size (tensors_of items) 0)
    (hholds : Holds pool handle (tensors_of items) 0)
    (h : ∀ t ∈ tensors_of items, t.element_size ∣ handle.offset) :
    Readable pool handle (tensors_of items) 0 := by
  intro p hp
  have hend := hfits p hp
  unfold Inside at hin
  apply read_tensor_ok (hholds p hp) (by omega)
  exact (place_dvd_iff hp).mpr (h _ (mem_of_placed _ _ _ hp))

theorem read_manifest_ok {pool : List UInt8} (hnone : ¬ HasNone fields.items)
    (hread : Readable pool handle (tensors_of fields.items) 0) :
    ∃ tensors, read_tensors_from_manifest pool handle
        (OrderedDict.update .empty (records fields.items 0)) = .ok tensors ∧
      (SameFields fields tensors ↔ ∀ name, (name, some (Value.list [])) ∉ fields.items) := by
  obtain ⟨values, hvalues, hall⟩ := read_fields_ok fields.items 0 .empty hnone hread
  refine ⟨_, ?_, sameFields_iff hnone hall⟩
  unfold read_tensors_from_manifest
  rw [items_manifest]
  exact hvalues

theorem stage_granted {m : TransferManager} {request_id : String} {a' : Allocator}
    (hnone : ¬ HasNone fields.items) (hpos : total_bytes fields.items ≠ 0)
    (hg : Granted m.buffer a' request_id (total_bytes fields.items) offset) :
    stage_tensors_async m request_id fields = match write_tensors_from_gpu m.buffer.pool
          (slot_of m.buffer.allocator request_id (total_bytes fields.items) offset) fields with
        | .error (f, pool) => ({ m with buffer := ⟨a', pool⟩ }, .error f)
        | .ok (pool, manifest) =>
          let staged : StagedTransfer := ⟨request_id,
            some (slot_of m.buffer.allocator request_id (total_bytes fields.items) offset),
            manifest⟩
          (⟨⟨a', pool⟩, m.staged.set request_id staged⟩, .ok (some staged)) := by
  unfold stage_tensors_async
  rw [size_fields_ok fields.items 0 hnone, Nat.zero_add]
  cases hwrite : write_tensors_from_gpu m.buffer.pool
      (slot_of m.buffer.allocator request_id (total_bytes fields.items) offset) fields with
  | error e => simp only [if_neg hpos, hg.allocate, hwrite]
  | ok written => simp only [if_neg hpos, hg.allocate, hwrite]

theorem not_roundTrips {m : TransferManager} (h : Reached m.buffer) (hnone : ¬ HasNone fields.items)
    (hpos : 0 < total_bytes fields.items)
    (hnext : next_offset m.buffer.allocator (total_bytes fields.items) = some offset)
    (request_id : String) (hwrite : ¬ ((∀ t ∈ tensors_of fields.items, t.Viewable) ∧
      Fits (slot_size m.buffer.allocator.min_block_size (total_bytes fields.items))
        (tensors_of fields.items) 0)) : ¬ RoundTrips m request_id fields := by
  obtain ⟨a', hg⟩ := granted h hpos hnext request_id
  have hstage := stage_granted hnone (Nat.ne_of_gt hpos) hg
  have hwrites : write_tensors_from_gpu m.buffer.pool
        (slot_of m.buffer.allocator request_id (total_bytes fields.items) offset) fields
      = (write_all (slot_of m.buffer.allocator request_id (total_bytes fields.items) offset)
          (tensors_of fields.items) m.buffer.pool 0).map fun pool' =>
        (pool', OrderedDict.update .empty (records fields.items 0)) :=
    write_fields_eq _ _ _ _ _
  obtain ⟨f, hf⟩ := write_all_error (tensors_of fields.items) m.buffer.pool 0 hg.inside hwrite
  rw [hf] at hwrites
  rw [hwrites] at hstage
  unfold RoundTrips
  rw [hstage]
  intro hsame
  obtain ⟨blk, hblk, hal, -⟩ := hg.block
  have hfree := hg.free blk ((hsame offset blk hal).mp hblk)
  rw [hal] at hfree
  cases hfree

def zero_bytes (n : ℕ) : Tensor where
  dtype := .uint8
  shape := [n]
  strides := [1]
  data := List.replicate n 0
  rank := rfl
  full := by rw [length_replicate, prod_singleton]; exact (Nat.mul_one n).symm

/-- A dictionary of two such tensors. -/
def two_fields (n k : ℕ) : Fields where
  items := [("latents", some (.tensor (zero_bytes n))), ("mask", some (.tensor (zero_bytes k)))]
  nodup := by
    show ["latents", "mask"].Nodup
    decide

theorem zero_bytes_viewable (n : ℕ) : (zero_bytes n).Viewable := Or.inl rfl

theorem two_fields_total (n k : ℕ) : total_bytes (two_fields n k).items = n + k := by
  show n * 1 * 1 + (k * 1 * 1 + 0) = n + k
  omega

theorem not_hasNone_two_fields (n k : ℕ) : ¬ HasNone (two_fields n k).items := by
  rintro ⟨name, ts, hmem, -⟩
  rcases mem_cons.mp hmem with heq | hmem
  · cases heq
  · rcases mem_cons.mp hmem with heq | hmem
    · cases heq
    · exact absurd hmem not_mem_nil

theorem new_buffer : ∃ b, Reached b ∧ b.allocator.min_block_size = 2 ^ 20 ∧
    ∀ size : ℕ, 0 < size → size ≤ 2 ^ 20 →
      next_offset b.allocator size = some 0 ∧ slot_size (2 ^ 20) size = 2 ^ 20 := by
  have hinit : ∃ b, TransferTensorBuffer.init (2 ^ 22) (2 ^ 20) (fun _ => 0) = .ok b ∧
      b.allocator.min_block_size = 2 ^ 20 ∧ b.allocator.max_order = 2 ∧
      b.allocator.free_lists = fun order => if order = 2 then [0] else [] := by
    have hpow : BuddyAllocator.next_power_of_2 (max (2 ^ 22) ((2 ^ 20 : ℕ) : ℤ)) = 2 ^ 22 := by
      decide
    unfold TransferTensorBuffer.init BuddyAllocator.init
    exact ⟨_, rfl, rfl, rfl, rfl⟩
  obtain ⟨b, hb, hmin, hmax, hlists⟩ := hinit
  refine ⟨b, ⟨_, _, _, b, hb, .init, rfl⟩, hmin, ?_⟩
  intro size hpos hle
  have hsize : (0 : ℤ) < size := Int.natCast_pos.mpr hpos
  have hnat : ((size : ℕ) : ℤ) ≤ ((2 ^ (20 + 0) : ℕ) : ℤ) := Int.ofNat_le.mpr hle
  have htarget : BuddyAllocator.size_to_order (2 ^ 20)
      (max (BuddyAllocator.next_power_of_2 size) (2 ^ 20)) = 0 :=
    Nat.le_zero.mp ((BuddyAllocator.target_order_spec 20 hsize).2 0 hnat)
  constructor
  · unfold next_offset BuddyAllocator.find_order
    rw [hmin, htarget, hmax, hlists]
    rfl
  · unfold slot_size
    rw [htarget]
    rfl

end LightningH3.TransferBuffer
