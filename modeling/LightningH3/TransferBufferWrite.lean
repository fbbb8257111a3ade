/-
What `write_tensors_from_gpu` leaves in the pool.
-/
import LightningH3.TransferBuffer

set_option autoImplicit false

namespace LightningH3.TransferBuffer

open List

/-! ## 1. Slices of the pool -/

/-- The pool with `bytes` written at `start`. -/
def patch (pool : List UInt8) (start : ℕ) (bytes : List UInt8) : List UInt8 :=
  pool.take start ++ bytes ++ pool.drop (start + bytes.length)

section Slices

variable {pool bytes : List UInt8} {a b start : ℕ}

theorem getElem?_slice (pool : List UInt8) (a b k : ℕ) :
    (slice pool a b)[k]? = if a + k < b then pool[a + k]? else none := by
  unfold slice
  rw [getElem?_drop, getElem?_take]

theorem length_slice (hb : b ≤ pool.length) : (slice pool a b).length = b - a := by
  unfold slice
  rw [length_drop, length_take, Nat.min_eq_left hb]

section

variable (h : start + bytes.length ≤ pool.length)
include h

theorem length_patch : (patch pool start bytes).length = pool.length := by
  unfold patch
  rw [length_append, length_append, length_take, length_drop,
    Nat.min_eq_left (Nat.le_trans (Nat.le_add_right _ _) h)]
  omega

theorem getElem?_patch_of_outside {i : ℕ} (hi : i < start ∨ start + bytes.length ≤ i) :
    (patch pool start bytes)[i]? = pool[i]? := by
  have hstart : start ≤ pool.length := Nat.le_trans (Nat.le_add_right _ _) h
  have hlen : (pool.take start).length = start := by
    rw [length_take, Nat.min_eq_left hstart]
  unfold patch
  rcases hi with hi | hi
  · rw [append_assoc, getElem?_append_left (by omega), getElem?_take, if_pos hi]
  · rw [getElem?_append_right (by rw [length_append]; omega), length_append, getElem?_drop]
    congr 1
    omega

theorem slice_patch : slice (patch pool start bytes) start (start + bytes.length) = bytes := by
  have hlen : (pool.take start).length = start := by
    rw [length_take, Nat.min_eq_left (Nat.le_trans (Nat.le_add_right _ _) h)]
  unfold slice patch
  rw [take_append_of_le_length (by rw [length_append]; omega),
    take_of_length_le (by rw [length_append]; omega)]
  exact drop_left' hlen

end

theorem slice_congr {pool' : List UInt8} (h : ∀ i, a ≤ i → i < b → pool'[i]? = pool[i]?) :
    slice pool' a b = slice pool a b := by
  apply ext_getElem?
  intro k
  rw [getElem?_slice, getElem?_slice]
  by_cases hk : a + k < b
  · rw [if_pos hk, if_pos hk, h _ (Nat.le_add_right _ _) hk]
  · rw [if_neg hk, if_neg hk]

end Slices

/-! ## 2. One tensor -/

namespace Tensor

theorem contiguous_same (t : Tensor) : t.contiguous.Same t := by
  unfold contiguous
  split
  · exact ⟨rfl, rfl, rfl⟩
  · exact ⟨rfl, rfl, rfl⟩

theorem nbytes_contiguous (t : Tensor) :
    t.contiguous.nelement * t.contiguous.element_size = t.nbytes := by
  obtain ⟨hdtype, hshape, -⟩ := t.contiguous_same
  unfold nbytes nelement element_size
  rw [hdtype, hshape]

theorem length_data (t : Tensor) : t.data.length = t.nbytes := t.full

/-- Torch can view the tensor as bytes: its elements are bytes already, or it has an axis and the
stride of the last one is 1 after `contiguous()`. -/
def Viewable (t : Tensor) : Prop :=
  t.element_size = 1 ∨ (t.shape ≠ [] ∧ t.contiguous.strides.getLast? = some 1)

instance (t : Tensor) : Decidable t.Viewable := inferInstanceAs (Decidable (_ ∨ _))

theorem view_of_viewable {t : Tensor} (h : t.Viewable) : t.contiguous.view_uint8 = .ok t.data := by
  obtain ⟨hdtype, hshape, hdata⟩ := t.contiguous_same
  unfold view_uint8 element_size
  rw [hdtype, hshape, hdata]
  rcases h with h | ⟨haxis, hlast⟩
  · exact if_pos h
  · split
    · rfl
    · rfl

theorem view_of_not_viewable {t : Tensor} (h : ¬ t.Viewable) :
    ∃ f, t.contiguous.view_uint8 = .error f := by
  obtain ⟨hdtype, hshape, -⟩ := t.contiguous_same
  unfold Viewable at h
  rw [not_or, not_and] at h
  obtain ⟨hsize, haxis⟩ := h
  unfold element_size at hsize
  unfold view_uint8 element_size
  rw [hdtype, hshape, if_neg hsize]
  by_cases hs : t.shape = []
  · exact ⟨_, if_pos hs⟩
  · exact ⟨_, by rw [if_neg hs, if_neg (haxis hs)]⟩

end Tensor

/-- The slot is inside the pool. -/
def Inside (handle : SlotHandle) (pool : List UInt8) : Prop :=
  handle.offset + handle.size ≤ pool.length

section WriteTensor

variable {pool : List UInt8} {handle : SlotHandle} {t : Tensor} {byte_offset : ℕ}

theorem Inside.room (hin : Inside handle pool) (hfit : byte_offset + t.nbytes ≤ handle.size) :
    handle.offset + byte_offset + t.data.length ≤ pool.length := by
  have hbytes := t.length_data
  unfold Inside at hin
  omega

theorem Inside.patch (hin : Inside handle pool) (hfit : byte_offset + t.nbytes ≤ handle.size) :
    Inside handle (patch pool (handle.offset + byte_offset) t.data) := by
  unfold Inside
  rw [length_patch (hin.room hfit)]
  exact hin

theorem write_tensor_ok (hin : Inside handle pool) (hview : t.Viewable)
    (hfit : byte_offset + t.nbytes ≤ handle.size) : write_tensor pool handle t byte_offset
      = .ok (patch pool (handle.offset + byte_offset) t.data, t.nbytes) := by
  have hend : handle.offset + byte_offset + t.nbytes ≤ pool.length := by
    unfold Inside at hin
    omega
  unfold write_tensor
  dsimp only
  rw [t.nbytes_contiguous, if_neg (by omega), Tensor.view_of_viewable hview]
  dsimp only
  rw [length_slice hend, t.length_data, Nat.add_sub_cancel_left, if_pos rfl]
  unfold patch
  rw [t.length_data]

theorem write_tensor_error (h : ¬ (t.Viewable ∧ byte_offset + t.nbytes ≤ handle.size)) :
    ∃ f, write_tensor pool handle t byte_offset = .error f := by
  unfold write_tensor
  dsimp only
  rw [t.nbytes_contiguous]
  by_cases hexceeds : byte_offset + t.nbytes > handle.size
  · exact ⟨_, if_pos hexceeds⟩
  · rw [if_neg hexceeds]
    obtain ⟨f, hf⟩ := Tensor.view_of_not_viewable fun hview => h ⟨hview, Nat.not_lt.mp hexceeds⟩
    rw [hf]
    exact ⟨_, rfl⟩

end WriteTensor

/-! ## 3. One tensor after another -/

/-- The tensors with their offsets in the slot. -/
def placed : List Tensor → ℕ → List (ℕ × Tensor)
  | [], _ => []
  | t :: rest, byte_offset =>
    (byte_offset, t) :: placed rest (align_512 (byte_offset + t.nbytes))

/-- The offset after all of them. -/
def end_of : List Tensor → ℕ → ℕ
  | [], byte_offset => byte_offset
  | t :: rest, byte_offset => end_of rest (align_512 (byte_offset + t.nbytes))

/-- Each of them ends inside the slot. -/
def Fits (size : ℕ) (ts : List Tensor) (byte_offset : ℕ) : Prop :=
  ∀ p ∈ placed ts byte_offset, p.1 + p.2.nbytes ≤ size

/-- The writes of the nested loops, in order. -/
def write_all (handle : SlotHandle) : List Tensor → List UInt8 → ℕ →
    Except (Fault × List UInt8) (List UInt8)
  | [], pool, _ => .ok pool
  | t :: rest, pool, byte_offset => do
      let written ← write_tensor pool handle t byte_offset
      write_all handle rest written.1 (align_512 (byte_offset + t.nbytes))

theorem le_align_512 (n : ℕ) : n ≤ align_512 n := by
  unfold align_512
  omega

theorem dvd_align_512 (n : ℕ) : 512 ∣ align_512 n := Dvd.intro_left _ rfl

theorem dvd_of_mem_placed (ts : List Tensor) (byte_offset : ℕ) (p : ℕ × Tensor) :
    512 ∣ byte_offset → p ∈ placed ts byte_offset → 512 ∣ p.1 := by
  induction ts generalizing byte_offset p with
  | nil =>
    intro _ hp
    exact absurd hp not_mem_nil
  | cons t rest ih =>
    intro hdvd hp
    rcases mem_cons.mp hp with rfl | hp
    · exact hdvd
    · exact ih _ p (dvd_align_512 _) hp

variable {byte_offset : ℕ} {t : Tensor}

theorem fits_cons {size : ℕ} {rest : List Tensor} : Fits size (t :: rest) byte_offset ↔
      byte_offset + t.nbytes ≤ size ∧ Fits size rest (align_512 (byte_offset + t.nbytes)) :=
  forall_mem_cons

/-- The bytes of a slot hold the tensors at their places. -/
def Holds (pool : List UInt8) (handle : SlotHandle) (ts : List Tensor) (byte_offset : ℕ) : Prop :=
  ∀ p ∈ placed ts byte_offset,
    slice pool (handle.offset + p.1) (handle.offset + p.1 + p.2.nbytes) = p.2.data

variable {handle : SlotHandle}

/-- **All writes that fit succeed**: the bytes are there, and outside the slot nothing changed. -/
theorem write_all_ok (ts : List Tensor) (pool : List UInt8)
    (byte_offset : ℕ) : Inside handle pool → (∀ t ∈ ts, t.Viewable) →
    Fits handle.size ts byte_offset →
    ∃ pool', write_all handle ts pool byte_offset = .ok pool' ∧ pool'.length = pool.length ∧
      Holds pool' handle ts byte_offset ∧
      ∀ i, i < handle.offset + byte_offset ∨ handle.offset + handle.size ≤ i →
        pool'[i]? = pool[i]? := by
  induction ts generalizing pool byte_offset with
  | nil =>
    intro _ _ _
    refine ⟨pool, rfl, rfl, ?_, fun _ _ => rfl⟩
    intro p hp
    exact absurd hp not_mem_nil
  | cons t rest ih =>
    intro hin hview hfits
    obtain ⟨hfit, hrest⟩ := fits_cons.mp hfits
    have hlen := hin.room hfit
    have hok := write_tensor_ok hin (hview t mem_cons_self) hfit
    have hin' := hin.patch hfit
    obtain ⟨pool', hwrite, hlength, hholds, hframe⟩ :=
      ih _ _ hin' (fun u hu => hview u (mem_cons_of_mem _ hu)) hrest
    have halign := le_align_512 (byte_offset + t.nbytes)
    refine ⟨pool', ?_, hlength.trans (length_patch hlen), ?_, ?_⟩
    · show (write_tensor pool handle t byte_offset >>= _) = _
      rw [hok]
      exact hwrite
    · intro p hp
      rcases mem_cons.mp hp with rfl | hp
      · -- the later writes start behind this one
        have hkept : slice pool' (handle.offset + byte_offset)
              (handle.offset + byte_offset + t.nbytes)
            = slice (patch pool (handle.offset + byte_offset) t.data)
              (handle.offset + byte_offset) (handle.offset + byte_offset + t.nbytes) := by
          apply slice_congr
          intro i _ hi
          apply hframe
          left
          omega
        rw [hkept, ← t.length_data, slice_patch hlen]
      · exact hholds p hp
    · intro i hi
      rw [hframe i (by omega), getElem?_patch_of_outside hlen]
      have hbytes := t.length_data
      omega

theorem write_all_error (ts : List Tensor) (pool : List UInt8)
    (byte_offset : ℕ) : Inside handle pool →
    ¬ ((∀ t ∈ ts, t.Viewable) ∧ Fits handle.size ts byte_offset) →
    ∃ f, write_all handle ts pool byte_offset = .error f := by
  induction ts generalizing pool byte_offset with
  | nil =>
    intro _ h
    exfalso
    apply h
    exact ⟨fun _ hbad => absurd hbad not_mem_nil, fun _ hbad => absurd hbad not_mem_nil⟩
  | cons t rest ih =>
    intro hin h
    by_cases hone : t.Viewable ∧ byte_offset + t.nbytes ≤ handle.size
    · have hin' := hin.patch hone.2
      have hrest : ¬ ((∀ u ∈ rest, u.Viewable) ∧
          Fits handle.size rest (align_512 (byte_offset + t.nbytes))) := by
        rintro ⟨hview, hfits⟩
        exact h ⟨forall_mem_cons.mpr ⟨hone.1, hview⟩, fits_cons.mpr ⟨hone.2, hfits⟩⟩
      obtain ⟨f, hf⟩ := ih _ _ hin' hrest
      refine ⟨f, ?_⟩
      show (write_tensor pool handle t byte_offset >>= _) = _
      rw [write_tensor_ok hin hone.1 hone.2]
      exact hf
    · have herror : ∃ f, write_tensor pool handle t byte_offset = .error f :=
        write_tensor_error hone
      obtain ⟨f, hf⟩ := herror
      refine ⟨f, ?_⟩
      show (write_tensor pool handle t byte_offset >>= _) = _
      rw [hf]
      rfl

/-! ## 4. The loops and their manifest -/

def Value.tensors : Value → List Tensor
  | .tensor t => [t]
  | .list ts => ts.filterMap id

/-- The tensors of a dictionary, in the order in which they are written. -/
def tensors_of (items : List (String × Option Value)) : List Tensor :=
  items.flatMap fun e => e.2.elim [] Value.tensors

/-- The entries of a list from position `i` on. -/
def list_entries : List (Option Tensor) → ℕ → ℕ → List Entry
  | [], _, _ => []
  | none :: rest, i, byte_offset => list_entries rest (i + 1) byte_offset
  | some t :: rest, i, byte_offset =>
    Entry.of byte_offset t (some i) ::
      list_entries rest (i + 1) (align_512 (byte_offset + t.nbytes))

def Value.entries (byte_offset : ℕ) : Value → List Entry
  | .tensor t => [Entry.of byte_offset t none]
  | .list ts => list_entries ts 0 byte_offset

/-- What the manifest records: the fields with an entry. -/
def records : List (String × Option Value) → ℕ → List (String × List Entry)
  | [], _ => []
  | (_, none) :: rest, byte_offset => records rest byte_offset
  | (name, some value) :: rest, byte_offset =>
    if (value.entries byte_offset).isEmpty then records rest (end_of value.tensors byte_offset)
    else (name, value.entries byte_offset) :: records rest (end_of value.tensors byte_offset)

theorem records_cons (name : String) (value : Value) (rest : List (String × Option Value))
    (byte_offset : ℕ) : records ((name, some value) :: rest) byte_offset
      = if (value.entries byte_offset).isEmpty then
          records rest (end_of value.tensors byte_offset)
        else (name, value.entries byte_offset) ::
          records rest (end_of value.tensors byte_offset) := rfl

theorem placed_append (ts us : List Tensor) (byte_offset : ℕ) :
    placed (ts ++ us) byte_offset = placed ts byte_offset ++ placed us (end_of ts byte_offset) := by
  induction ts generalizing us byte_offset with
  | nil => rfl
  | cons t rest ih => exact congrArg (List.cons (byte_offset, t)) (ih us _)

theorem write_tensor_snd {pool : List UInt8} {written : List UInt8 × ℕ}
    (h : write_tensor pool handle t byte_offset = .ok written) : written.2 = t.nbytes := by
  unfold write_tensor at h
  dsimp only at h
  rw [t.nbytes_contiguous] at h
  split at h
  · cases h
  · split at h
    · cases h
    · split at h
      · cases h
        rfl
      · cases h

theorem write_tensor_bind {pool : List UInt8} {α : Type}
    (next : List UInt8 → ℕ → Except (Fault × List UInt8) α) :
    (write_tensor pool handle t byte_offset >>= fun written => next written.1 written.2)
      = write_tensor pool handle t byte_offset >>= fun written => next written.1 t.nbytes := by
  cases h : write_tensor pool handle t byte_offset with
  | error f => rfl
  | ok written =>
    show next written.1 written.2 = next written.1 t.nbytes
    rw [write_tensor_snd h]

section

variable (handle : SlotHandle)

theorem write_list_eq (ts : List (Option Tensor)) (i : ℕ)
    (pool : List UInt8) (byte_offset : ℕ) (entries : List Entry) :
    write_list handle ts i pool byte_offset entries
      = (write_all handle (ts.filterMap id) pool byte_offset).map fun pool' =>
          (pool', end_of (ts.filterMap id) byte_offset,
            entries ++ list_entries ts i byte_offset) := by
  induction ts generalizing i pool byte_offset entries with
  | nil =>
    rw [show list_entries [] i byte_offset = [] from rfl, append_nil]
    rfl
  | cons o rest ih =>
    cases o with
    | none => exact ih (i + 1) pool byte_offset entries
    | some t =>
      show (write_tensor pool handle t byte_offset >>= fun written =>
          write_list handle rest (i + 1) written.1 (align_512 (byte_offset + written.2))
            (entries ++ [Entry.of byte_offset t (some i)]))
        = (write_tensor pool handle t byte_offset >>= _).map _
      rw [write_tensor_bind fun p n => write_list handle rest (i + 1) p
        (align_512 (byte_offset + n)) (entries ++ [Entry.of byte_offset t (some i)])]
      cases write_tensor pool handle t byte_offset with
      | error f => rfl
      | ok written =>
        show write_list handle rest _ _ _ _ = (write_all handle _ _ _).map _
        rw [ih, append_assoc]
        rfl

theorem write_value_eq (pool : List UInt8) (byte_offset : ℕ)
    (value : Value) : write_value handle pool byte_offset value
      = (write_all handle value.tensors pool byte_offset).map fun pool' =>
          (pool', end_of value.tensors byte_offset, value.entries byte_offset) := by
  cases value with
  | list ts => exact write_list_eq handle ts 0 pool byte_offset []
  | tensor t =>
    show (write_tensor pool handle t byte_offset >>= fun written =>
        Except.ok (written.1, align_512 (byte_offset + written.2), [Entry.of byte_offset t none]))
      = (write_tensor pool handle t byte_offset >>= _).map _
    rw [write_tensor_bind fun p n => (Except.ok (p, align_512 (byte_offset + n),
      [Entry.of byte_offset t none]) : Except (Fault × List UInt8) _)]
    cases write_tensor pool handle t byte_offset with
    | error f => rfl
    | ok written => rfl

theorem write_all_append (ts us : List Tensor) (pool : List UInt8)
    (byte_offset : ℕ) : write_all handle (ts ++ us) pool byte_offset
      = write_all handle ts pool byte_offset >>= fun pool' =>
          write_all handle us pool' (end_of ts byte_offset) := by
  induction ts generalizing us pool byte_offset with
  | nil => rfl
  | cons t rest ih =>
    show (write_tensor pool handle t byte_offset >>= _)
      = (write_tensor pool handle t byte_offset >>= _) >>= _
    cases write_tensor pool handle t byte_offset with
    | error f => rfl
    | ok written => exact ih us _ _

/-- **The nested loops are the flat one, with the manifest beside it.** -/
theorem write_fields_eq : ∀ (items : List (String × Option Value))
    (pool : List UInt8) (byte_offset : ℕ) (manifest : Manifest),
    write_fields handle items pool byte_offset manifest
      = (write_all handle (tensors_of items) pool byte_offset).map fun pool' =>
          (pool', manifest.update (records items byte_offset)) := by
  intro items
  induction items with
  | nil =>
    intro pool byte_offset manifest
    rfl
  | cons e rest ih =>
    obtain ⟨name, v⟩ := e
    intro pool byte_offset manifest
    cases v with
    | none => exact ih pool byte_offset manifest
    | some value =>
      show (write_value handle pool byte_offset value >>= _)
        = (write_all handle (value.tensors ++ tensors_of rest) pool byte_offset).map _
      rw [write_value_eq, write_all_append]
      cases write_all handle value.tensors pool byte_offset with
      | error f => rfl
      | ok pool' =>
        show write_fields handle rest pool' (end_of value.tensors byte_offset) _
          = (write_all handle (tensors_of rest) pool' _).map _
        rw [ih]
        have hupdate : (if (value.entries byte_offset).isEmpty then manifest
              else manifest.set name (value.entries byte_offset)).update
              (records rest (end_of value.tensors byte_offset))
            = manifest.update (records ((name, some value) :: rest) byte_offset) := by
          rw [records_cons]
          by_cases hnil : (value.entries byte_offset).isEmpty = true
          · rw [if_pos hnil, if_pos hnil]
          · rw [if_neg hnil, if_neg hnil]
            rfl
        rw [← hupdate]

end

end LightningH3.TransferBuffer
