/-
The two encodings of tensor fields read back.

The message keeps every field: a list is described tensor by tensor, the largest position sizes it
again because its last entry is a tensor, and each tensor goes back to its position. The broadcast
keeps the order of the tensors and drops the gaps, so it reads a list back exactly when the list has
none (`codecs_round_trip_iff`).

Each loop is computed once, as an update of the dictionary it fills with one entry for each field,
and the fields are then compared key by key.
-/
import LightningH3.TensorCodec
import LightningH3.Lib.Fallible

set_option autoImplicit false

namespace LightningH3.TensorCodec

open List Fallible OrderedDict

open TransferBuffer (Tensor DType Value Fields dtype_str row_major length_row_major SameValue
  SameFields)

/-! ## 1. One tensor -/

theorem dtype_to_str_eq (dtype : DType) : dtype_to_str dtype = .ok (dtype_str dtype) := by
  cases dtype <;> rfl

theorem str_to_dtype_dtype_str (dtype : DType) : str_to_dtype (dtype_str dtype) = .ok dtype := by
  cases dtype <;> decide

theorem as_size_int (n : ℕ) : (Json.int n).as_size = .ok n := by
  unfold Json.as_size Json.as_int
  rw [ok_bind, if_pos (Int.natCast_nonneg n), Int.toNat_natCast]

theorem mapM_as_size (shape : List ℕ) :
    (shape.map fun n : ℕ => Json.int n).mapM Json.as_size = .ok shape := by
  rw [mapM_map]
  show shape.mapM (fun n : ℕ => (Json.int n).as_size) = _
  rw [mapM_of_ok fun n _ => as_size_int n, map_id']

theorem from_dict_to_dict (desc : TensorDescriptor) :
    TensorDescriptor.from_dict desc.to_dict = .ok desc := by
  have hname : desc.to_dict.item "field_name" = .ok (.str desc.field_name) := rfl
  have hshape : desc.to_dict.item "shape" = .ok (.arr (desc.shape.map fun n : ℕ => .int n)) := rfl
  have hdtype : desc.to_dict.item "dtype" = .ok (.str desc.dtype) := rfl
  have hindex : desc.to_dict.get? "list_index" = some (.int desc.list_index) := rfl
  unfold TensorDescriptor.from_dict
  simp only [hshape, ok_bind, Json.as_arr, mapM_as_size]
  rfl

theorem fresh_rank (t : Tensor) : (row_major t.shape).length = t.shape.length :=
  length_row_major t.shape

/-- The tensor that is read back: the same values, in a tensor of its own. -/
def fresh (t : Tensor) : Tensor where
  dtype := t.dtype
  shape := t.shape
  strides := row_major t.shape
  data := t.data
  rank := fresh_rank t
  full := t.full

theorem same_fresh (t : Tensor) : t.Same (fresh t) := ⟨rfl, rfl, rfl⟩

theorem wrap_eq (t : Tensor) : wrap t = t.data := t.contiguous_same.2.2

theorem from_frame_ok (t : Tensor) : from_frame t.data t.dtype t.shape = .ok (fresh t) := by
  unfold from_frame fresh
  by_cases h0 : 0 ∈ t.shape
  · have hnil : t.data = [] := by
      have hfull := t.full
      rw [prod_eq_zero h0, Nat.zero_mul] at hfull
      exact eq_nil_of_length_eq_zero hfull
    rw [dif_pos h0]
    simp only [hnil]
  · have hpos : 0 < t.data.length := by
      rw [t.full]
      exact Nat.mul_pos (Nat.pos_of_ne_zero (prod_ne_zero h0)) t.dtype.element_size_pos
    have hwhole : ¬ (t.data = [] ∨ t.data.length % t.dtype.element_size ≠ 0) := by
      rintro (hnil | htorn)
      · rw [hnil] at hpos
        exact Nat.lt_irrefl 0 hpos
      · rw [t.full, Nat.mul_mod_left] at htorn
        exact htorn rfl
    rw [dif_neg h0, if_neg hwhole, dif_pos t.full]

/-! ## 2. Packing -/

/-- The fields that are no `None`. -/
def present (items : List (String × Option Value)) : List (String × Value) :=
  items.filterMap fun e => e.2.map fun v => (e.1, v)

variable {name : String}

theorem mem_present {items : List (String × Option Value)} {v : Value} :
    (name, v) ∈ present items ↔ (name, some v) ∈ items := by
  unfold present
  rw [mem_filterMap]
  constructor
  · rintro ⟨⟨name', v'⟩, hmem, hv⟩
    obtain ⟨w, rfl, heq⟩ := Option.map_eq_some_iff.mp hv
    cases heq
    exact hmem
  · intro hmem
    exact ⟨(name, some v), hmem, rfl⟩

theorem sublist_present : ∀ items : List (String × Option Value),
    List.Sublist ((present items).map Prod.fst) (items.map Prod.fst) := by
  intro items
  induction items with
  | nil => exact List.Sublist.refl _
  | cons e rest ih =>
    obtain ⟨name, v⟩ := e
    cases v with
    | none => exact ih.cons _
    | some value => exact ih.cons_cons _

theorem present_nodup (fields : Fields) : ((present fields.items).map Prod.fst).Nodup :=
  (sublist_present fields.items).nodup fields.nodup

/-- A tensor with its description. -/
def entry (name : String) (list_index : ℤ) (t : Tensor) : TensorDescriptor × List UInt8 :=
  (⟨name, t.shape, dtype_str t.dtype, list_index⟩, t.data)

/-- The described tensors of a list, from position `i` on. -/
def list_entries (name : String) : List (Option Tensor) → ℕ → List (TensorDescriptor × List UInt8)
  | [], _ => []
  | none :: rest, i => list_entries name rest (i + 1)
  | some t :: rest, i => entry name i t :: list_entries name rest (i + 1)

/-- The described tensors of a field. -/
def field_entries (name : String) : Value → List (TensorDescriptor × List UInt8)
  | .tensor t => [entry name (-1) t]
  | .list ts => list_entries name ts 0

/-- All described tensors, in the order of the frames. -/
def entries (fields : List (String × Value)) : List (TensorDescriptor × List UInt8) :=
  fields.flatMap fun e => field_entries e.1 e.2

theorem pack_list_eq (name : String) (ts : List (Option Tensor)) (i : ℕ)
    (descriptors : List TensorDescriptor) (buffers : List (List UInt8)) :
    pack_list name ts i descriptors buffers
      = .ok (descriptors ++ (list_entries name ts i).map Prod.fst,
          buffers ++ (list_entries name ts i).map Prod.snd) := by
  induction ts generalizing i descriptors buffers with
  | nil => simp only [pack_list, list_entries, map_nil, append_nil]
  | cons o rest ih =>
    cases o with
    | none => exact ih (i + 1) descriptors buffers
    | some t =>
      rw [pack_list, dtype_to_str_eq, ok_bind, ih, wrap_eq]
      simp only [list_entries, entry, map_cons, append_assoc, singleton_append]

theorem pack_fields_eq : ∀ (items : List (String × Option Value))
    (descriptors : List TensorDescriptor) (buffers : List (List UInt8)),
    pack_fields items descriptors buffers
      = .ok (descriptors ++ (entries (present items)).map Prod.fst,
          buffers ++ (entries (present items)).map Prod.snd) := by
  intro items
  induction items with
  | nil =>
    intro descriptors buffers
    simp only [pack_fields, present, entries, filterMap_nil, flatMap_nil, map_nil, append_nil]
  | cons e rest ih =>
    obtain ⟨name, v⟩ := e
    intro descriptors buffers
    cases v with
    | none => exact ih descriptors buffers
    | some value =>
      have hentries : entries (present ((name, some value) :: rest))
          = field_entries name value ++ entries (present rest) := rfl
      rw [hentries, map_append, map_append, ← append_assoc, ← append_assoc]
      cases value with
      | tensor t =>
        rw [pack_fields, dtype_to_str_eq, ok_bind, ih, wrap_eq]
        rfl
      | list ts =>
        rw [pack_fields, pack_list_eq, ok_bind, ih]
        rfl

/-! ## 3. Unpacking -/

theorem list_sizes_append : ∀ (a b : List TensorDescriptor) (sizes : OrderedDict String ℕ),
    list_sizes (a ++ b) sizes = list_sizes b (list_sizes a sizes) := by
  intro a b
  induction a with
  | nil =>
    intro sizes
    rfl
  | cons desc rest ih =>
    intro sizes
    rw [cons_append, list_sizes, list_sizes]
    split
    · exact ih _
    · exact ih _

/-- A list whose last entry is a tensor. -/
def EndsWithTensor (ts : List (Option Tensor)) : Prop := ∃ t, ts.getLast? = some (some t)

theorem list_sizes_entry {i : ℕ} {sizes : OrderedDict String ℕ} (hle : (sizes.get? name).getD 0 ≤ i)
    (t : Tensor) (rest : List TensorDescriptor) :
    list_sizes ((entry name i t).1 :: rest) sizes = list_sizes rest (sizes.set name (i + 1)) := by
  have hsize : max ((sizes.get? name).getD 0) (i + 1) = i + 1 :=
    max_eq_right (Nat.le_succ_of_le hle)
  show (if (0 : ℤ) ≤ (i : ℤ) then list_sizes rest (sizes.set name
    (max ((sizes.get? name).getD 0) ((i : ℤ).toNat + 1))) else _) = _
  rw [if_pos (Int.natCast_nonneg i), Int.toNat_natCast, hsize]

theorem list_sizes_list (name : String) : ∀ (ts : List (Option Tensor)) (i : ℕ)
    (sizes : OrderedDict String ℕ), EndsWithTensor ts → (sizes.get? name).getD 0 ≤ i →
    list_sizes ((list_entries name ts i).map Prod.fst) sizes = sizes.set name (i + ts.length) := by
  intro ts
  induction ts with
  | nil =>
    rintro i sizes ⟨t, hlast⟩
    cases hlast
  | cons o rest ih =>
    rintro i sizes ⟨t, hlast⟩ hle
    by_cases hrest : rest = []
    · subst hrest
      obtain rfl : o = some t := Option.some.inj hlast
      exact list_sizes_entry hle t []
    · have hends : EndsWithTensor rest := by
        refine ⟨t, ?_⟩
        rw [getLast?_cons_of_ne_nil hrest] at hlast
        exact hlast
      have hlen : i + (o :: rest).length = i + 1 + rest.length := by
        rw [length_cons]
        omega
      rw [hlen]
      cases o with
      | none => exact ih (i + 1) sizes hends (Nat.le_succ_of_le hle)
      | some u =>
        have hnow : ((sizes.set name (i + 1)).get? name).getD 0 ≤ i + 1 := by
          rw [get?_set, if_pos rfl]
          exact Nat.le_refl _
        rw [list_entries, map_cons, list_sizes_entry hle, ih (i + 1) _ hends hnow,
          OrderedDict.set_set]

/-- The size that is found for a field. -/
def list_size : String × Value → Option (String × ℕ)
  | (_, .tensor _) => none
  | (name, .list ts) => some (name, ts.length)

/-- Every list among the fields ends with a tensor. -/
def AllEnd (fields : List (String × Value)) : Prop :=
  ∀ name ts, (name, Value.list ts) ∈ fields → EndsWithTensor ts

theorem list_sizes_fields : ∀ (fields : List (String × Value)) (sizes : OrderedDict String ℕ),
    (fields.map Prod.fst).Nodup → AllEnd fields → (∀ name ∈ fields.map Prod.fst,
      sizes.get? name = none) → list_sizes ((entries fields).map Prod.fst) sizes
      = sizes.update (fields.filterMap list_size) := by
  intro fields
  induction fields with
  | nil =>
    intro sizes _ _ _
    rfl
  | cons e rest ih =>
    obtain ⟨name, value⟩ := e
    intro sizes hnd hend hnew
    rw [map_cons, nodup_cons] at hnd
    have hrest : AllEnd rest := fun name' ts hmem => hend name' ts (mem_cons_of_mem _ hmem)
    have hsplit : (entries ((name, value) :: rest)).map Prod.fst
        = (field_entries name value).map Prod.fst ++ (entries rest).map Prod.fst :=
      map_append
    rw [hsplit, list_sizes_append]
    cases value with
    | tensor t =>
      exact ih sizes hnd.2 hrest fun name' hmem => hnew name' (mem_cons_of_mem _ hmem)
    | list ts =>
      have hzero : (sizes.get? name).getD 0 ≤ 0 := by
        rw [hnew name mem_cons_self]
        exact Nat.le_refl 0
      rw [field_entries, list_sizes_list name ts 0 sizes (hend name ts mem_cons_self) hzero,
        Nat.zero_add, ih _ hnd.2 hrest]
      · rfl
      · intro name' hmem
        have hne : name' ≠ name := by
          rintro rfl
          exact hnd.1 hmem
        rw [get?_set, if_neg hne]
        exact hnew name' (mem_cons_of_mem _ hmem)

theorem reserve_eq (sizes : List (String × ℕ)) (d : OrderedDict String Value) : reserve sizes d
      = d.update (sizes.map fun e => (e.1, Value.list (List.replicate e.2 none))) := by
  induction sizes generalizing d with
  | nil => rfl
  | cons e _ ih => exact ih _

/-- The value that is read back. -/
def fresh_value : Value → Value
  | .tensor t => .tensor (fresh t)
  | .list ts => .list (ts.map (Option.map fresh))

theorem same_fresh_value (v : Value) : SameValue v (fresh_value v) := by
  cases v with
  | tensor t => exact .tensor (same_fresh t)
  | list ts =>
    refine .list (forall₂_map_right_iff.mpr (forall₂_same.mpr fun o _ => ?_))
    cases o with
    | none => exact .none
    | some t => exact .some (same_fresh t)

theorem fill_append : ∀ (a b : List (TensorDescriptor × List UInt8)) (d : OrderedDict String Value),
    fill (a ++ b) d = fill a d >>= fill b := by
  intro a b
  induction a with
  | nil =>
    intro d
    rfl
  | cons e rest ih =>
    intro d
    simp only [cons_append, fill, bind_assoc, ih]

theorem fill_entry (name : String) (i : ℤ) (t : Tensor)
    (rest : List (TensorDescriptor × List UInt8)) (d : OrderedDict String Value) :
    fill (entry name i t :: rest) d = assign d (entry name i t).1 (fresh t) >>= fill rest := by
  show (str_to_dtype (dtype_str t.dtype) >>= _) = _
  rw [str_to_dtype_dtype_str]
  show (from_frame t.data t.dtype t.shape >>= _) = _
  rw [from_frame_ok]
  rfl

variable {ts : List (Option Tensor)}

theorem assign_list {d : OrderedDict String Value} {desc : TensorDescriptor}
    (hi : 0 ≤ desc.list_index) (hd : d.get? desc.field_name = some (.list ts))
    (hlt : desc.list_index.toNat < ts.length) (t : Tensor) : assign d desc t
      = .ok (d.set desc.field_name (.list (ts.set desc.list_index.toNat (some t)))) := by
  unfold assign
  rw [if_pos hi, hd]
  exact if_pos hlt

theorem fill_list (name : String) (ts : List (Option Tensor)) (done : List (Option Tensor))
    (d : OrderedDict String Value) :
    d.get? name = some (.list (done ++ List.replicate ts.length none)) →
    fill (list_entries name ts done.length) d
      = .ok (d.set name (.list (done ++ ts.map (Option.map fresh)))) := by
  induction ts generalizing done d with
  | nil =>
    intro hd
    exact congrArg Except.ok (set_self hd).symm
  | cons o rest ih =>
    intro hd
    have hlen : ∀ o' : Option Tensor, (done ++ [o']).length = done.length + 1 := fun o' => by
      rw [length_append, length_singleton]
    cases o with
    | none =>
      have hstep := ih (done ++ [none]) d (by rw [append_assoc]; exact hd)
      rw [hlen, append_assoc] at hstep
      exact hstep
    | some t =>
      have hin : done.length < (done ++ none :: List.replicate rest.length none).length := by
        rw [length_append, length_cons]
        omega
      have hset : (done ++ none :: List.replicate rest.length none).set done.length
          (some (fresh t)) = done ++ [some (fresh t)] ++ List.replicate rest.length none := by
        rw [set_append_right _ _ (Nat.le_refl _), Nat.sub_self, append_assoc]
        rfl
      have hassign : assign d (entry name done.length t).1 (fresh t)
          = .ok (d.set name
            (.list (done ++ [some (fresh t)] ++ List.replicate rest.length none))) := by
        have hat : 0 ≤ (entry name done.length t).1.list_index := Int.natCast_nonneg _
        rw [← hset]
        exact assign_list hat hd hin (fresh t)
      rw [list_entries, fill_entry, hassign]
      have hstep := ih (done ++ [some (fresh t)])
        (d.set name (.list (done ++ [some (fresh t)] ++ List.replicate rest.length none)))
        (by rw [get?_set, if_pos rfl])
      rw [hlen, OrderedDict.set_set, append_assoc done _ (rest.map _)] at hstep
      exact hstep

/-- The places that are reserved for the lists. -/
def Reserved (fields : List (String × Value)) (d : OrderedDict String Value) : Prop :=
  ∀ name ts, (name, Value.list ts) ∈ fields →
    d.get? name = some (.list (List.replicate ts.length none))

theorem fill_fields : ∀ (fields : List (String × Value)) (d : OrderedDict String Value),
    (fields.map Prod.fst).Nodup → Reserved fields d →
    fill (entries fields) d = .ok (d.update (fields.map fun e => (e.1, fresh_value e.2))) := by
  intro fields
  induction fields with
  | nil =>
    intro d _ _
    rfl
  | cons e rest ih =>
    obtain ⟨name, value⟩ := e
    intro d hnd hres
    rw [map_cons, nodup_cons] at hnd
    have hrest : ∀ w : Value, Reserved rest (d.set name w) := by
      intro w name' ts hmem
      have hne : name' ≠ name := by
        rintro rfl
        exact hnd.1 (mem_map.mpr ⟨_, hmem, rfl⟩)
      rw [get?_set, if_neg hne]
      exact hres name' ts (mem_cons_of_mem _ hmem)
    have hfield : fill (field_entries name value) d = .ok (d.set name (fresh_value value)) := by
      cases value with
      | tensor t =>
        rw [field_entries, fill_entry]
        rfl
      | list ts => exact fill_list name ts [] d (hres name ts mem_cons_self)
    rw [show entries ((name, value) :: rest) = field_entries name value ++ entries rest from rfl,
      fill_append, hfield, ok_bind, ih _ hnd.2 (hrest _)]
    rfl

/-! ## 4. The message round trip -/

/-- `unpack_tensors` after `pack_tensors` gives the fields and the scalars back. -/
def MessageRoundTrips (fields : Fields) (scalars : OrderedDict String Json) : Prop :=
  ∃ metadata frames out, pack_tensors fields (some scalars) = .ok (metadata, frames) ∧
    unpack_tensors metadata frames = .ok (out, .obj scalars.items) ∧ SameFields fields out

theorem sublist_sizes : ∀ fields : List (String × Value),
    List.Sublist ((fields.filterMap list_size).map Prod.fst) (fields.map Prod.fst) := by
  intro fields
  induction fields with
  | nil => exact List.Sublist.refl _
  | cons e rest ih =>
    obtain ⟨name, value⟩ := e
    cases value with
    | tensor t => exact ih.cons _
    | list ts => exact ih.cons_cons _

variable {fields : List (String × Value)}

theorem reserve_sizes (hnd : (fields.map Prod.fst).Nodup) (hend : AllEnd fields) :
    reserve (list_sizes ((entries fields).map Prod.fst) .empty).items .empty
      = OrderedDict.empty.update ((fields.filterMap list_size).map fun e =>
          (e.1, Value.list (List.replicate e.2 none))) := by
  have hsizes := list_sizes_fields fields .empty hnd hend fun _ _ => rfl
  have hitems : (OrderedDict.empty.update (fields.filterMap list_size)).items
      = fields.filterMap list_size :=
    items_ofList_of_nodup ((sublist_sizes fields).nodup hnd)
  rw [reserve_eq, hsizes, hitems]

theorem map_fst_reserved (sizes : List (String × ℕ)) :
    (sizes.map fun e => (e.1, Value.list (List.replicate e.2 none))).map Prod.fst
      = sizes.map Prod.fst := by
  rw [map_map]
  rfl

theorem reserved (hnd : (fields.map Prod.fst).Nodup) (hend : AllEnd fields) :
    Reserved fields (reserve (list_sizes ((entries fields).map Prod.fst) .empty).items .empty) := by
  intro name ts hmem
  rw [reserve_sizes hnd hend]
  apply get?_update_of_mem
  · rw [map_fst_reserved]
    exact (sublist_sizes fields).nodup hnd
  · have hsize : (name, ts.length) ∈ fields.filterMap list_size :=
      mem_filterMap.mpr ⟨_, hmem, rfl⟩
    exact mem_map.mpr ⟨_, hsize, rfl⟩

theorem not_reserved (hnd : (fields.map Prod.fst).Nodup) (hend : AllEnd fields)
    (hname : name ∉ fields.map Prod.fst) :
    (reserve (list_sizes ((entries fields).map Prod.fst) .empty).items .empty).get? name
      = none := by
  rw [reserve_sizes hnd hend, get?_update_of_notMem]
  · rfl
  · rw [map_fst_reserved]
    exact fun hmem => hname ((sublist_sizes fields).subset hmem)

theorem not_present {fields : Fields} (h : (fields.get? name).join = none) :
    name ∉ (present fields.items).map Prod.fst := by
  intro hmem
  obtain ⟨⟨name', v⟩, hv, rfl⟩ := mem_map.mp hmem
  rw [get?_eq_some_iff.mpr (mem_present.mp hv)] at h
  cases h

theorem present_of_join {fields : Fields} {v : Value} (h : (fields.get? name).join = some v) :
    (name, v) ∈ present fields.items :=
  mem_present.mpr (get?_eq_some_iff.mp (Option.join_eq_some_iff.mp h))

theorem get?_assigned {ν : Type} (f : Value → ν) {fields : Fields} {d : OrderedDict String ν}
    (hd : name ∉ (present fields.items).map Prod.fst → d.get? name = none) :
    (d.update ((present fields.items).map fun e => (e.1, f e.2))).get? name
      = (fields.get? name).join.map f := by
  have hfst : ((present fields.items).map fun e => (e.1, f e.2)).map Prod.fst
      = (present fields.items).map Prod.fst := by
    rw [map_map]
    rfl
  cases hfield : (fields.get? name).join with
  | none =>
    have hname := not_present hfield
    rw [get?_update_of_notMem _ (by rw [hfst]; exact hname), hd hname]
    rfl
  | some v =>
    apply get?_update_of_mem
    · rw [hfst]
      exact present_nodup fields
    · exact mem_map.mpr ⟨_, present_of_join hfield, rfl⟩

/-- The metadata of a message. -/
def document (descriptors : List TensorDescriptor) (scalars : List (String × Json)) : Json :=
  .obj [("tensor_descriptors", .arr (descriptors.map TensorDescriptor.to_dict)),
    ("scalar_fields", .obj scalars)]

theorem pack_tensors_eq (fields : Fields) (scalars : OrderedDict String Json) :
    pack_tensors fields (some scalars)
      = .ok (document ((entries (present fields.items)).map Prod.fst) scalars.items,
          (entries (present fields.items)).map Prod.snd) := by
  unfold pack_tensors
  rw [pack_fields_eq]
  rfl

theorem unpack_tensors_document (described : List (TensorDescriptor × List UInt8))
    (scalars : List (String × Json)) :
    unpack_tensors (document (described.map Prod.fst) scalars) (described.map Prod.snd)
      = (fill described (reserve (list_sizes (described.map Prod.fst) .empty).items .empty)
          >>= fun tensor_fields => .ok (tensor_fields, .obj scalars)) := by
  have hitem : (document (described.map Prod.fst) scalars).item "tensor_descriptors"
      = .ok (.arr ((described.map Prod.fst).map TensorDescriptor.to_dict)) := rfl
  have hscalars : (document (described.map Prod.fst) scalars).get? "scalar_fields"
      = some (.obj scalars) := rfl
  have hread : ((described.map Prod.fst).map TensorDescriptor.to_dict).mapM
      TensorDescriptor.from_dict = .ok (described.map Prod.fst) := by
    rw [mapM_map]
    show List.mapM (fun desc : TensorDescriptor => TensorDescriptor.from_dict desc.to_dict) _ = _
    rw [mapM_of_ok fun desc _ => from_dict_to_dict desc, map_id']
  have hzip : (described.map Prod.fst).zip (described.map Prod.snd) = described := by
    rw [zip_map']
    exact map_id' described
  unfold unpack_tensors
  rw [hitem, ok_bind, Json.as_arr, ok_bind, hread, ok_bind, hscalars,
    length_map, length_map, if_neg fun hne => hne rfl, hzip]
  rfl

/-- **Every dictionary comes back from the message.** -/
theorem message_round_trips (fields : Fields) (scalars : OrderedDict String Json)
    (hend : AllEnd (present fields.items)) : MessageRoundTrips fields scalars := by
  have hnd := present_nodup fields
  have hfill := fill_fields (present fields.items) _ hnd (reserved hnd hend)
  have hunpack := unpack_tensors_document (entries (present fields.items)) scalars.items
  rw [hfill] at hunpack
  refine ⟨_, _, _, pack_tensors_eq fields scalars, hunpack, fun name => ?_⟩
  rw [get?_assigned fresh_value fun hname => not_reserved hnd hend hname]
  cases (fields.get? name).join with
  | none => exact .none
  | some v => exact .some (same_fresh_value v)

/-! ## 5. The broadcast -/

/-- The tensors of a list with their positions, from position `i` on. -/
def positions : List (Option Tensor) → ℕ → List (ℕ × Item)
  | [], _ => []
  | none :: rest, i => positions rest (i + 1)
  | some t :: rest, i => (i, .tensor t) :: positions rest (i + 1)

section

variable (ts : List (Option Tensor))

section

variable (i : ℕ)
include i

theorem le_of_mem_positions (e : ℕ × Item) : e ∈ positions ts i → i ≤ e.1 := by
  induction ts generalizing i e with
  | nil =>
    intro hmem
    exact absurd hmem not_mem_nil
  | cons o rest ih =>
    intro hmem
    cases o with
    | none => exact Nat.le_of_succ_le (ih (i + 1) e hmem)
    | some t =>
      rcases mem_cons.mp hmem with rfl | hrest
      · exact Nat.le_refl _
      · exact Nat.le_of_succ_le (ih (i + 1) e hrest)

theorem positions_pairwise : (positions ts i).Pairwise fun a b => a.1 < b.1 := by
  induction ts generalizing i with
  | nil => exact List.Pairwise.nil
  | cons o rest ih =>
    cases o with
    | none => exact ih (i + 1)
    | some t => exact List.Pairwise.cons (le_of_mem_positions rest (i + 1)) (ih (i + 1))

theorem map_snd_positions : (positions ts i).map Prod.snd = (ts.filterMap id).map Item.tensor := by
  induction ts generalizing i with
  | nil => rfl
  | cons o rest ih =>
    cases o with
    | none => exact ih (i + 1)
    | some t => exact congrArg (Item.tensor t :: ·) (ih (i + 1))

/-- The keys are the positions written out. -/
def keyed (e : ℕ × Item) : String × Item := (Nat.repr e.1, e.2)

theorem pack_items_eq (sub : OrderedDict String Item) :
    pack_items ts i sub = sub.update ((positions ts i).map keyed) := by
  induction ts generalizing i sub with
  | nil => rfl
  | cons o rest ih =>
    cases o with
    | none => exact ih (i + 1) sub
    | some t => exact ih (i + 1) _

theorem int_repr : int (Nat.repr i) = .ok i := by
  unfold int
  rw [Nat.toList_repr, Nat.ofDigitChars_toDigits (by decide) (by decide), if_pos]
  exact ⟨Nat.toDigits_ne_nil, all_eq_true.mpr fun c hc =>
    Nat.isDigit_of_mem_toDigits (by decide) (by decide) hc⟩

theorem repr_ne_marker : Nat.repr i ≠ LIST_MARKER_KEY := by
  intro heq
  have hint := int_repr i
  rw [heq] at hint
  cases hint

/-- The nested dictionary of a list. -/
def sub_dict (ts : List (Option Tensor)) : OrderedDict String Item :=
  pack_items ts 0 (OrderedDict.empty.set LIST_MARKER_KEY .true)

theorem keyed_nodup : (((positions ts i).map keyed).map Prod.fst).Nodup := by
  rw [map_map, List.Nodup, pairwise_map]
  exact (positions_pairwise ts i).imp fun h heq => Nat.ne_of_lt h
    (Except.ok.inj ((int_repr _).symm.trans ((congrArg int heq).trans (int_repr _))))

end

theorem items_sub_dict :
    (sub_dict ts).items = (LIST_MARKER_KEY, Item.true) :: (positions ts 0).map keyed := by
  unfold sub_dict
  rw [pack_items_eq, items_update_of_fresh _ _ (keyed_nodup ts 0)]
  · rfl
  · rintro p hp hmem
    obtain ⟨e, -, rfl⟩ := mem_map.mp hp
    rcases mem_keys_set.mp hmem with heq | hempty
    · exact repr_ne_marker e.1 heq
    · exact absurd hempty not_mem_nil

theorem unpack_value_list :
    unpack_value (.dict (sub_dict ts)) = .ok (.list ((ts.filterMap id).map Item.tensor)) := by
  have hmarker : (sub_dict ts).get? LIST_MARKER_KEY = some .true := by
    rw [get?_eq_some_iff, items_sub_dict]
    exact mem_cons_self
  have hfilter : (sub_dict ts).items.filter (fun kv => kv.1 ≠ LIST_MARKER_KEY)
      = (positions ts 0).map keyed := by
    rw [items_sub_dict, filter_cons_of_neg (by simp), filter_eq_self]
    intro p hp
    obtain ⟨e, -, rfl⟩ := mem_map.mp hp
    exact decide_eq_true (repr_ne_marker e.1)
  have hindexed : indexed (sub_dict ts) = .ok (positions ts 0) := by
    unfold indexed
    rw [hfilter, mapM_map]
    show List.mapM (fun e : ℕ × Item => int (Nat.repr e.1) >>= fun k => .ok (k, e.2)) _ = _
    rw [mapM_of_ok (g := id) fun e _ => ?_, map_id]
    rw [int_repr]
    rfl
  have hsorted : (positions ts 0).mergeSort (fun a b => a.1 ≤ b.1) = positions ts 0 :=
    mergeSort_of_pairwise ((positions_pairwise ts 0).imp fun h =>
      decide_eq_true (Nat.le_of_lt h))
  rw [unpack_value, hmarker]
  rw [hindexed, ok_bind, hsorted, map_snd_positions]
  rfl

end

def packed_value : Value → Packed
  | .tensor t => .tensor t
  | .list ts => .dict (sub_dict ts)

def unpacked_value : Value → Unpacked
  | .tensor t => .tensor t
  | .list ts => .list ((ts.filterMap id).map Item.tensor)

theorem unpack_packed_value (v : Value) : unpack_value (packed_value v) = .ok (unpacked_value v) := by
  cases v with
  | tensor t => rfl
  | list ts => exact unpack_value_list ts

theorem pack_broadcast_eq : ∀ (items : List (String × Option Value))
    (packed : OrderedDict String Packed), pack_broadcast items packed
      = packed.update ((present items).map fun e => (e.1, packed_value e.2)) := by
  intro items
  induction items with
  | nil =>
    intro packed
    rfl
  | cons e rest ih =>
    obtain ⟨name, v⟩ := e
    intro packed
    cases v with
    | none => exact ih packed
    | some value =>
      cases value with
      | tensor t => exact ih _
      | list ts => exact ih _

theorem unpack_broadcast_eq : ∀ (fields : List (String × Value))
    (out : OrderedDict String Unpacked),
    unpack_broadcast (fields.map fun e => (e.1, packed_value e.2)) out
      = .ok (out.update (fields.map fun e => (e.1, unpacked_value e.2))) := by
  intro fields
  induction fields with
  | nil =>
    intro out
    rfl
  | cons e rest ih =>
    intro out
    rw [map_cons, unpack_broadcast, unpack_packed_value, ok_bind, ih]
    rfl

theorem unpack_pack_broadcast (fields : Fields) :
    unpack_tensor_fields_from_broadcast (pack_tensor_fields_for_broadcast fields)
      = .ok (OrderedDict.empty.update
          ((present fields.items).map fun e => (e.1, unpacked_value e.2))) := by
  have hitems : (OrderedDict.empty.update
      ((present fields.items).map fun e => (e.1, packed_value e.2))).items
        = (present fields.items).map fun e => (e.1, packed_value e.2) := by
    apply items_ofList_of_nodup
    rw [map_map]
    exact present_nodup fields
  unfold unpack_tensor_fields_from_broadcast pack_tensor_fields_for_broadcast
  rw [pack_broadcast_eq, hitems, unpack_broadcast_eq]

/-- The unpacked value is the field, with the tensors of a list at their positions. -/
inductive Back : Value → Unpacked → Prop
  | tensor (t : Tensor) : Back (.tensor t) (.tensor t)
  | list {ts : List (Option Tensor)} {items : List Item}
      (h : ∀ (i : ℕ) (t : Tensor), ts[i]? = some (some t) ↔ items[i]? = some (Item.tensor t)) :
      Back (.list ts) (.list items)

/-- `_unpack_tensor_fields_from_broadcast` after `_pack_tensor_fields_for_broadcast` gives the fields
back. -/
def BroadcastRoundTrips (fields : Fields) : Prop :=
  ∃ out, unpack_tensor_fields_from_broadcast (pack_tensor_fields_for_broadcast fields) = .ok out ∧
    ∀ name, Option.Rel Back (fields.get? name).join (out.get? name)

/-- No list among the fields has a gap. -/
def Gapless (fields : Fields) : Prop :=
  ∀ name ts, fields.get? name = some (some (Value.list ts)) → none ∉ ts

theorem back_of_gapless (h : none ∉ ts) : Back (.list ts) (unpacked_value (.list ts)) := by
  obtain ⟨us, rfl⟩ := TransferBuffer.exists_map_some h
  refine .list fun i t => ?_
  rw [filterMap_map, Function.id_comp, filterMap_some, getElem?_map,
    getElem?_map, Option.map_eq_some_iff, Option.map_eq_some_iff]
  constructor
  · rintro ⟨u, hu, heq⟩
    exact ⟨u, hu, by rw [Option.some.inj heq]⟩
  · rintro ⟨u, hu, heq⟩
    exact ⟨u, hu, by rw [Item.tensor.inj heq]⟩

theorem gapless_of_back (hend : EndsWithTensor ts) (h : Back (.list ts) (unpacked_value (.list ts))) :
    none ∉ ts := by
  intro hgap
  obtain ⟨t, hlast⟩ := hend
  cases h with
  | list hpos =>
    rw [getLast?_eq_getElem?] at hlast
    have hback := (hpos _ t).mp hlast
    obtain ⟨hlt, -⟩ := List.getElem?_eq_some_iff.mp hback
    have hfewer : (ts.filterMap id).length < ts.length := by
      rw [length_filterMap_lt_length_iff_exists]
      exact ⟨none, hgap, rfl⟩
    rw [length_map] at hlt
    omega

theorem broadcast_round_trips_iff (fields : Fields) (hend : AllEnd (present fields.items)) :
    BroadcastRoundTrips fields ↔ Gapless fields := by
  have hget : ∀ name, (OrderedDict.empty.update
      ((present fields.items).map fun e => (e.1, unpacked_value e.2))).get? name
        = (fields.get? name).join.map unpacked_value :=
    fun name => get?_assigned unpacked_value fun _ => rfl
  unfold BroadcastRoundTrips
  rw [unpack_pack_broadcast]
  constructor
  · rintro ⟨out, hout, hback⟩ name ts hfield
    rw [← Except.ok.inj hout] at hback
    have hname := hback name
    rw [hget, hfield] at hname
    cases hname with
    | some h =>
      exact gapless_of_back (hend name ts (present_of_join (by rw [hfield]; rfl))) h
  · intro hgap
    refine ⟨_, rfl, fun name => ?_⟩
    rw [hget]
    cases hfield : (fields.get? name).join with
    | none => exact .none
    | some v =>
      cases v with
      | tensor t => exact .some (.tensor t)
      | list ts =>
        exact .some (back_of_gapless (hgap name ts (Option.join_eq_some_iff.mp hfield)))

/-! ## 6. Both encodings -/

/-- **Fields whose lists end with a tensor come back from the message, and from both encodings
exactly when no list has a gap.** -/
theorem codecs_round_trip_iff (fields : Fields) (scalars : OrderedDict String Json)
    (hend : ∀ name ts, fields.get? name = some (some (.list ts)) → EndsWithTensor ts) :
    MessageRoundTrips fields scalars ∧
    (MessageRoundTrips fields scalars ∧ BroadcastRoundTrips fields ↔ Gapless fields) := by
  have hall : AllEnd (present fields.items) := fun name ts hmem =>
    hend name ts (get?_eq_some_iff.mpr (mem_present.mp hmem))
  have hmessage := message_round_trips fields scalars hall
  exact ⟨hmessage, (and_iff_right hmessage).trans (broadcast_round_trips_iff fields hall)⟩

def byte (b : UInt8) : Tensor := { TransferBuffer.zero_bytes 1 with data := [b], full := rfl }

def one_list (ts : List (Option Tensor)) : Fields where
  items := [("prompt_embeds", some (.list ts))]
  nodup := nodup_singleton _

theorem one_list_ends (ts : List (Option Tensor)) (h : EndsWithTensor ts) (name : String)
    (us : List (Option Tensor)) (hfield : (one_list ts).get? name = some (some (.list us))) :
    EndsWithTensor us := by
  obtain ⟨-, heq⟩ := Prod.mk.inj (mem_singleton.mp (get?_eq_some_iff.mp hfield))
  obtain rfl := Value.list.inj (Option.some.inj heq)
  exact h

theorem two_bytes_round_trip : MessageRoundTrips (one_list [some (byte 1), some (byte 2)]) .empty ∧
    BroadcastRoundTrips (one_list [some (byte 1), some (byte 2)]) := by
  refine (codecs_round_trip_iff _ _ (one_list_ends _ ⟨byte 2, rfl⟩)).2.mpr ?_
  intro name ts hfield
  obtain ⟨-, heq⟩ := Prod.mk.inj (mem_singleton.mp (get?_eq_some_iff.mp hfield))
  obtain rfl := Value.list.inj (Option.some.inj heq)
  intro hnone
  simp at hnone

/-- **A gap closes**: of a tensor, a `None` and a tensor, which the message keeps apart, the
broadcast gives two tensors in a row back. -/
theorem gap_closed : MessageRoundTrips (one_list [some (byte 1), none, some (byte 2)]) .empty ∧
    ¬ BroadcastRoundTrips (one_list [some (byte 1), none, some (byte 2)]) := by
  have hend : AllEnd (present (one_list [some (byte 1), none, some (byte 2)]).items) :=
    fun name ts hmem => one_list_ends _ ⟨byte 2, rfl⟩ name ts
      (get?_eq_some_iff.mpr (mem_present.mp hmem))
  refine ⟨message_round_trips _ _ hend, fun hback => ?_⟩
  have hgap := (broadcast_round_trips_iff _ hend).mp hback
  exact hgap "prompt_embeds" _ rfl (mem_cons_of_mem _ mem_cons_self)

end LightningH3.TensorCodec
