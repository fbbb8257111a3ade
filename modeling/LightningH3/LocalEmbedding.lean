/-
The rows of one sequence-parallel rank and their embeddings: `_build_local_embedding_layout`
and the local slices of `MiniMaxH3DenoiseBranch`, the row ranges of `forward` and
`build_rope_cache`, and `_embed` with both of its paths.

Four places compute the rank's rows. `forward` and `build_rope_cache` count ring chunks
first and Ulysses slices inside them; the branch combines the two ranks into one, and the
layout takes that one.

A hidden row is one value, of a type in which adding to zero changes nothing (bf16 up to
the sign of a zero). The layers are functions of a row, except for the text refiner, which
sees all text rows at once. Memory that was never written has any content.
-/
import LightningH3.PackedSequence

set_option autoImplicit false

namespace LightningH3.LocalEmbedding

open IndexOps

/-! ## Process groups -/

/-- `list(range(first, stop, step))`. -/
def py_range (first stop step : ℕ) : List ℕ :=
  List.range' first ((stop - first + step - 1) / step) step

/-- The Ulysses groups of one sequence-parallel group, by index in that group. -/
def ulysses_groups (ulysses_degree ring_degree : ℕ) : List (List ℕ) :=
  (List.range ring_degree).map (fun i =>
    py_range (i * ulysses_degree) ((i + 1) * ulysses_degree) 1)

def ring_groups (ulysses_degree ring_degree : ℕ) : List (List ℕ) :=
  (List.range ulysses_degree).map (fun i =>
    py_range i (ring_degree * ulysses_degree) ulysses_degree)

/-- The group a rank ends up in: the last one listed that has it. -/
def group_of (groups : List (List ℕ)) (rank : ℕ) : List ℕ :=
  groups.foldl (fun found group => if rank ∈ group then group else found) []

/-- What `get_ulysses_ctx` and `get_ring_ctx` report on a rank. -/
structure SpCtx where
  ulysses_world_size : ℕ
  ulysses_rank : ℕ
  ring_world_size : ℕ
  ring_rank : ℕ
  deriving DecidableEq

/-- The contexts after `set_seq_parallel_pg_by_sp_groups`, with Ulysses low as by default. -/
def sp_ctx (ulysses_degree ring_degree rank : ℕ) : SpCtx :=
  let ulysses := group_of (ulysses_groups ulysses_degree ring_degree) rank
  let ring := group_of (ring_groups ulysses_degree ring_degree) rank
  { ulysses_world_size := ulysses.length
    ulysses_rank := ulysses.idxOf rank
    ring_world_size := ring.length
    ring_rank := ring.idxOf rank }

/-! ## Row ranges -/

/-- What the embedding code raises: one of its own messages, or the library's complaint
about an index or a shape. -/
inductive EmbedError where
  | value_error (message : String)
  | index_error
  | shape_error
  deriving DecidableEq

/-- The branch's combined rank. -/
def SpCtx.sp_rank (ctx : SpCtx) : ℕ := ctx.ring_rank * ctx.ulysses_world_size + ctx.ulysses_rank

def SpCtx.sp_world_size (ctx : SpCtx) : ℕ := ctx.ulysses_world_size * ctx.ring_world_size

/-- `local_row_slice` of the branch. -/
def local_row_slice (seq_len : ℕ) (ctx : SpCtx) : ℕ × ℕ :=
  let local_seq_len := seq_len / ctx.sp_world_size
  let local_row_start := ctx.sp_rank * local_seq_len
  (local_row_start, local_row_start + local_seq_len)

/-- The rows of `_build_local_embedding_layout`. -/
def layout_rows (seq_len world_size rank : ℕ) : Except EmbedError (ℕ × ℕ) :=
  if seq_len % world_size ≠ 0 then
    .error (.value_error ("packed seq_len " ++ toString seq_len ++ " not divisible by the combined "
      ++ "sequence-parallel world size " ++ toString world_size))
  else
    let local_seq_len := seq_len / world_size
    let row_start := rank * local_seq_len
    .ok (row_start, row_start + local_seq_len)

/-- The message of `forward` and `build_rope_cache` for a sequence that does not divide. -/
def indivisible (seq_len : ℕ) (ctx : SpCtx) : EmbedError :=
  .value_error ("packed seq_len " ++ toString seq_len ++ " not divisible by the combined "
    ++ "sequence-parallel world size " ++ toString ctx.sp_world_size ++ " (ulysses="
    ++ toString ctx.ulysses_world_size ++ " x ring=" ++ toString ctx.ring_world_size ++ ")")

/-- Ring chunks, and Ulysses slices inside them. -/
def chunked_rows (local_seq_len : ℕ) (ctx : SpCtx) : ℕ × ℕ :=
  let ring_chunk_len := local_seq_len * ctx.ulysses_world_size
  let row_start := ctx.ring_rank * ring_chunk_len + ctx.ulysses_rank * local_seq_len
  (row_start, row_start + local_seq_len)

/-- The rows of `build_rope_cache`. -/
def rope_rows (seq_len : ℕ) (ctx : SpCtx) : Except EmbedError (ℕ × ℕ) :=
  if seq_len % ctx.sp_world_size ≠ 0 then .error (indivisible seq_len ctx)
  else .ok (chunked_rows (seq_len / ctx.sp_world_size) ctx)

/-- The attention heads of the model and the tensor-parallel degree. -/
structure Heads where
  num_attention_heads : ℕ
  tp_world_size : ℕ

/-- The rows of `forward`. Its checks are made only when there is more than one rank. -/
def forward_rows (seq_len : ℕ) (heads : Heads) (ctx : SpCtx) : Except EmbedError (ℕ × ℕ) :=
  if 1 < ctx.sp_world_size then
    if seq_len % ctx.sp_world_size ≠ 0 then .error (indivisible seq_len ctx)
    else
      let local_heads := heads.num_attention_heads / heads.tp_world_size
      if local_heads % ctx.ulysses_world_size ≠ 0 then
        .error (.value_error ("TP-local heads " ++ toString local_heads ++ " not divisible by "
          ++ "Ulysses world size " ++ toString ctx.ulysses_world_size ++ " (total heads="
          ++ toString heads.num_attention_heads ++ ", TP=" ++ toString heads.tp_world_size ++ ")"))
      else .ok (chunked_rows (seq_len / ctx.sp_world_size) ctx)
  else .ok (chunked_rows seq_len ctx)

/-! ## The local layout -/

/-- What `_build_local_embedding_layout` returns. -/
structure LocalLayout where
  text_source_start : ℕ
  text_source_stop : ℕ
  img_global_ids : List ℕ
  img_row_ids : List ℕ
  audio_global_ids : List ℕ
  audio_row_ids : List ℕ
  deriving DecidableEq

/-- The rows of a list that lie in a range. -/
def local_ids (pos : List ℕ) (rows : ℕ × ℕ) : List ℕ :=
  pos.filter (fun row => decide (rows.1 ≤ row) && decide (row < rows.2))

def layout_of_rows (text_pos img_pos audio_pos : List ℕ) (rows : ℕ × ℕ) : LocalLayout where
  text_source_start := min rows.1 text_pos.length
  text_source_stop := min rows.2 text_pos.length
  img_global_ids := local_ids img_pos rows
  img_row_ids := (local_ids img_pos rows).map (· - rows.1)
  audio_global_ids := local_ids audio_pos rows
  audio_row_ids := (local_ids audio_pos rows).map (· - rows.1)

def build_local_embedding_layout (seq_len : ℕ) (text_pos img_pos audio_pos : List ℕ)
    (world_size rank : ℕ) : Except EmbedError LocalLayout := do
  let rows ← layout_rows seq_len world_size rank
  .ok (layout_of_rows text_pos img_pos audio_pos rows)

/-! ## Embedding -/

section Embed

variable {T V A H : Type}

/-- The layers `_embed` applies: the condition projection with the text refiner, which keeps
the number of rows, and the two patch projections. -/
structure Layers (T V A H : Type) where
  refine_text : List T → List H
  length_refine_text : ∀ rows, (refine_text rows).length = rows.length
  video_patch_proj : V → H
  audio_patch_proj : A → H
  hidden_size : ℕ

/-- The text rows: prompt embeddings with the refiner's live length, or embeddings refined
before, with their width and live length. -/
inductive Prompt (T H : Type) where
  | raw (rows : List T) (refiner_length : ℤ)
  | refined (rows : List H) (width : ℕ) (length : ℤ)

def Prompt.num_rows : Prompt T H → ℕ
  | .raw rows _ => rows.length
  | .refined rows _ _ => rows.length

/-- The live text length. -/
def Prompt.text_len : Prompt T H → ℤ
  | .raw _ refiner_length => refiner_length
  | .refined _ _ length => length

/-- The tensors `_embed` reads. -/
structure EmbedInput (T V A H : Type) where
  x : List V
  audio_x : List A
  prompt : Prompt T H
  img_pos : List ℕ
  audio_pos : List ℕ
  text_pos : List ℕ

/-- `refine_prompt_embeds`, or the embeddings refined before. -/
def text_embed (layers : Layers T V A H) (prompt : Prompt T H) : Except EmbedError (List H) :=
  if prompt.text_len ≤ 0 ∨ prompt.text_len > prompt.num_rows then
    .error (.value_error ("refiner cu_seqlens live text length must be in [1, "
      ++ toString prompt.num_rows ++ "], got " ++ toString prompt.text_len))
  else
    match prompt with
    | .raw rows refiner_length => .ok (layers.refine_text (rows.take refiner_length.toNat))
    | .refined rows width length =>
      if width ≠ layers.hidden_size then
        .error (.value_error ("refined prompt embeddings must have hidden width "
          ++ toString layers.hidden_size ++ ", got " ++ toString width))
      else .ok (rows.take length.toNat)

/-- `xs.index_select(0, ids)`. -/
def select_rows {α : Type} (xs : List α) (ids : List ℕ) : Except EmbedError (List α) :=
  match ids.mapM (fun i => xs[i]?) with
  | none => .error .index_error
  | some rows => .ok rows

/-- The writes of one modality: rows selected, projected, and paired with where they go. -/
def modality_writes {α : Type} (project : α → H) (source : List α) (global_ids row_ids : List ℕ) :
    Except EmbedError (List (ℕ × H)) :=
  if row_ids = [] then .ok []
  else do
    let rows ← select_rows source global_ids
    if rows.length ≠ row_ids.length then .error .shape_error
    else .ok (row_ids.zip (rows.map project))

/-- `embeddings[:count].copy_(rows)`; one row is broadcast. -/
def front_writes (count : ℕ) (rows : List H) : Except EmbedError (List (ℕ × H)) :=
  if rows.length = count then .ok ((List.range count).zip rows)
  else
    match rows with
    | [row] => .ok ((List.range count).map (fun k => (k, row)))
    | _ => .error .shape_error

def trusted_text_writes (layout : LocalLayout) (text : List H) :
    Except EmbedError (List (ℕ × H)) :=
  let text_rows := layout.text_source_stop - layout.text_source_start
  if text_rows = 0 then .ok []
  else front_writes text_rows
    ((text.take layout.text_source_stop).drop layout.text_source_start)

def untrusted_text_writes (text_pos : List ℕ) (rows : ℕ × ℕ) (text : List H) :
    Except EmbedError (List (ℕ × H)) :=
  let text_source_ids := (List.range text_pos.length).filter (fun i =>
    decide (rows.1 ≤ text_pos.getD i 0) && decide (text_pos.getD i 0 < rows.2))
  let text_row_ids := text_source_ids.map (fun i => text_pos.getD i 0 - rows.1)
  modality_writes id text text_source_ids text_row_ids

/-- Every write of the trusted path, in order. -/
def trusted_writes (layers : Layers T V A H) (input : EmbedInput T V A H) (layout : LocalLayout)
    (text : List H) : Except EmbedError (List (ℕ × H)) := do
  let text_writes ← trusted_text_writes layout text
  let img_writes ← modality_writes layers.video_patch_proj input.x layout.img_global_ids
    layout.img_row_ids
  let audio_writes ← modality_writes layers.audio_patch_proj input.audio_x layout.audio_global_ids
    layout.audio_row_ids
  .ok (text_writes ++ img_writes ++ audio_writes)

/-- Every write of the untrusted path, in order. -/
def untrusted_writes (layers : Layers T V A H) (input : EmbedInput T V A H) (rows : ℕ × ℕ)
    (text : List H) : Except EmbedError (List (ℕ × H)) := do
  let text_writes ← untrusted_text_writes
    (input.text_pos.take input.prompt.text_len.toNat) rows text
  let img_global_ids := local_ids input.img_pos rows
  let img_writes ← modality_writes layers.video_patch_proj input.x img_global_ids
    (img_global_ids.map (· - rows.1))
  let audio_global_ids := local_ids input.audio_pos rows
  let audio_writes ← modality_writes layers.audio_patch_proj input.audio_x audio_global_ids
    (audio_global_ids.map (· - rows.1))
  .ok (text_writes ++ img_writes ++ audio_writes)

/-- The live rows of the trusted path: the rest is zeroed. -/
def local_live_rows (input : EmbedInput T V A H) (rows : ℕ × ℕ) : ℕ :=
  min (input.prompt.text_len.toNat + input.img_pos.length + input.audio_pos.length - rows.1)
    (rows.2 - rows.1)

/-- The rows the trusted path zeroes. -/
def zeroed_rows (input : EmbedInput T V A H) (rows : ℕ × ℕ) : List ℕ :=
  List.range' (local_live_rows input rows) (rows.2 - rows.1 - local_live_rows input rows)

/-- `embeddings.index_copy_`, write by write. -/
def copy_rows (embeddings : List H) (writes : List (ℕ × H)) : Except EmbedError (List H) :=
  if writes.any (fun w => decide (embeddings.length ≤ w.1)) then .error .index_error
  else .ok (scatter embeddings (writes.map Prod.fst) (writes.map Prod.snd))

/-- `embeddings.index_add_`, write by write. -/
def add_rows [Add H] (embeddings : List H) (writes : List (ℕ × H)) :
    Except EmbedError (List H) :=
  if writes.any (fun w => decide (embeddings.length ≤ w.1)) then .error .index_error
  else .ok (scatter_add embeddings (writes.map Prod.fst) (writes.map Prod.snd))

/-- `_embed`, without the time embedding. -/
def embed [AddZeroClass H] (layers : Layers T V A H) (input : EmbedInput T V A H) (rows : ℕ × ℕ)
    (local_embedding_layout : Option LocalLayout) (uninitialized : ℕ → H) :
    Except EmbedError (List H) := do
  let text ← text_embed layers input.prompt
  let local_seq_len := rows.2 - rows.1
  match local_embedding_layout with
  | some layout =>
    let writes ← trusted_writes layers input layout text
    let embeddings := scatter ((List.range local_seq_len).map uninitialized)
      (zeroed_rows input rows) ((zeroed_rows input rows).map (fun _ => 0))
    copy_rows embeddings writes
  | none =>
    let writes ← untrusted_writes layers input rows text
    add_rows ((List.range local_seq_len).map (fun _ => 0)) writes

end Embed

end LightningH3.LocalEmbedding
