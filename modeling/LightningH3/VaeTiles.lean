/-
Tiled coding of the visual VAE.

A canvas that is larger than a tile is cut into overlapping tiles, the tiles are coded, and
the coded tiles are put together: each one fades in from the tile above and from the tile to
the left over the overlap, is cropped where the next tile begins and is written into the
output. With tile parallelism every rank codes every `world_size`-th tile and the results are
gathered.

The last two axes of a tensor are modelled, and the batch axis: a plane is one batch entry,
its values are vectors of what the other axes hold, over a field of weights.
-/
import Mathlib.Algebra.Module.Basic
import LightningH3.LocalEmbedding

set_option autoImplicit false

namespace LightningH3.VaeTiles

/-! ## Splitting an axis -/

/-- `split_tiles`: where the tiles begin, how long they are, and the overlap of each with the
next. -/
structure Tiling where
  tile_start_idx : List ℕ
  tile_len : List ℕ
  overlaps : List ℕ
deriving DecidableEq, Repr

/-- What `N` tiles with the minimal overlaps cover beyond the axis. -/
def remaining (tile_size tile_overlap_min input_len N : ℕ) : ℤ :=
  (tile_size * N : ℤ) - ((List.replicate (N - 1) tile_overlap_min).sum : ℕ) - input_len

/-- The `while` loop: one tile more until they reach. -/
def tile_count (tile_size tile_overlap_min input_len : ℕ) : ℕ → ℕ → Option ℕ
  | 0, _ => none
  | fuel + 1, N =>
    if remaining tile_size tile_overlap_min input_len N < 0 then
      tile_count tile_size tile_overlap_min input_len fuel (N + 1)
    else some N

/-- The loop that hands out what is left over, one ratio at a time. -/
def spread (vae_ratio remaining_units : ℕ) (overlaps : List ℕ) : List ℕ :=
  (List.range remaining_units).foldl
    (fun overlaps i => overlaps.modify (i % overlaps.length) (· + vae_ratio)) overlaps

def place_tiles (tile_size : ℕ) (overlaps : List ℕ) : List ℕ :=
  overlaps.foldl (fun starts overlap => starts ++ [starts.getLastD 0 + tile_size - overlap]) [0]

/-- `split_tiles`; `none` where the loop has not ended after `input_len` rounds. The first
number of tiles is `math.ceil(input_len / tile_size)`. -/
def split_tiles (vae_ratio tile_size tile_overlap_min input_len : ℕ) : Option Tiling :=
  if tile_size ≥ input_len then some ⟨[0], [input_len], []⟩
  else do
    let N ← tile_count tile_size tile_overlap_min input_len (input_len + 1)
      ((input_len + tile_size - 1) / tile_size)
    let remaining_units := (remaining tile_size tile_overlap_min input_len N / vae_ratio).toNat
    let overlaps := spread vae_ratio remaining_units (List.replicate (N - 1) tile_overlap_min)
    pure ⟨place_tiles tile_size overlaps, List.replicate N tile_size, overlaps⟩

/-! ## Planes -/

/-- One batch entry of a tensor. -/
structure Plane (E : Type) where
  height : ℕ
  width : ℕ
  get : ℕ → ℕ → E

namespace Plane

variable {E : Type}

/-- `x[..., y : y + h, x : x + w]`. -/
def slice (p : Plane E) (y h x w : ℕ) : Plane E where
  height := min (y + h) p.height - min y p.height
  width := min (x + w) p.width - min x p.width
  get i j := p.get (y + i) (x + j)

def transpose (p : Plane E) : Plane E := ⟨p.width, p.height, fun y x => p.get x y⟩

variable (K : Type) [Field K] [AddCommGroup E] [Module K E]

/-- The plane of no rows. -/
def empty : Plane E := ⟨0, 0, fun _ _ => 0⟩

/-- `blend(a, b, blend_extent, dim=-2)`: the last rows of `a` fade into the first ones of
`b`. -/
def blend_y (a b : Plane E) (blend_extent : ℕ) : Plane E :=
  let n := min (min a.height b.height) blend_extent
  { height := b.height
    width := b.width
    get := fun y x =>
      if y < n then
        ((1 : K) - (y : K) / (n : K)) • a.get (a.height - n + y) x + ((y : K) / (n : K)) • b.get y x
      else b.get y x }

/-- `blend(a, b, blend_extent, dim=-1)`. -/
def blend_x (a b : Plane E) (blend_extent : ℕ) : Plane E :=
  (blend_y K a.transpose b.transpose blend_extent).transpose

end Plane

/-! ## Assembling -/

variable {E : Type}

/-- The output tensor with what was written at each place, first write first. -/
structure Canvas (E : Type) where
  height : ℕ
  width : ℕ
  log : ℕ → ℕ → List E

/-- `output[..., y : y + h, x : x + w].copy_(tile)`. -/
def Canvas.write (c : Canvas E) (y_offset x_offset : ℕ) (tile : Plane E) : Canvas E where
  height := c.height
  width := c.width
  log y x :=
    if (y_offset ≤ y ∧ y < y_offset + tile.height) ∧ x_offset ≤ x ∧ x < x_offset + tile.width then
      c.log y x ++ [tile.get (y - y_offset) (x - x_offset)]
    else c.log y x

section Assemble

variable (K : Type) [Field K] [AddCommGroup E] [Module K E]

/-- `rows[i][j]`. -/
def tile_at (rows : List (List (Plane E))) (i j : ℕ) : Plane E := (rows.getD i []).getD j Plane.empty

/-- What the size of the output leaves out of tile `i` of an axis: the overlap with the next
one. -/
def crop_at (count : ℕ) (overlaps : List ℕ) (i : ℕ) : ℕ :=
  if i < count - 1 then overlaps.getD i 0 else 0

/-- The length of `x[:-overlap]`; nothing is left of `x[:-0]`. -/
def length_without (n overlap : ℕ) : ℕ := if overlap = 0 then 0 else n - overlap

/-- Tile `(i, j)` as it is written: blended from above, then from the left, then cropped. -/
def blended_tile (rows : List (List (Plane E))) (y_overlap x_overlap : List ℕ) (i j : ℕ) : Plane E :=
  let row := rows.getD i []
  let tile := tile_at rows i j
  let tile := if i > 0 then (tile_at rows (i - 1) j).blend_y K tile (y_overlap.getD (i - 1) 0)
    else tile
  let tile := if j > 0 then (tile_at rows i (j - 1)).blend_x K tile (x_overlap.getD (j - 1) 0)
    else tile
  { height :=
      if i < rows.length - 1 then length_without tile.height (y_overlap.getD i 0) else tile.height
    width :=
      if j < row.length - 1 then length_without tile.width (x_overlap.getD j 0) else tile.width
    get := tile.get }

/-- One tile of the inner loop. -/
def assemble_tile (rows : List (List (Plane E))) (y_overlap x_overlap : List ℕ) (y_offset i : ℕ)
    (st : ℕ × Canvas E) (j : ℕ) : ℕ × Canvas E :=
  let tile := blended_tile K rows y_overlap x_overlap i j
  (st.1 + tile.width, st.2.write y_offset st.1 tile)

/-- One row of the outer loop. -/
def assemble_row (rows : List (List (Plane E))) (y_overlap x_overlap : List ℕ)
    (st : ℕ × Canvas E) (i : ℕ) : ℕ × Canvas E :=
  let row_height := (tile_at rows i 0).height - crop_at rows.length y_overlap i
  let inner := (List.range (rows.getD i []).length).foldl
    (assemble_tile K rows y_overlap x_overlap st.1 i) (0, st.2)
  (st.1 + row_height, inner.2)

def assemble_tiles (rows : List (List (Plane E))) (y_overlap x_overlap : List ℕ) : Canvas E :=
  let output_height := ((List.range rows.length).map (fun i =>
    (tile_at rows i 0).height - crop_at rows.length y_overlap i)).sum
  let output_width := ((List.range (rows.getD 0 []).length).map (fun j =>
    (tile_at rows 0 j).width - crop_at (rows.getD 0 []).length x_overlap j)).sum
  ((List.range rows.length).foldl (assemble_row K rows y_overlap x_overlap)
    (0, ⟨output_height, output_width, fun _ _ => []⟩)).2

end Assemble

/-! ## Coding the tiles -/

/-- The failures of the gather. -/
inductive TileError where
  | value_error (message : String)
  /-- The loop of `split_tiles` has not ended. -/
  | no_tiling
deriving DecidableEq, Repr

def local_tile_indices (num_tiles tile_rank tile_world_size : ℕ) : List ℕ :=
  LocalEmbedding.py_range tile_rank num_tiles tile_world_size

section Code

variable {A B : Type}

/-- `_run_tile_tasks`: a tile is the list of its batch entries. Stacked tiles go through the
coder in one batch. -/
def run_tile_tasks (tiles : List (List A)) (tile_indices : List ℕ) (forward_fn : List A → List B)
    (stack_tiling : Bool) : List (List B) :=
  if stack_tiling && !tile_indices.isEmpty then
    let sample_batch_size := (tiles.getD 0 []).length
    let tile_batch := tile_indices.flatMap (fun idx => tiles.getD idx [])
    let output_batch := forward_fn tile_batch
    (List.range tile_indices.length).map
      (fun k => (output_batch.drop (k * sample_batch_size)).take sample_batch_size)
  else tile_indices.map (fun idx => forward_fn (tiles.getD idx []))

/-- `(num_tiles - rank + world_size - 1) // world_size`, the number of tiles of a rank. -/
def expected_tasks (num_tiles tile_rank tile_world_size : ℕ) : ℤ :=
  ((num_tiles : ℤ) - tile_rank + tile_world_size - 1) / tile_world_size

/-- What a rank puts into the gather: its results, padded to the common count. -/
def stacked_tasks (num_tiles tile_world_size : ℕ) (zero : B) (tasks : List B) : List B :=
  let max_tasks := (num_tiles + tile_world_size - 1) / tile_world_size
  tasks ++ List.replicate (max_tasks - tasks.length) zero

/-- `_all_gather_tiled_results` on `tile_rank`, with the results of every rank. -/
def all_gather_tiled_results (num_tiles tile_rank tile_world_size : ℕ) (zero : B)
    (tasks : ℕ → List B) : Except TileError (List (Option B)) :=
  if (tasks tile_rank).isEmpty then
    .error (.value_error s!"Found empty tasks on tile rank {tile_rank}")
  else if ((tasks tile_rank).length : ℤ) ≠ expected_tasks num_tiles tile_rank tile_world_size then
    .error (.value_error (s!"Expected {expected_tasks num_tiles tile_rank tile_world_size} tiled "
      ++ s!"tasks on rank {tile_rank}, got {(tasks tile_rank).length} for num_tiles={num_tiles}, "
      ++ s!"world_size={tile_world_size}"))
  else
    .ok ((List.range tile_world_size).foldl (fun results rank =>
      (List.range (expected_tasks num_tiles rank tile_world_size).toNat).foldl
        (fun results k => results.set (k * tile_world_size + rank)
          (stacked_tasks num_tiles tile_world_size zero (tasks rank))[k]?) results)
      (List.replicate num_tiles none))

/-- The rank and the number of ranks that a canvas of `num_tiles` tiles is coded with: small
canvases are coded by every rank alone. -/
def tile_parallel_state (parallel_tiling : Bool) (rank world_size num_tiles : ℕ) : ℕ × ℕ :=
  let state := if parallel_tiling then (rank, world_size) else (0, 1)
  if state.2 > num_tiles then (0, 1) else state

/-- The coded tiles of a rank, in the order of the tiles. -/
def code_tiles (parallel_tiling stack_tiling : Bool) (rank world_size : ℕ) (zero : List B)
    (forward_fn : List A → List B) (tiles : List (List A)) :
    Except TileError (List (Option (List B))) :=
  let num_tiles := tiles.length
  let state := tile_parallel_state parallel_tiling rank world_size num_tiles
  let tasks := fun tile_rank =>
    run_tile_tasks tiles (local_tile_indices num_tiles tile_rank state.2) forward_fn stack_tiling
  if state.2 > 1 then all_gather_tiled_results num_tiles state.1 state.2 zero tasks
  else .ok ((tasks state.1).map some)

end Code

/-! ## Tiled encoding and decoding -/

structure Settings where
  vae_ratio : ℕ
  tile_size : ℕ
  tile_overlap_min : ℕ
  decoder_tile_size : ℕ
  decoder_tile_overlap_min : ℕ
  parallel_tiling : Bool
  stack_tiling : Bool

variable {A : Type}

/-- The tiles of a batch, row by row. The positions are divided by `unit`. -/
def cut_tiles (unit : ℕ) (y x : Tiling) (batch : List (Plane A)) : List (List (Plane A)) :=
  (y.tile_start_idx.zip y.tile_len).flatMap (fun row =>
    (x.tile_start_idx.zip x.tile_len).map (fun col =>
      batch.map (fun p => p.slice (row.1 / unit) (row.2 / unit) (col.1 / unit) (col.2 / unit))))

/-- `rows[idx // j_max][idx % j_max]`, for one batch entry. -/
def tile_rows [AddCommGroup E] (i_max j_max : ℕ) (coded : List (Option (List (Plane E)))) (b : ℕ) :
    List (List (Plane E)) :=
  (List.range i_max).map (fun i => (List.range j_max).map (fun j =>
    (((coded[i * j_max + j]?).join.getD []).getD b Plane.empty)))

section Tiled

variable (K : Type) [Field K] [AddCommGroup E] [Module K E]

/-- The rows of coded tiles that a rank assembles, for each batch entry. -/
def coded_rows (s : Settings) (unit rank world_size : ℕ) (y x : Tiling)
    (forward_fn : List (Plane A) → List (Plane E)) (zero : List (Plane E)) (batch : List (Plane A)) :
    Except TileError (List (List (List (Plane E)))) := do
  let coded ← code_tiles s.parallel_tiling s.stack_tiling rank world_size zero forward_fn
    (cut_tiles unit y x batch)
  pure ((List.range batch.length).map
    (tile_rows y.tile_start_idx.length x.tile_start_idx.length coded))

/-- `tiled_encode` on a rank. -/
def tiled_encode (s : Settings) (rank world_size : ℕ) (encode : List (Plane A) → List (Plane E))
    (zero : List (Plane E)) (height width : ℕ) (batch : List (Plane A)) :
    Except TileError (List (Canvas E)) :=
  match split_tiles s.vae_ratio s.tile_size s.tile_overlap_min height,
    split_tiles s.vae_ratio s.tile_size s.tile_overlap_min width with
  | some y, some x => do
      let rows ← coded_rows s 1 rank world_size y x encode zero batch
      pure (rows.map (fun rows => assemble_tiles K rows (y.overlaps.map (· / s.vae_ratio))
        (x.overlaps.map (· / s.vae_ratio))))
  | _, _ => .error .no_tiling

/-- `tiled_decode` on a rank; the sizes are those of the latent canvas. -/
def tiled_decode (s : Settings) (rank world_size : ℕ) (decode : List (Plane A) → List (Plane E))
    (zero : List (Plane E)) (height width : ℕ) (batch : List (Plane A)) :
    Except TileError (List (Canvas E)) :=
  match split_tiles s.vae_ratio s.decoder_tile_size s.decoder_tile_overlap_min (height * s.vae_ratio),
    split_tiles s.vae_ratio s.decoder_tile_size s.decoder_tile_overlap_min (width * s.vae_ratio) with
  | some y, some x => do
      let rows ← coded_rows s s.vae_ratio rank world_size y x decode zero batch
      pure (rows.map (fun rows => assemble_tiles K rows y.overlaps x.overlaps))
  | _, _ => .error .no_tiling

end Tiled

end LightningH3.VaeTiles
