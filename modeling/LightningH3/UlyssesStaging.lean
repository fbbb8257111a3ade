/-
The memory of a rank around a Ulysses collective: `_a2a_staging_buffer` of `usp.py`, and what
`contiguous()` leaves in it.

A result of an exchange is a handle: a storage and the view of it that the caller holds. A
staging buffer is one storage per role, reused as long as it is large enough, so a handle
into it reads what the last collective of the role received. `contiguous()` copies out of the
buffer only when the permuted view is not contiguous already.
-/
import LightningH3.Lib.Tensor

set_option autoImplicit false

namespace LightningH3.Ulysses

open Tensors

variable {α : Type}

/-- What the exchanges ask about the process and its operands; every rank of the group is in
the same state. -/
structure Env where
  world_size : ℕ
  /-- the operands are on a CUDA device -/
  is_cuda : Bool
  /-- their dtype is `float16` or `bfloat16` -/
  half : Bool
  /-- `usp_merge_heads` has a CUDA kernel for this platform and dtype -/
  merge_kernel : Bool
  compiling : Bool
  grad_enabled : Bool
  /-- the current stream is capturing a CUDA graph -/
  capturing : Bool
  /-- the two-rank transport is ready and has its staging pair -/
  ipc : Bool
  deriving DecidableEq

/-- `_a2a_staging_buffer` hands out a cached buffer. -/
def Env.staging (env : Env) : Bool :=
  !(env.grad_enabled || env.compiling || !env.is_cuda || env.capturing)

inductive Role where
  | usp_input
  | usp_output
  | usp_packed_qkv_src
  | usp_packed_qkv_recv
  deriving DecidableEq

/-- The memory of a rank. The entries of a storage that nobody wrote, of an unused staging
slot of the two-rank transport, and of a buffer after a fault are arbitrary. -/
structure Memory (α : Type) where
  /-- the storages below are in use -/
  next : ℕ
  cells : ℕ → ℕ → α
  /-- `_A2A_STAGING_BUFFERS`: the storage of a role and its number of elements -/
  cache : Role → Option (ℕ × ℕ)
  stale : ℕ → α
  fault : ℕ → α
  cache_lt : ∀ role storage numel, cache role = some (storage, numel) → storage < next

/-- A view that a caller holds. -/
structure Handle (α : Type) where
  storage : ℕ
  view : (ℕ → α) → Tensor α

namespace Memory

def read (m : Memory α) (h : Handle α) : Tensor α := h.view (m.cells h.storage)

def empty (m : Memory α) : ℕ × Memory α :=
  (m.next, { m with
    next := m.next + 1
    cache_lt := fun role storage numel h =>
      Nat.lt_succ_of_lt (m.cache_lt role storage numel h) })

/-- The first entries of a storage are overwritten. -/
def write (m : Memory α) (storage numel : ℕ) (data : ℕ → α) : Memory α :=
  { m with
    cells := fun id k => if id = storage ∧ k < numel then data k else m.cells id k }

/-- A new tensor. -/
def alloc (m : Memory α) (x : Tensor α) : Handle α × Memory α :=
  let (storage, m) := m.empty
  (⟨storage, Tensor.of_flat x.shape⟩, m.write storage x.numel x.flat)

/-- A buffer that is not cached yet, or has become too small. -/
def new_staging_buffer (m : Memory α) (role : Role) (numel : ℕ) : ℕ × Memory α :=
  (m.next, { m with
    next := m.next + 1
    cache := fun role' => if role' = role then some (m.next, numel) else m.cache role'
    cache_lt := by
      intro role' storage numel' h
      split at h
      · cases h
        exact Nat.lt_succ_self _
      · exact Nat.lt_succ_of_lt (m.cache_lt role' storage numel' h) })

def a2a_staging_buffer (env : Env) (m : Memory α) (role : Role) (numel : ℕ) : ℕ × Memory α :=
  if env.staging then
    match m.cache role with
    | some (storage, capacity) =>
      if capacity < numel then m.new_staging_buffer role numel else (storage, m)
    | none => m.new_staging_buffer role numel
  else m.empty

/-- `x.permute(order).contiguous().reshape(out)` of a buffer of the given shape. -/
def contiguous (m : Memory α) (storage : ℕ) (shape order out : List ℕ) : Handle α × Memory α :=
  let view := fun data => ((Tensor.of_flat shape data).permute order).reshape out
  if Tensor.permuted_contiguous shape order then (⟨storage, view⟩, m)
  else m.alloc (view (m.cells storage))

/-! ## What a read returns -/

@[simp] theorem cells_write (m : Memory α) (storage numel : ℕ) (data : ℕ → α) (id k : ℕ) :
    (m.write storage numel data).cells id k
      = if id = storage ∧ k < numel then data k else m.cells id k := rfl

theorem read_alloc (m : Memory α) (x : Tensor α) :
    Tensor.Same ((m.alloc x).2.read (m.alloc x).1) x := by
  refine Tensor.of_flat_same (fun k hk => ?_)
  show (if (m.empty.1 = m.empty.1 ∧ k < x.numel) then x.flat k else _) = x.flat k
  rw [if_pos ⟨rfl, hk⟩]

theorem read_contiguous (m : Memory α) (storage : ℕ) (shape order out : List ℕ) :
    Tensor.Same ((m.contiguous storage shape order out).2.read
        (m.contiguous storage shape order out).1)
      (((Tensor.of_flat shape (m.cells storage)).permute order).reshape out) := by
  unfold contiguous
  split
  · exact Tensor.Same.refl _
  · exact read_alloc m _

/-! ## What a call leaves alone

A storage is owned when it is in use and is not the staging buffer of the role. -/

/-- The caller's own storage, as far as collectives of the role go. -/
def Owned (m : Memory α) (role : Role) (storage : ℕ) : Prop :=
  storage < m.next ∧ ∀ numel, m.cache role ≠ some (storage, numel)

/-- What every call does to memory: owned storages keep their entries and stay owned. -/
def Keeps (role : Role) (m m' : Memory α) : Prop :=
  ∀ storage, m.Owned role storage → m'.cells storage = m.cells storage ∧ m'.Owned role storage

theorem Keeps.refl (role : Role) (m : Memory α) : Keeps role m m :=
  fun _ h => ⟨rfl, h⟩

theorem Keeps.trans {role : Role} {m m' m'' : Memory α} (h : Keeps role m m')
    (h' : Keeps role m' m'') : Keeps role m m'' := by
  intro storage howned
  obtain ⟨heq, howned'⟩ := h storage howned
  obtain ⟨heq', howned''⟩ := h' storage howned'
  exact ⟨heq'.trans heq, howned''⟩

theorem Keeps.read_eq {role : Role} {m m' : Memory α} (h : Keeps role m m') {out : Handle α}
    (howned : m.Owned role out.storage) : m'.read out = m.read out := by
  unfold read
  rw [(h _ howned).1]

theorem keeps_empty (role : Role) (m : Memory α) : Keeps role m m.empty.2 :=
  fun _ h => ⟨rfl, Nat.lt_succ_of_lt h.1, h.2⟩

theorem keeps_alloc (role : Role) (m : Memory α) (x : Tensor α) : Keeps role m (m.alloc x).2 := by
  intro id hid
  refine ⟨?_, Nat.lt_succ_of_lt hid.1, hid.2⟩
  funext k
  show (if id = m.next ∧ k < x.numel then x.flat k else m.cells id k) = m.cells id k
  rw [if_neg]
  rintro ⟨rfl, _⟩
  exact Nat.lt_irrefl _ hid.1

theorem owned_alloc (role : Role) (m : Memory α) (x : Tensor α) :
    (m.alloc x).2.Owned role (m.alloc x).1.storage := by
  refine ⟨Nat.lt_succ_self _, fun numel h => ?_⟩
  exact Nat.lt_irrefl _ (m.cache_lt role _ numel h)

end Memory

end LightningH3.Ulysses
