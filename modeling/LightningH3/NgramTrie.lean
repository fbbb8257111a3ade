/-
The n-gram trie of speculative decoding
(`kernels/jit/csrc/ngram_corpus/trie.h` and `trie.cpp`, class `Trie`).

Nodes live in one vector and are named by their index; a smaller index is a smaller address. The
child map is a dictionary; `lru` and `global_lru_` are lists of cells whose iterators the nodes keep;
`sorted_children` is the list of its elements in the order of `CompareByFreq`, which reads the nodes
it points to. `freq` is an `int32_t` and wraps around, and so does the sum of `size_t` in the guard of
`squeeze`; tokens are integers, the version and epoch counters of 64 bits are natural numbers. What is undefined in the source (the back of an empty list,
an index outside the pool) is a fault.
-/
import LightningH3.Lib.CellList
import LightningH3.Lib.OrderedDict
import LightningH3.Lib.PointerTree
import Mathlib.Algebra.GroupWithZero.Nat
import Mathlib.Data.List.Sort

set_option autoImplicit false

namespace LightningH3.NgramTrie

abbrev Token := ℤ
abbrev NodeId := ℕ

inductive Fault
  | insufficient_node_size
  | still_has_child_nodes
  | undefined
  deriving DecidableEq, Repr

/-- The value of an `int32_t`. -/
def int32 (z : ℤ) : ℤ := z.bmod (2 ^ 32)

/-- The value of a `size_t`. -/
def size_t (n : ℕ) : ℕ := n % 2 ^ 64

theorem size_t_le (n : ℕ) : size_t n ≤ n := Nat.mod_le n _

/-- `TrieNode`. -/
structure TrieNode where
  child : OrderedDict Token NodeId
  global_lru_pos : ℕ
  parent_lru_pos : ℕ
  token : Token
  parent : NodeId
  lru : CellList NodeId
  freq : ℤ
  version : ℕ
  sorted_children : List NodeId

/-- `TrieNode()`: what has no default is zero here and not read before it is written. -/
def TrieNode.new : TrieNode where
  child := .empty
  global_lru_pos := 0
  parent_lru_pos := 0
  token := 0
  parent := 0
  lru := .empty
  freq := 0
  version := 1
  sorted_children := []

/-- `CompareByFreq`: the higher frequency first, then the smaller token, then the smaller address. -/
def Before (nodes : NodeId → TrieNode) (a b : NodeId) : Prop :=
  (nodes b).freq < (nodes a).freq ∨
    ((nodes b).freq = (nodes a).freq ∧
      ((nodes a).token < (nodes b).token ∨ ((nodes a).token = (nodes b).token ∧ a < b)))

instance (nodes : NodeId → TrieNode) : DecidableRel (Before nodes) := fun _ _ =>
  inferInstanceAs (Decidable (_ ∨ _))

/-- `sorted_children.insert(node)`. -/
def sorted_insert (nodes : NodeId → TrieNode) (node : NodeId) (l : List NodeId) : List NodeId :=
  l.orderedInsert (Before nodes) node

/-- `sorted_children.erase(node)`: the elements that `CompareByFreq` does not tell from it. -/
def sorted_erase (nodes : NodeId → TrieNode) (node : NodeId) (l : List NodeId) : List NodeId :=
  l.filter fun c => decide (Before nodes c node) || decide (Before nodes node c)

/-- `Trie`. Of `node_pool_` the first `free_node_count` are free. -/
structure Trie where
  nodes : NodeId → TrieNode
  capacity : ℕ
  max_trie_depth : ℕ
  node_pool : List NodeId
  free_node_count : ℕ
  global_lru : CellList NodeId
  root : NodeId
  trie_epoch : ℕ

namespace Trie

/-- Writes a node back. -/
def put (t : Trie) (id : NodeId) (n : TrieNode) : Trie :=
  { t with nodes := Function.update t.nodes id n }

/-- `getNode`: a new node at the address of the last free one, with its version. -/
def getNode (t : Trie) : Except Fault (Trie × NodeId) :=
  match t.free_node_count with
  | 0 => .error .undefined
  | free_node_count + 1 =>
    match t.node_pool[free_node_count]? with
    | none => .error .undefined
    | some node =>
      .ok ({ t.put node { TrieNode.new with version := (t.nodes node).version } with
        free_node_count := free_node_count }, node)

def new (capacity max_trie_depth : ℕ) : Except Fault Trie := do
  let t : Trie := {
    nodes := fun _ => TrieNode.new
    capacity := capacity
    max_trie_depth := max_trie_depth
    node_pool := List.range capacity
    free_node_count := capacity
    global_lru := .empty
    root := 0
    trie_epoch := 1 }
  let (t, root) ← t.getNode
  return { t with root := root }

/-- The child pointer of a node. -/
def child (t : Trie) (id : NodeId) (token : Token) : Option NodeId :=
  (t.nodes id).child.get? token

/-- A new child of `cursor` for a token that has none. -/
def create_child (t : Trie) (cursor : NodeId) (token : Token) :
    Except Fault (Trie × NodeId) := do
  let (t, node) ← t.getNode
  let n := t.nodes cursor
  let front := n.lru.emplace_front node
  let back := t.global_lru.emplace_back node
  let t := t.put cursor { n with child := n.child.set token node, lru := front.1 }
  let t := { t with global_lru := back.1 }
  let t := t.put node { t.nodes node with
    token := token
    parent := cursor
    parent_lru_pos := front.2
    global_lru_pos := back.2
    freq := 1 }
  let n := t.nodes cursor
  return (t.put cursor { n with
    sorted_children := sorted_insert t.nodes node n.sorted_children }, node)

/-- One more window through the child `node` of `cursor`. -/
def touch_child (t : Trie) (cursor node : NodeId) : Trie :=
  let n := t.nodes cursor
  let t := t.put cursor { n with
    sorted_children := sorted_erase t.nodes node n.sorted_children }
  let t := t.put node { t.nodes node with freq := int32 ((t.nodes node).freq + 1) }
  let n := t.nodes cursor
  let t := t.put cursor { n with
    sorted_children := sorted_insert t.nodes node n.sorted_children }
  let n := t.nodes cursor
  t.put cursor { n with lru := n.lru.splice_front (t.nodes node).parent_lru_pos }

/-- The loop of `insert` along a window, from the node it has come to; the nodes passed. -/
def walk : List Token → Trie → NodeId → List NodeId → Except Fault (Trie × List NodeId)
  | [], t, _, path => .ok (t, path)
  | token :: rest, t, cursor, path =>
    match t.child cursor token with
    | none => do
        let (t, node) ← t.create_child cursor token
        walk rest t node (path ++ [node])
    | some node => walk rest (t.touch_child cursor node) node (path ++ [node])

/-- A node moves to the front of `global_lru_`. -/
def refresh (t : Trie) (node : NodeId) : Trie :=
  { t with global_lru := t.global_lru.splice_front (t.nodes node).global_lru_pos }

/-- A window is walked, and its nodes move to the front, the deepest first. -/
def insert_window (t : Trie) (window : List Token) : Except Fault Trie := do
  let (t, path) ← walk window t t.root []
  return path.reverse.foldl refresh t

/-- One turn of the loop of `squeeze`. -/
def release_last (t : Trie) : Except Fault Trie :=
  match t.global_lru.back? with
  | none => .error .undefined
  | some last =>
    let t := { t with global_lru := t.global_lru.pop_back }
    let n := t.nodes last
    if n.child.items ≠ [] then .error .still_has_child_nodes
    else
      let p := t.nodes n.parent
      let t := t.put n.parent { p with
        lru := p.lru.erase n.parent_lru_pos
        sorted_children := sorted_erase t.nodes last p.sorted_children
        child := p.child.erase n.token }
      let t := t.put last { t.nodes last with version := (t.nodes last).version + 1 }
      if t.free_node_count < t.node_pool.length then
        .ok { t with
          node_pool := t.node_pool.set t.free_node_count last
          free_node_count := t.free_node_count + 1 }
      else .error .undefined

/-- The loop of `squeeze`. -/
def release : ℕ → Trie → Except Fault Trie
  | 0, t => .ok t
  | count + 1, t => do
      let t ← t.release_last
      release count t

def squeeze (t : Trie) (count : ℕ) : Except Fault Trie :=
  -- the sum of the guard wraps around
  if t.node_pool.length ≥ size_t (t.free_node_count + count) then release count t
  else .error .insufficient_node_size

/-- The body of the loop of `insert`: room for the window, and the window. -/
def insert_at (t : Trie) (window : List Token) : Except Fault Trie := do
  let t ← if window.length > t.free_node_count then
      t.squeeze (window.length - t.free_node_count)
    else .ok t
  t.insert_window window

/-- `insert`, from a position on: the window there is cut at `max_trie_depth`. -/
def insert : List Token → Trie → Except Fault Trie
  | [], t => .ok t
  | token :: rest, t => do
      let t ← t.insert_at ((token :: rest).take t.max_trie_depth)
      insert rest t

/-- `reset`: the nodes stay as they are until they are taken again. -/
def reset (t : Trie) : Except Fault Trie := do
  let (t, root) ← getNode { t with
    trie_epoch := t.trie_epoch + 1
    global_lru := .empty
    node_pool := List.range t.capacity
    free_node_count := t.capacity }
  return { t with root := root }

/-- Where a path leads. -/
def find (t : Trie) (path : List Token) : Option NodeId := PointerTree.find t.child t.root path

end Trie

end LightningH3.NgramTrie
