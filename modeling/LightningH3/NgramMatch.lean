/-
Suffix matching in the n-gram trie (`trie.cpp`, `match` and what it calls).

A request keeps, for each depth, a reference to the node of the last `depth` tokens of its context. A
call either follows these references by the tokens that were appended, or finds all suffixes anew.
Following keeps an empty reference empty: it stands for a suffix that had no node when it was looked
for, and nothing looks for it again. This module says exactly when that shows in the result.
-/
import LightningH3.NgramTrieEvict
import Mathlib.Data.List.DropRight

set_option autoImplicit false

namespace LightningH3.NgramTrie

open List

/-- `NodeRef`. -/
structure NodeRef where
  ptr : Option NodeId := none
  version : ℕ := 0
  deriving DecidableEq, Repr

/-- `MatchState`: `anchors[d - 1]` is for the last `d` tokens. -/
structure MatchState where
  trie_epoch : ℕ := 0
  processed_total_len : ℕ := 0
  anchors : List NodeRef := []
  deriving DecidableEq, Repr

namespace Trie

/-! ## 1. The code -/

def capture (t : Trie) : Option NodeId → NodeRef
  | none => {}
  | some node => { ptr := some node, version := (t.nodes node).version }

def resolve (t : Trie) (state : MatchState) (ref : NodeRef) : Option NodeId :=
  match ref.ptr with
  | none => none
  | some node =>
    if state.trie_epoch ≠ t.trie_epoch ∨ (t.nodes node).version ≠ ref.version then none
    else some node

def validateMatchState_ (t : Trie) (state : MatchState) : Bool :=
  if state.trie_epoch ≠ t.trie_epoch then false
  else state.anchors.all fun ref => ref.ptr.isNone || (t.resolve state ref).isSome

/-- `rebuildMatchState_`: each suffix is followed from the root. -/
def rebuildMatchState_ (t : Trie) (context : List Token) (total_len : ℕ) : MatchState where
  trie_epoch := t.trie_epoch
  processed_total_len := total_len
  anchors := (List.range (min context.length t.max_trie_depth)).map fun i =>
    t.capture (t.find (context.rtake (i + 1)))

/-- The loop body of `advanceMatchState_` for one depth: what `next[depth]` becomes; nothing where
the function returns false. -/
def advance_anchor (t : Trie) (state : MatchState) (token : Token) : ℕ → Option NodeRef
  | 0 => some (t.capture (t.child t.root token))
  | depth + 1 =>
    match state.anchors[depth]? with
    | none => some {}
    | some prev_ref =>
      match prev_ref.ptr with
      | none => some {}
      | some _ =>
        match t.resolve state prev_ref with
        | none => none
        | some prev_node => some (t.capture (t.child prev_node token))

/-- One turn of the loop over the appended tokens. -/
def advance_token (t : Trie) (state : MatchState) (token : Token) : Option MatchState := do
  let next_depth := min (state.anchors.length + 1) t.max_trie_depth
  let next ← (List.range next_depth).mapM (t.advance_anchor state token)
  return { state with anchors := next }

/-- `advanceMatchState_`; where it returns false, `match` rebuilds all of the state. -/
def advanceMatchState_ (t : Trie) (state : MatchState) (tokens : List Token) (total_len : ℕ) :
    Option MatchState :=
  if t.validateMatchState_ state then do
    let state ← tokens.foldlM t.advance_token state
    return { state with processed_total_len := total_len }
  else none

/-- `getExpandableAnchors_`, the deepest first. -/
def getExpandableAnchors_ (t : Trie) (state : MatchState) : List (NodeId × ℕ) :=
  (List.range state.anchors.length).reverse.filterMap fun i => do
    let ref ← state.anchors[i]?
    let node ← t.resolve state ref
    if (t.nodes node).child.items ≠ [] then some (node, i + 1) else none

/-- `match`, with the state it leaves. -/
def match_ (t : Trie) (context : List Token) (state : MatchState) (total_len : ℕ) :
    List (NodeId × ℕ) × MatchState :=
  let appended_len :=
    if total_len ≥ state.processed_total_len then total_len - state.processed_total_len else 0
  let expected_prev_depth := min state.processed_total_len t.max_trie_depth
  let advanced :=
    if state.trie_epoch = t.trie_epoch ∧ total_len ≥ state.processed_total_len ∧
        appended_len ≤ context.length ∧ state.anchors.length = expected_prev_depth then
      t.advanceMatchState_ state (context.drop (context.length - appended_len)) total_len
    else none
  let state := advanced.getD (t.rebuildMatchState_ context total_len)
  (t.getExpandableAnchors_ state, state)

/-! ## 2. References -/

variable {t : Trie} {state : MatchState}

@[simp] theorem capture_none (t : Trie) : t.capture none = {} := rfl

theorem resolve_capture (hepoch : state.trie_epoch = t.trie_epoch) (node : Option NodeId) :
    t.resolve state (t.capture node) = node := by
  cases node with
  | none => rfl
  | some node =>
    unfold resolve capture
    dsimp only
    rw [if_neg]
    rintro (hbad | hbad)
    · exact hbad hepoch
    · exact hbad rfl

/-- What an anchor points to. -/
def known (state : MatchState) (i : ℕ) : Option NodeId := state.anchors[i]?.bind NodeRef.ptr

/-- **The anchors are those of a context**, each empty or up to date. -/
structure Cached (t : Trie) (state : MatchState) (context : List Token) : Prop where
  epoch : state.trie_epoch = t.trie_epoch
  length : state.anchors.length = min context.length t.max_trie_depth
  spelled : ∀ i ref, state.anchors[i]? = some ref →
    ref = {} ∨ ref = t.capture (t.find (context.rtake (i + 1)))

theorem find_append_none {a : List Token} (h : t.find a = none) (b : List Token) :
    t.find (a ++ b) = none := by
  unfold find at h ⊢
  rw [PointerTree.find_append, h]
  rfl

theorem rtake_append_of_le {l m : List Token} {n : ℕ} (h : m.length ≤ n) :
    (l ++ m).rtake n = l.rtake (n - m.length) ++ m := by
  unfold List.rtake
  rw [length_append, drop_append_of_le_length (by omega)]
  congr 2
  omega

theorem rtake_append_right {l m : List Token} {n : ℕ} (h : n ≤ m.length) :
    (l ++ m).rtake n = m.rtake n := by
  unfold List.rtake
  rw [length_append, drop_append]
  have hlen : l.length + m.length - n = l.length + (m.length - n) := by omega
  rw [hlen, drop_eq_nil_of_le (by omega), nil_append, Nat.add_sub_cancel_left]

/-! ## 3. One token -/

theorem mapM_eq_some {α β : Type} {f : α → Option β} {g : α → β} {l : List α}
    (h : ∀ a ∈ l, f a = some (g a)) : l.mapM f = some (l.map g) := by
  induction l with
  | nil => rfl
  | cons a l ih =>
    rw [mapM_cons, h a mem_cons_self, ih fun b hb => h b (mem_cons_of_mem _ hb)]
    rfl

/-- What one token makes of an anchor: an empty one stays empty. -/
def followed (t : Trie) (state : MatchState) (context : List Token) (token : Token) : ℕ → NodeRef
  | 0 => t.capture (t.find [token])
  | i + 1 => if known state i = none then {} else t.capture (t.find (context.rtake (i + 1) ++ [token]))

theorem followed_succ (t : Trie) (state : MatchState) (context : List Token) (token : Token) (i : ℕ) :
    followed t state context token (i + 1) = if known state i = none then {}
      else t.capture (t.find (context.rtake (i + 1) ++ [token])) := rfl

theorem find_singleton (t : Trie) (token : Token) : t.find [token] = t.child t.root token := by
  have h := t.find_snoc [] token
  exact h

variable {context : List Token}

theorem advance_anchor_spec (h : Cached t state context) (token : Token) {i : ℕ}
    (hi : i < state.anchors.length + 1) :
    t.advance_anchor state token i = some (followed t state context token i) := by
  cases i with
  | zero =>
    unfold advance_anchor followed
    rw [find_singleton]
  | succ i =>
    have hlt : i < state.anchors.length := by omega
    have hget := getElem?_eq_getElem hlt
    generalize state.anchors[i] = ref at hget
    unfold advance_anchor followed known
    dsimp only
    rw [hget, Option.bind_some]
    dsimp only
    cases hptr : ref.ptr with
    | none => rw [if_pos rfl]
    | some node =>
      have href : ref = t.capture (t.find (context.rtake (i + 1))) := by
        rcases h.spelled i ref hget with hnull | href
        · rw [hnull] at hptr
          exact absurd hptr (by simp)
        · exact href
      cases hfind : t.find (context.rtake (i + 1)) with
      | none =>
        rw [href, hfind] at hptr
        exact absurd hptr (by simp)
      | some p =>
        rw [href, resolve_capture h.epoch, find_snoc, hfind]
        rfl

theorem advance_token_spec (h : Cached t state context) (token : Token) :
    ∃ state', t.advance_token state token = some state' ∧ Cached t state' (context ++ [token]) ∧
      ∀ i, i < state'.anchors.length →
        state'.anchors[i]? = some (followed t state context token i) := by
  have hmap := mapM_eq_some (f := t.advance_anchor state token)
    (l := List.range (min (state.anchors.length + 1) t.max_trie_depth))
    fun i hi => advance_anchor_spec h token (lt_of_lt_of_le (mem_range.mp hi) (Nat.min_le_left _ _))
  have hget : ∀ i, i < min (state.anchors.length + 1) t.max_trie_depth →
      ((List.range (min (state.anchors.length + 1) t.max_trie_depth)).map
        (followed t state context token))[i]? = some (followed t state context token i) := by
    intro i hi
    rw [getElem?_map, getElem?_range hi]
    rfl
  have hlength : ((List.range (min (state.anchors.length + 1) t.max_trie_depth)).map
      (followed t state context token)).length = min (state.anchors.length + 1) t.max_trie_depth := by
    rw [length_map, length_range]
  generalize (List.range (min (state.anchors.length + 1) t.max_trie_depth)).map
    (followed t state context token) = next at hmap hget hlength
  rw [← hlength] at hget
  refine ⟨{ state with anchors := next }, ?_, ⟨h.epoch, ?_, ?_⟩, hget⟩
  · unfold advance_token
    dsimp only
    rw [hmap]
    rfl
  · have hlen := h.length
    rw [hlength, length_append, length_singleton]
    omega
  · intro i ref href
    have hi := (List.getElem?_eq_some_iff.mp href).1
    rw [hget i hi] at href
    cases href
    cases i with
    | zero =>
      right
      rw [rtake_concat_succ, rtake_zero]
      rfl
    | succ i =>
      rw [rtake_concat_succ]
      by_cases hknown : known state i = none
      · exact Or.inl (if_pos hknown)
      · exact Or.inr (if_neg hknown)

/-! ## 4. All appended tokens -/

/-- **Following the anchors** by the appended tokens: the anchor of a suffix that starts before them is
empty where the anchor it comes from was, and every other anchor is up to date. -/
theorem advance_spec (tokens : List Token) {state : MatchState}
    {context : List Token} : Cached t state context →
    ∃ state', tokens.foldlM t.advance_token state = some state' ∧
      Cached t state' (context ++ tokens) ∧ ∀ i, i < state'.anchors.length →
        state'.anchors[i]? = some (if tokens.length ≤ i ∧ known state (i - tokens.length) = none
          then {} else t.capture (t.find ((context ++ tokens).rtake (i + 1)))) := by
  induction tokens generalizing state context with
  | nil =>
    intro h
    rw [append_nil]
    refine ⟨state, rfl, h, fun i hi => ?_⟩
    have hget := getElem?_eq_getElem hi
    generalize state.anchors[i] = ref at hget
    rw [length_nil, Nat.sub_zero]
    unfold known
    rw [hget]
    rcases h.spelled i ref hget with rfl | href
    · rw [if_pos ⟨Nat.zero_le _, rfl⟩]
    · split
      · next hnull =>
        rw [href]
        cases hfind : t.find (context.rtake (i + 1)) with
        | none => rfl
        | some node =>
          rw [href, hfind] at hnull
          exact absurd hnull.2 (by simp [capture])
      · rw [href]
  | cons token rest ih =>
    intro h
    obtain ⟨state₁, hstep, h₁, hget₁⟩ := advance_token_spec h token
    obtain ⟨state', hrest, h', hget'⟩ := ih h₁
    have happend : context ++ token :: rest = context ++ [token] ++ rest := by
      rw [append_assoc]
      rfl
    rw [happend]
    refine ⟨state', ?_, h', fun i hi => ?_⟩
    · rw [foldlM_cons, hstep]
      exact hrest
    · rw [hget' i hi, length_cons]
      congr 1
      by_cases hle : rest.length ≤ i
      · obtain ⟨j, rfl⟩ : ∃ j, i = j + rest.length := ⟨i - rest.length, by omega⟩
        rw [Nat.add_sub_cancel]
        have hj : j < state₁.anchors.length := by
          have hlen := h'.length
          have hlen₁ := h₁.length
          rw [length_append] at hlen
          omega
        have hknown₁ : known state₁ j = (followed t state context token j).ptr := by
          unfold known
          rw [hget₁ j hj]
          rfl
        -- a suffix that goes on from one without a node has none either
        have hnone : ∀ u, t.find u = none →
            (context ++ [token] ++ rest).rtake (j + rest.length + 1) = u ++ rest →
            t.capture (t.find ((context ++ [token] ++ rest).rtake (j + rest.length + 1))) = {} := by
          intro u hu heq
          rw [heq, find_append_none hu]
          rfl
        have hsuffix : (context ++ [token] ++ rest).rtake (j + rest.length + 1)
            = context.rtake j ++ [token] ++ rest := by
          have hsub : j + rest.length + 1 - rest.length = j + 1 := by omega
          rw [rtake_append_of_le (by omega), hsub, rtake_concat_succ]
        have hptr : ∀ node, (t.capture node).ptr = none → node = none := by
          intro node hptr
          cases node with
          | none => rfl
          | some node => exact absurd hptr (by simp [capture])
        cases j with
        | zero =>
          rw [if_neg (fun hbad : rest.length + 1 ≤ 0 + rest.length ∧ _ => by omega)]
          split
          · next hnull =>
            have hfind := hptr _ (hknown₁.symm.trans hnull.2)
            exact (hnone [token] hfind (by rw [hsuffix, rtake_zero]; rfl)).symm
          · rfl
        | succ j =>
          have hidx : j + 1 + rest.length - (rest.length + 1) = j := by omega
          rw [hidx]
          rw [followed_succ] at hknown₁
          by_cases hknown : known state j = none
          · rw [if_pos hknown] at hknown₁
            rw [if_pos ⟨hle, hknown₁⟩, if_pos ⟨by omega, hknown⟩]
          · rw [if_neg hknown] at hknown₁
            rw [if_neg (fun hbad : rest.length + 1 ≤ j + 1 + rest.length ∧ known state j = none =>
              hknown hbad.2)]
            split
            · next hnull =>
              have hfind := hptr _ (hknown₁.symm.trans hnull.2)
              exact (hnone _ hfind hsuffix).symm
            · rfl
      · rw [if_neg (by omega), if_neg (by omega)]

/-! ## 5. The expandable anchors -/

/-- A path that leads to a node with children. -/
def Expandable (t : Trie) (path : List Token) (node : NodeId) : Prop :=
  t.find path = some node ∧ (t.nodes node).child.items ≠ []

/-- The anchors of a context, but for some empty ones. -/
structure Spells (t : Trie) (state : MatchState) (context : List Token) (missing : ℕ → Prop)
    [DecidablePred missing] : Prop where
  epoch : state.trie_epoch = t.trie_epoch
  length : state.anchors.length = min context.length t.max_trie_depth
  at_depth : ∀ i, i < state.anchors.length → state.anchors[i]? = some (if missing i then {}
    else t.capture (t.find (context.rtake (i + 1))))

variable {missing : ℕ → Prop}

theorem Spells.entry [DecidablePred missing] (h : Spells t state context missing) {i : ℕ}
    (hi : i < state.anchors.length) : (do
      let ref ← state.anchors[i]?
      let node ← t.resolve state ref
      if (t.nodes node).child.items ≠ [] then some (node, i + 1) else none : Option (NodeId × ℕ))
      = if missing i then none else (t.find (context.rtake (i + 1))).bind fun node =>
        if (t.nodes node).child.items ≠ [] then some (node, i + 1) else none := by
  rw [h.at_depth i hi]
  split
  · rfl
  · show (t.resolve state (t.capture (t.find (context.rtake (i + 1))))).bind _ = _
    rw [resolve_capture h.epoch]

theorem Spells.mem_iff [DecidablePred missing] (h : Spells t state context missing) (node : NodeId)
    (depth : ℕ) : (node, depth) ∈ t.getExpandableAnchors_ state ↔ 1 ≤ depth ∧
      depth ≤ min context.length t.max_trie_depth ∧ ¬ missing (depth - 1) ∧
        Expandable t (context.rtake depth) node := by
  unfold getExpandableAnchors_
  rw [mem_filterMap]
  constructor
  · rintro ⟨i, hi, hentry⟩
    have hlt := mem_range.mp (mem_reverse.mp hi)
    rw [h.entry hlt] at hentry
    split at hentry
    · exact absurd hentry (by simp)
    · next hmissing =>
      obtain ⟨p, hp, hif⟩ := Option.bind_eq_some_iff.mp hentry
      split at hif
      · next hitems =>
        cases hif
        exact ⟨Nat.le_add_left 1 i, h.length ▸ hlt, hmissing, hp, hitems⟩
      · exact absurd hif (by simp)
  · rintro ⟨hpos, hle, hmissing, hfind, hitems⟩
    obtain ⟨i, rfl⟩ : ∃ i, depth = i + 1 := ⟨depth - 1, by omega⟩
    rw [Nat.add_sub_cancel] at hmissing
    have hlt : i < state.anchors.length := by
      rw [h.length]
      exact hle
    refine ⟨i, mem_reverse.mpr (mem_range.mpr hlt), ?_⟩
    rw [h.entry hlt, if_neg hmissing, hfind]
    exact if_pos hitems

/-- **Two readings** are the same list exactly where nothing expandable is missing from the first. -/
theorem Spells.eq_iff {state' : MatchState} [DecidablePred missing]
    (h : Spells t state context missing) (h' : Spells t state' context fun _ => False) :
    t.getExpandableAnchors_ state = t.getExpandableAnchors_ state' ↔
      ∀ i node, i < min context.length t.max_trie_depth →
        Expandable t (context.rtake (i + 1)) node → ¬ missing i := by
  constructor
  · intro heq i node hi hexp
    have hmem := (h'.mem_iff node (i + 1)).mpr ⟨Nat.le_add_left 1 i, hi, id, hexp⟩
    rw [← heq] at hmem
    exact ((h.mem_iff node (i + 1)).mp hmem).2.2.1
  · intro hnone
    unfold getExpandableAnchors_
    rw [h'.length, ← h.length]
    apply filterMap_congr
    intro i hi
    have hlt := mem_range.mp (mem_reverse.mp hi)
    rw [h.entry hlt, h'.entry (by rw [h'.length, ← h.length]; exact hlt), if_neg id]
    split
    · next hmissing =>
      cases hfind : t.find (context.rtake (i + 1)) with
      | none => rfl
      | some node =>
        rw [Option.bind_some, if_neg]
        intro hitems
        exact hnone i node (h.length ▸ hlt) ⟨hfind, hitems⟩ hmissing
    · rfl

/-! ## 6. One call -/

/-- What a request's state says of its context, whatever has become of the trie since. -/
structure StateOk (t : Trie) (state : MatchState) (context : List Token) : Prop where
  processed : state.processed_total_len = context.length
  epoch_le : state.trie_epoch ≤ t.trie_epoch
  length : state.trie_epoch = t.trie_epoch →
    state.anchors.length = min context.length t.max_trie_depth
  empty : ∀ ref ∈ state.anchors, ref.ptr = none → ref = {}
  points : state.trie_epoch = t.trie_epoch → ∀ i ref node, state.anchors[i]? = some ref →
    ref.ptr = some node → ref.version ≤ (t.nodes node).version ∧
      ((t.nodes node).version = ref.version → t.find (context.rtake (i + 1)) = some node)

theorem StateOk.cached (h : StateOk t state context) (hvalid : t.validateMatchState_ state = true) :
    Cached t state context := by
  unfold validateMatchState_ at hvalid
  split at hvalid
  · exact absurd hvalid (by simp)
  · next hepoch =>
    have hepoch := not_not.mp hepoch
    refine ⟨hepoch, h.length hepoch, fun i ref href => ?_⟩
    have hmem := mem_of_getElem? href
    have hall := all_eq_true.mp hvalid ref hmem
    cases hptr : ref.ptr with
    | none => exact Or.inl (h.empty ref hmem hptr)
    | some node =>
      right
      unfold resolve at hall
      rw [hptr] at hall
      have hversion : (t.nodes node).version = ref.version := by
        by_contra hne
        dsimp only at hall
        rw [if_pos (Or.inr hne)] at hall
        exact absurd hall (by simp)
      rw [(h.points hepoch i ref node href hptr).2 hversion]
      cases ref
      dsimp only at hptr hversion
      rw [hptr, ← hversion]
      rfl

theorem Cached.stateOk (h : Cached t state context)
    (hprocessed : state.processed_total_len = context.length) : StateOk t state context where
  processed := hprocessed
  epoch_le := Nat.le_of_eq h.epoch
  length _ := h.length
  empty ref href hptr := by
    obtain ⟨i, hi⟩ := getElem?_of_mem href
    rcases h.spelled i ref hi with hnull | hcap
    · exact hnull
    · cases hfind : t.find (context.rtake (i + 1)) with
      | none =>
        rw [hcap, hfind]
        rfl
      | some node =>
        rw [hcap, hfind] at hptr
        exact absurd hptr (by simp [capture])
  points _ i ref node href hptr := by
    rcases h.spelled i ref href with hnull | hcap
    · rw [hnull] at hptr
      exact absurd hptr (by simp)
    · cases hfind : t.find (context.rtake (i + 1)) with
      | none =>
        rw [hcap, hfind] at hptr
        exact absurd hptr (by simp)
      | some p =>
        rw [hcap, hfind] at hptr ⊢
        obtain rfl : p = node := Option.some.inj hptr
        exact ⟨Nat.le_refl _, fun _ => rfl⟩

/-- The anchors that a call leaves empty without looking: it follows the cached ones, and the one that
this one comes from is empty. -/
def Missing (t : Trie) (state : MatchState) (tail : List Token) (appended i : ℕ) : Prop :=
  (t.validateMatchState_ state = true ∧ appended ≤ tail.length) ∧
    appended ≤ i ∧ known state (i - appended) = none

instance (t : Trie) (state : MatchState) (tail : List Token) (appended : ℕ) :
    DecidablePred (Missing t state tail appended) := fun _ =>
  inferInstanceAs (Decidable (_ ∧ _))

variable {len : ℕ}

theorem rebuild_spells (hlen : min context.length t.max_trie_depth ≤ len) :
    Spells t (t.rebuildMatchState_ (context.rtake len) context.length) context fun _ => False := by
  have htail : (context.rtake len).length = min context.length len := by
    unfold List.rtake
    rw [length_drop]
    omega
  have hlength : min (context.rtake len).length t.max_trie_depth
      = min context.length t.max_trie_depth := by
    omega
  have hanchors : (t.rebuildMatchState_ (context.rtake len) context.length).anchors.length
      = min context.length t.max_trie_depth := by
    unfold rebuildMatchState_
    rw [length_map, length_range, hlength]
  refine ⟨rfl, hanchors, fun i hi => ?_⟩
  rw [hanchors] at hi
  unfold rebuildMatchState_
  rw [getElem?_map, getElem?_range (by rw [hlength]; exact hi), Option.map_some]
  congr 3
  have hsplit : context = context.take (context.length - len) ++ context.rtake len :=
    (take_append_drop _ _).symm
  have hright : i + 1 ≤ (context.rtake len).length := by
    omega
  conv_rhs => rw [hsplit]
  exact (rtake_append_right hright).symm

theorem Spells.cached [DecidablePred missing] (h : Spells t state context missing) :
    Cached t state context := by
  refine ⟨h.epoch, h.length, fun i ref href => ?_⟩
  rw [h.at_depth i (List.getElem?_eq_some_iff.mp href).1] at href
  cases href
  split
  · exact Or.inl rfl
  · exact Or.inr rfl

/-- **One call**: every anchor is that of the whole context, but for those left empty. -/
theorem match_spec (h : StateOk t state context) (appended : List Token)
    (hlen : min (context ++ appended).length t.max_trie_depth ≤ len) :
    ∃ state', t.match_ ((context ++ appended).rtake len) state (context ++ appended).length
        = (t.getExpandableAnchors_ state', state') ∧ StateOk t state' (context ++ appended) ∧
      Spells t state' (context ++ appended)
        (Missing t state ((context ++ appended).rtake len) appended.length) := by
  have htotal : (context ++ appended).length = state.processed_total_len + appended.length := by
    rw [length_append, h.processed]
  have hrebuild := rebuild_spells (t := t) hlen
  generalize htail : (context ++ appended).rtake len = tail at hrebuild ⊢
  have hbehind : appended.length ≤ tail.length →
      tail.drop (tail.length - appended.length) = appended := by
    intro hle
    have hsplit : context ++ appended = (context ++ appended).take
        ((context ++ appended).length - len) ++ tail := by
      rw [← htail]
      exact (take_append_drop _ _).symm
    have hwhole : (context ++ appended).rtake appended.length = appended := by
      rw [rtake_append_of_le (Nat.le_refl _), Nat.sub_self, rtake_zero, nil_append]
    have htake := rtake_append_right (l := (context ++ appended).take
      ((context ++ appended).length - len)) hle
    rw [← hsplit, hwhole] at htake
    exact htake.symm
  have hle : state.processed_total_len ≤ (context ++ appended).length := by omega
  have hsub : (context ++ appended).length - state.processed_total_len = appended.length := by omega
  unfold match_
  dsimp only
  rw [if_pos hle, hsub]
  by_cases hadv : t.validateMatchState_ state = true ∧ appended.length ≤ tail.length
  · obtain ⟨hvalid, hshort⟩ := hadv
    have hcached := h.cached hvalid
    obtain ⟨state', hfold, hcached', hat⟩ := advance_spec appended hcached
    have hlength : state.anchors.length = min state.processed_total_len t.max_trie_depth := by
      rw [h.processed]
      exact hcached.length
    have hadvance : t.advanceMatchState_ state appended (context ++ appended).length
        = some { state' with processed_total_len := (context ++ appended).length } := by
      unfold advanceMatchState_
      rw [if_pos hvalid, hfold]
      rfl
    rw [if_pos ⟨hcached.epoch, hle, hshort, hlength⟩, hbehind hshort, hadvance]
    have hspells : Spells t { state' with processed_total_len := (context ++ appended).length }
        (context ++ appended) (Missing t state tail appended.length) := by
      refine ⟨hcached'.epoch, hcached'.length, fun i hi => ?_⟩
      rw [hat i hi]
      congr 1
      by_cases hmissing : appended.length ≤ i ∧ known state (i - appended.length) = none
      · rw [if_pos hmissing, if_pos ⟨⟨hvalid, hshort⟩, hmissing⟩]
      · rw [if_neg hmissing, if_neg fun hbad => hmissing hbad.2]
    exact ⟨_, rfl, hspells.cached.stateOk rfl, hspells⟩
  · have hnone : (if state.trie_epoch = t.trie_epoch ∧
        (context ++ appended).length ≥ state.processed_total_len ∧ appended.length ≤ tail.length ∧
          state.anchors.length = min state.processed_total_len t.max_trie_depth then
        t.advanceMatchState_ state (tail.drop (tail.length - appended.length))
          (context ++ appended).length else none) = none := by
      split
      · next hcan =>
        unfold advanceMatchState_
        rw [if_neg fun hvalid => hadv ⟨hvalid, hcan.2.2.1⟩]
      · rfl
    rw [hnone, Option.getD_none]
    refine ⟨_, rfl, hrebuild.cached.stateOk rfl, hrebuild.epoch, hrebuild.length, fun i hi => ?_⟩
    rw [hrebuild.at_depth i hi, if_neg id, if_neg fun hbad : Missing _ _ _ _ _ => hadv hbad.1]

/-- What a call should return: what rebuilding the state from the same tail returns, so that every
node is at the end of the last tokens of the context, as many as its depth, and no expandable suffix
is left out. -/
def Exact (t : Trie) (state : MatchState) (context tail : List Token) : Prop :=
  (t.match_ tail state context.length).1
      = t.getExpandableAnchors_ (t.rebuildMatchState_ tail context.length) ∧
    ∀ node depth, (node, depth) ∈ (t.match_ tail state context.length).1 ↔
      1 ≤ depth ∧ depth ≤ min context.length t.max_trie_depth ∧
        Expandable t (context.rtake depth) node

/-- Where a call follows the cached anchors, those of all suffixes that are expandable now had a node
when they were cached. -/
def Fresh (t : Trie) (state : MatchState) (context tail : List Token) (appended : ℕ) : Prop :=
  t.validateMatchState_ state = true → appended ≤ tail.length →
    ∀ depth node, appended < depth → depth ≤ min context.length t.max_trie_depth →
      Expandable t (context.rtake depth) node → known state (depth - 1 - appended) ≠ none

/-- **A call is exact exactly where its anchors are fresh.** -/
theorem exact_iff (h : StateOk t state context) (appended : List Token)
    (hlen : min (context ++ appended).length t.max_trie_depth ≤ len) :
    Exact t state (context ++ appended) ((context ++ appended).rtake len) ↔
      Fresh t state (context ++ appended) ((context ++ appended).rtake len) appended.length := by
  obtain ⟨state', hmatch, -, hspells⟩ := match_spec h appended hlen
  have hrebuild := rebuild_spells (t := t) hlen
  have hlist := hspells.eq_iff hrebuild
  unfold Exact
  rw [hmatch]
  constructor
  · rintro ⟨heq, -⟩ hvalid hshort depth node hlt hle hexp hknown
    obtain ⟨i, rfl⟩ : ∃ i, depth = i + 1 := ⟨depth - 1, by omega⟩
    exact hlist.mp heq i node hle hexp ⟨⟨hvalid, hshort⟩, Nat.le_of_lt_succ hlt, hknown⟩
  · intro hfresh
    have heq := hlist.mpr fun i node hi hexp hmissing => by
      obtain ⟨⟨hvalid, hshort⟩, hle, hknown⟩ := hmissing
      refine hfresh hvalid hshort (i + 1) node (Nat.lt_succ_of_le hle) hi hexp ?_
      exact hknown
    refine ⟨heq, fun node depth => ?_⟩
    rw [heq, hrebuild.mem_iff]
    constructor
    · rintro ⟨hpos, hle, -, hexp⟩
      exact ⟨hpos, hle, hexp⟩
    · rintro ⟨hpos, hle, hexp⟩
      exact ⟨hpos, hle, id, hexp⟩

end Trie

end LightningH3.NgramTrie
