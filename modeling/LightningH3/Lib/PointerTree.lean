/-
Trees of labelled pointers, read along paths.

A tree is given by its child pointers `child p k` alone, with what each node records of itself: its
parent, its label and a rank that grows downwards. `find` follows a path of labels. In a well formed
tree every node is at the end of exactly one path, so a node can be named by its path and forgotten.
-/
import Mathlib.Data.List.Basic
import Mathlib.Data.List.Induction

set_option autoImplicit false

namespace PointerTree

open Option

variable {ι κ : Type}

/-- The node at the end of a path. -/
def find (child : ι → κ → Option ι) : ι → List κ → Option ι
  | id, [] => some id
  | id, k :: rest => (child id k).bind fun c => find child c rest

section Paths

variable {child child' : ι → κ → Option ι}

theorem find_append (a b : List κ) (id : ι) :
    find child id (a ++ b) = (find child id a).bind fun c => find child c b := by
  induction a generalizing b id with
  | nil => rfl
  | cons k a ih =>
    show (child id k).bind (fun c => find child c (a ++ b))
      = ((child id k).bind fun c => find child c a).bind fun c => find child c b
    rw [bind_assoc]
    congr 1
    funext c
    exact ih b c

theorem find_snoc (id : ι) (path : List κ) (k : κ) :
    find child id (path ++ [k]) = (find child id path).bind fun c => child c k := by
  rw [find_append]
  congr 1
  funext c
  unfold find
  cases child c k with
  | none => rfl
  | some d => rfl

end Paths

/-- A well formed tree: `live` are the nodes below the root. -/
structure Tree (child : ι → κ → Option ι) (root : ι) (live : ι → Prop) (parent : ι → ι)
    (label : ι → κ) (rank : ι → ℕ) : Prop where
  root_not_live : ¬ live root
  down : ∀ p k c, p = root ∨ live p → child p k = some c → live c ∧ parent c = p ∧ label c = k
  up : ∀ c, live c →
    ((parent c = root) ∨ (live (parent c) ∧ rank (parent c) < rank c)) ∧
      child (parent c) (label c) = some c

namespace Tree

variable {child : ι → κ → Option ι} {root : ι} {live : ι → Prop} {parent : ι → ι}
  {label : ι → κ} {rank : ι → ℕ}

theorem found (h : Tree child root live parent label rank) : ∀ {path : List κ} {id : ι},
    find child root path = some id → (path = [] ∧ id = root) ∨ (path ≠ [] ∧ live id) := by
  intro path
  induction path using List.reverseRecOn with
  | nil =>
    intro id hid
    exact Or.inl ⟨rfl, (Option.some.inj hid).symm⟩
  | append_singleton path k ih =>
    intro id hid
    rw [find_snoc] at hid
    obtain ⟨p, hp, hpk⟩ := bind_eq_some_iff.mp hid
    have hlive : p = root ∨ live p := by
      rcases ih hp with ⟨-, hroot⟩ | ⟨-, hlive⟩
      · exact Or.inl hroot
      · exact Or.inr hlive
    exact Or.inr ⟨by simp, (h.down p k id hlive hpk).1⟩

variable {id : ι}

section

variable (h : Tree child root live parent label rank)
include h

theorem live_of_found {path : List κ} (hid : find child root path = some id) (hne : path ≠ []) :
    live id := by
  rcases h.found hid with ⟨hnil, -⟩ | ⟨-, hlive⟩
  · exact absurd hnil hne
  · exact hlive

/-- **A node is at the end of one path only.** -/
theorem find_inj : ∀ {a b : List κ} {id : ι},
    find child root a = some id → find child root b = some id → a = b := by
  intro a
  induction a using List.reverseRecOn with
  | nil =>
    intro b id ha hb
    cases ha
    rcases h.found hb with ⟨hnil, -⟩ | ⟨-, hlive⟩
    · exact hnil.symm
    · exact absurd hlive h.root_not_live
  | append_singleton a k ih =>
    intro b id ha hb
    rcases List.eq_nil_or_concat' b with rfl | ⟨b, l, rfl⟩
    · cases hb
      exact absurd (h.live_of_found ha (by simp)) h.root_not_live
    · rw [find_snoc] at ha hb
      obtain ⟨p, hp, hpk⟩ := bind_eq_some_iff.mp ha
      obtain ⟨q, hq, hql⟩ := bind_eq_some_iff.mp hb
      have hlive : ∀ {path : List κ} {r : ι}, find child root path = some r →
          r = root ∨ live r := by
        intro path r hr
        rcases h.found hr with ⟨-, hroot⟩ | ⟨-, hlive⟩
        · exact Or.inl hroot
        · exact Or.inr hlive
      obtain ⟨-, hparent, hlabel⟩ := h.down p k id (hlive hp) hpk
      obtain ⟨-, hparent', hlabel'⟩ := h.down q l id (hlive hq) hql
      obtain rfl : p = q := hparent.symm.trans hparent'
      rw [ih hp hq, ← hlabel, ← hlabel']

/-- **Every node is at the end of a path.** -/
theorem exists_path (hid : live id) : ∃ path, find child root path = some id := by
  have hall : ∀ (n : ℕ) (id : ι), rank id = n → live id →
      ∃ path, find child root path = some id := by
    intro n
    induction n using Nat.strongRecOn with
    | ind n ih =>
      intro id hn hlive
      obtain ⟨hparent, hchild⟩ := h.up id hlive
      rcases hparent with hroot | ⟨hup, hlt⟩
      · refine ⟨[label id], ?_⟩
        rw [hroot] at hchild
        exact bind_eq_some_iff.mpr ⟨id, hchild, rfl⟩
      · obtain ⟨path, hpath⟩ := ih _ (hn ▸ hlt) (parent id) rfl hup
        refine ⟨path ++ [label id], ?_⟩
        rw [find_snoc, hpath]
        exact hchild
  exact hall _ id rfl hid

/-- All but the last label of a path lead to the parent. -/
theorem found_snoc {path : List κ} {k : κ} (hid : find child root (path ++ [k]) = some id) :
    find child root path = some (parent id) := by
  rw [find_snoc] at hid
  obtain ⟨p, hp, hpk⟩ := bind_eq_some_iff.mp hid
  have hlive : p = root ∨ live p := by
    rcases h.found hp with ⟨-, hroot⟩ | ⟨-, hlive⟩
    · exact Or.inl hroot
    · exact Or.inr hlive
  rw [(h.down p k id hlive hpk).2.1]
  exact hp

end

/-! ## 2. One pointer more, one pointer less -/

variable {child' : ι → κ → Option ι} [DecidableEq ι] [DecidableEq κ]

/-- **A new leaf** adds the paths that end in it. -/
theorem find_add (h : Tree child root live parent label rank) {p n : ι} {k : κ}
    (hnew : ∀ id, id = root ∨ live id → id ≠ n) (hleaf : ∀ l, child' n l = none)
    (hfree : child p k = none)
    (heq : ∀ id l, id ≠ n → child' id l = if id = p ∧ l = k then some n else child id l) :
    ∀ {path : List κ} {id : ι}, find child' root path = some id ↔ find child root path = some id ∨
        (id = n ∧ ∃ q, path = q ++ [k] ∧ find child root q = some p) := by
  have hlive : ∀ {path : List κ} {r : ι}, find child root path = some r → r ≠ n := by
    intro path r hr
    rcases h.found hr with ⟨-, hroot⟩ | ⟨-, hlive⟩
    · exact hnew r (Or.inl hroot)
    · exact hnew r (Or.inr hlive)
  intro path
  induction path using List.reverseRecOn with
  | nil =>
    intro id
    constructor
    · exact Or.inl
    · rintro (hid | ⟨-, q, hq, -⟩)
      · exact hid
      · exact absurd hq.symm (by simp)
  | append_singleton path l ih =>
    intro id
    rw [find_snoc, find_snoc, bind_eq_some_iff, bind_eq_some_iff]
    constructor
    · rintro ⟨r, hr, hrl⟩
      rcases ih.mp hr with hold | ⟨rfl, -⟩
      · rw [heq r l (hlive hold)] at hrl
        split at hrl
        · next hat =>
          obtain ⟨rfl, rfl⟩ := hat
          exact Or.inr ⟨(Option.some.inj hrl).symm, path, rfl, hold⟩
        · exact Or.inl ⟨r, hold, hrl⟩
      · rw [hleaf] at hrl
        exact absurd hrl (by simp)
    · rintro (⟨r, hr, hrl⟩ | ⟨rfl, q, hq, hp⟩)
      · refine ⟨r, ih.mpr (Or.inl hr), ?_⟩
        rw [heq r l (hlive hr), if_neg]
        · exact hrl
        · rintro ⟨rfl, rfl⟩
          rw [hfree] at hrl
          exact absurd hrl (by simp)
      · obtain ⟨rfl, hl⟩ := List.append_inj' hq rfl
        obtain rfl := List.head_eq_of_cons_eq hl
        refine ⟨p, ih.mpr (Or.inl hp), ?_⟩
        rw [heq p l (hlive hp), if_pos ⟨rfl, rfl⟩]

/-- **Cutting a leaf off** takes the path to it, and no other. -/
theorem find_cut (h : Tree child root live parent label rank) {n : ι} (hn : live n)
    (hleaf : ∀ l, child n l = none) (heq : ∀ id l, id ≠ n →
      child' id l = if id = parent n ∧ l = label n then none else child id l) :
    ∀ {path : List κ} {id : ι}, find child' root path = some id ↔
      find child root path = some id ∧ id ≠ n := by
  intro path
  induction path using List.reverseRecOn with
  | nil =>
    intro id
    constructor
    · intro hid
      refine ⟨hid, ?_⟩
      rintro rfl
      cases hid
      exact h.root_not_live hn
    · exact And.left
  | append_singleton path l ih =>
    intro id
    rw [find_snoc, find_snoc, bind_eq_some_iff, bind_eq_some_iff]
    constructor
    · rintro ⟨r, hr, hrl⟩
      obtain ⟨hold, hne⟩ := ih.mp hr
      rw [heq r l hne] at hrl
      split at hrl
      · exact absurd hrl (by simp)
      · next hat =>
        refine ⟨⟨r, hold, hrl⟩, ?_⟩
        rintro rfl
        have hr' : r = root ∨ live r := (h.found hold).imp And.right And.right
        obtain ⟨-, hp, hl⟩ := h.down r l id hr' hrl
        exact hat ⟨hp.symm, hl.symm⟩
    · rintro ⟨⟨r, hr, hrl⟩, hne⟩
      have hrn : r ≠ n := by
        rintro rfl
        rw [hleaf] at hrl
        exact absurd hrl (by simp)
      refine ⟨r, ih.mpr ⟨hr, hrn⟩, ?_⟩
      rw [heq r l hrn, if_neg]
      · exact hrl
      · rintro ⟨rfl, rfl⟩
        obtain hup := (h.up n hn).2
        rw [hup] at hrl
        exact hne (Option.some.inj hrl).symm

end Tree

end PointerTree
