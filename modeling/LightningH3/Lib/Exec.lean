/-
Imperative computations that may raise, and rules of pre- and postconditions for
them.

An `Exec ε σ α` runs over a mutable state `σ` and either returns an `α` or raises an
`ε`; the state survives the exception, which is what makes a half-finished update
visible to whoever handles it. `Exec.Triple P m Q E` is the total reading of a Hoare
triple for such a computation: from a state in `P`, the run returns into `Q` or raises
into `E`. A specification that excludes exceptions has `E` empty.

The loop rule is stated over the processed front of the iterated list, so an
invariant can say which iterations have already happened.
-/
import Mathlib.Tactic.Common

set_option autoImplicit false

/-- A computation over the state `σ` that returns an `α` or raises an `ε`. The state
reached when an exception is raised is part of the result. -/
def Exec (ε σ α : Type) : Type := σ → Except ε α × σ

namespace Exec

open List

variable {ε σ τ α β : Type}

/-- Returning leaves the state alone; in a sequence, the second computation runs only
when the first one returned. -/
instance : Monad (Exec ε σ) where
  pure a := fun s => (.ok a, s)
  bind m f := fun s =>
    match m s with
    | (.ok a, s') => f a s'
    | (.error e, s') => (.error e, s')

/-- `raise e`. -/
def raise (e : ε) : Exec ε σ α := fun s => (.error e, s)

/-- Read the state. -/
def get : Exec ε σ σ := fun s => (.ok s, s)

/-- Apply a function to the state. -/
def modify (f : σ → σ) : Exec ε σ Unit := fun s => (.ok (), f s)

/-- `try: m  except BaseException: cleanup; raise`. -/
def onError (m : Exec ε σ α) (cleanup : σ → σ) : Exec ε σ α := fun s =>
  match m s with
  | (.ok a, s') => (.ok a, s')
  | (.error e, s') => (.error e, cleanup s')

/-- `for x in xs: f(x)`. -/
def forEach : List α → (α → Exec ε σ Unit) → Exec ε σ Unit
  | [], _ => pure ()
  | x :: xs, f => do
      f x
      forEach xs f

/-- `[f(x) for x in xs]`. -/
def mapEach : List α → (α → Exec ε σ β) → Exec ε σ (List β)
  | [], _ => pure []
  | x :: xs, f => do
      let y ← f x
      let ys ← mapEach xs f
      pure (y :: ys)

/-- Run a computation of a component `τ` of the state. -/
def zoom (read : σ → τ) (write : τ → σ → σ) (m : Exec ε τ α) : Exec ε σ α := fun s =>
  match m (read s) with
  | (r, t) => (r, write t s)

/-- An indexed buffer inside the state. -/
structure Buffer (σ ι ν : Type) where
  read : σ → ι → ν
  write : (ι → ν) → σ → σ
  read_write : ∀ b s, read (write b s) = b
  write_write : ∀ b b' s, write b (write b' s) = write b s
  write_read : ∀ s, write (read s) s = s

/-- `buffer[i] = f(buffer[i])`. -/
def Buffer.store {ι ν : Type} [DecidableEq ι] (buffer : Buffer σ ι ν) (i : ι) (f : ν → ν) :
    Exec ε σ Unit :=
  modify fun s => buffer.write (Function.update (buffer.read s) i (f (buffer.read s i))) s

/-- What a fallible write to one entry of a buffer does: it returns `a` with the entry
rewritten, or raises one of `Er` with the state as it was. -/
def Buffer.Writes {ι ν : Type} [DecidableEq ι] (buffer : Buffer σ ι ν) (m : Exec ε σ α) (i : ι)
    (f : ν → ν) (a : α) (Er : ε → Prop) : Prop :=
  ∀ s, m s = (.ok a, buffer.write (Function.update (buffer.read s) i (f (buffer.read s i))) s)
    ∨ ∃ e, Er e ∧ m s = (.error e, s)

variable {f : α → Exec ε σ β}

theorem bind_of_ok {m : Exec ε σ α} {s s' : σ} {a : α}
    (h : m s = (.ok a, s')) : (m >>= f) s = f a s' := by
  show (match m s with | (.ok a, s') => f a s' | (.error e, s') => (.error e, s')) = f a s'
  rw [h]

theorem bind_of_error {m : Exec ε σ α} {s s' : σ} {e : ε}
    (h : m s = (.error e, s')) : (m >>= f) s = (.error e, s') := by
  show (match m s with | (.ok a, s') => f a s' | (.error e, s') => (.error e, s'))
    = (.error e, s')
  rw [h]

theorem forEach_eq_mapEach (xs : List α) (f : α → Exec ε σ Unit) :
    forEach xs f = (do let _ ← mapEach xs f; pure ()) := by
  induction xs with
  | nil => rfl
  | cons x xs ih =>
    funext s
    cases hr : f x s with
    | mk r s₁ =>
      cases r with
      | error e =>
        have h1 : forEach (x :: xs) f s = (.error e, s₁) := bind_of_error hr
        have h2 : mapEach (x :: xs) f s = (.error e, s₁) := bind_of_error hr
        rw [h1, bind_of_error h2]
      | ok a =>
        have h1 : forEach (x :: xs) f s = forEach xs f s₁ := bind_of_ok hr
        have h2 : mapEach (x :: xs) f s
            = (do let ys ← mapEach xs f; pure (a :: ys) : Exec ε σ (List Unit)) s₁ :=
          bind_of_ok hr
        rw [h1, ih]
        cases hm : mapEach xs f s₁ with
        | mk r₂ s₂ =>
          cases r₂ with
          | error e =>
            rw [bind_of_error hm]
            rw [bind_of_error hm] at h2
            rw [bind_of_error h2]
          | ok ys =>
            rw [bind_of_ok hm]
            rw [bind_of_ok hm] at h2
            have h3 : mapEach (x :: xs) f s = (.ok (a :: ys), s₂) := h2
            rw [bind_of_ok h3]

/-! ## Triples -/

/-- From every state in `P`, `m` returns into `Q` or raises into `E`. -/
def Triple (P : σ → Prop) (m : Exec ε σ α) (Q : α → σ → Prop) (E : ε → σ → Prop) : Prop :=
  ∀ s, P s →
    (∀ a s', m s = (.ok a, s') → Q a s') ∧ (∀ e s', m s = (.error e, s') → E e s')

/-- The empty exceptional postcondition: the computation does not raise. -/
def NoRaise : ε → σ → Prop := fun _ _ => False

namespace Triple

variable {P P' : σ → Prop} {Q Q' : α → σ → Prop} {E E' : ε → σ → Prop} {R : β → σ → Prop}

variable {m : Exec ε σ α} {s : σ}

theorem of_ok {s₁ : σ} {a : α} (h : m s = (.ok a, s₁)) (hq : Q a s₁) :
    (∀ b s', m s = (.ok b, s') → Q b s') ∧ (∀ e s', m s = (.error e, s') → E e s') := by
  rw [h]
  refine ⟨fun b s' hb => ?_, fun e s' he => by simp at he⟩
  obtain ⟨rfl, rfl⟩ := hb
  exact hq

theorem of_error {s₁ : σ} {e : ε} (h : m s = (.error e, s₁)) (he : E e s₁) :
    (∀ b s', m s = (.ok b, s') → Q b s') ∧ (∀ e' s', m s = (.error e', s') → E e' s') := by
  rw [h]
  refine ⟨fun b s' hb => by simp at hb, fun e' s' he' => ?_⟩
  obtain ⟨rfl, rfl⟩ := he'
  exact he

theorem mono (h : Triple P m Q E) (hP : ∀ s, P' s → P s) (hQ : ∀ a s, Q a s → Q' a s)
    (hE : ∀ e s, E e s → E' e s) : Triple P' m Q' E' := by
  intro s hs
  obtain ⟨hok, herr⟩ := h s (hP s hs)
  exact ⟨fun a s' ha => hQ a s' (hok a s' ha), fun e s' he => hE e s' (herr e s' he)⟩

theorem pure {a : α} (h : ∀ s, P s → Q a s) : Triple P (Pure.pure a : Exec ε σ α) Q E :=
  fun s hs => of_ok rfl (h s hs)

theorem modify {f : σ → σ} {Q : Unit → σ → Prop} (h : ∀ s, P s → Q () (f s)) :
    Triple P (Exec.modify f : Exec ε σ Unit) Q E :=
  fun s hs => of_ok rfl (h s hs)

/-- Sequencing: the first computation's postcondition is the second's precondition. -/
theorem bind (hm : Triple P m Q E) (hf : ∀ a, Triple (Q a) (f a) R E) : Triple P (m >>= f) R E := by
  intro s hs
  obtain ⟨hok, herr⟩ := hm s hs
  cases hr : m s with
  | mk r s₁ =>
    cases r with
    | ok a =>
      rw [bind_of_ok hr]
      exact hf a s₁ (hok a s₁ hr)
    | error e => exact of_error (bind_of_error hr) (herr e s₁ hr)

theorem get_bind {f : σ → Exec ε σ β} (hf : ∀ s₀, Triple (fun s => P s ∧ s = s₀) (f s₀) R E) :
    Triple P (Exec.get >>= f) R E := by
  intro s hs
  exact hf s s ⟨hs, rfl⟩

/-- The handler runs on the state the exception left, and the exception goes on. -/
theorem onError {cleanup : σ → σ} (hm : Triple P m Q E) (hc : ∀ e s, E e s → E' e (cleanup s)) :
    Triple P (Exec.onError m cleanup) Q E' := by
  intro s hs
  obtain ⟨hok, herr⟩ := hm s hs
  cases hr : m s with
  | mk r s₁ =>
    cases r with
    | ok a =>
      have heq : Exec.onError m cleanup s = (.ok a, s₁) := by simp only [Exec.onError, hr]
      exact of_ok heq (hok a s₁ hr)
    | error e =>
      have heq : Exec.onError m cleanup s = (.error e, cleanup s₁) := by
        simp only [Exec.onError, hr]
      exact of_error heq (hc e s₁ (herr e s₁ hr))

/-- **The loop rule.** `I done` holds after the iterations over the front `done`; one
iteration extends the front by its element. -/
theorem forEach {I : List α → σ → Prop} {f : α → Exec ε σ Unit} (xs done : List α) :
      (∀ front x back, done ++ xs = front ++ x :: back → done <+: front →
        Triple (I front) (f x) (fun _ => I (front ++ [x])) E) →
      Triple (I done) (Exec.forEach xs f) (fun _ => I (done ++ xs)) E := by
  induction xs generalizing done with
  | nil =>
    intro _
    rw [append_nil]
    exact Triple.pure (fun s hs => hs)
  | cons x xs ih =>
    intro hstep
    have hx : Triple (I done) (f x) (fun _ => I (done ++ [x])) E :=
      hstep done x xs rfl (prefix_refl done)
    have hrest : Triple (I (done ++ [x])) (Exec.forEach xs f)
        (fun _ => I ((done ++ [x]) ++ xs)) E := by
      refine ih (done ++ [x]) (fun front y back heq hpre => ?_)
      refine hstep front y back ?_ ((prefix_append done [x]).trans hpre)
      rw [← heq]; simp
    have hlist : done ++ x :: xs = (done ++ [x]) ++ xs := by simp
    rw [hlist]
    exact bind hx (fun _ => hrest)

/-- The list-building loop: as `forEach`, with the results collected so far. -/
theorem mapEach {I : List α → List β → σ → Prop} : ∀ (xs done : List α) (ys : List β),
      (∀ front x back zs, done ++ xs = front ++ x :: back → done <+: front →
        Triple (I front zs) (f x) (fun z => I (front ++ [x]) (zs ++ [z])) E) →
      Triple (I done ys) (Exec.mapEach xs f) (fun zs => I (done ++ xs) (ys ++ zs)) E := by
  intro xs
  induction xs with
  | nil =>
    intro done ys _
    refine Triple.pure (fun s hs => ?_)
    rw [append_nil, append_nil]; exact hs
  | cons x xs ih =>
    intro done ys hstep
    have hx : Triple (I done ys) (f x) (fun z => I (done ++ [x]) (ys ++ [z])) E :=
      hstep done x xs ys rfl (prefix_refl done)
    refine bind hx (fun z => ?_)
    have hrest : Triple (I (done ++ [x]) (ys ++ [z])) (Exec.mapEach xs f)
        (fun zs => I ((done ++ [x]) ++ xs) ((ys ++ [z]) ++ zs)) E := by
      refine ih (done ++ [x]) (ys ++ [z]) (fun front y back zs heq hpre => ?_)
      refine hstep front y back zs ?_ ((prefix_append done [x]).trans hpre)
      rw [← heq]; simp
    refine bind hrest (fun zs => Triple.pure (fun s hs => ?_))
    have h1 : done ++ x :: xs = (done ++ [x]) ++ xs := by simp
    have h2 : ys ++ z :: zs = (ys ++ [z]) ++ zs := by simp
    rw [h1, h2]; exact hs

section Buffers

variable {ι ν : Type} [DecidableEq ι] {buffer : Buffer σ ι ν}

/-- **Filling a buffer.** A loop that writes distinct entries, in any order, leaves each
written entry computed from its old value and every other entry alone; when it raises,
the entries outside the loop's are still alone. -/
theorem mapEach_writes {body : α → Exec ε σ β} {i : α → ι} {f : α → ν → ν} {g : α → β}
    {Er : ε → Prop} (s₀ : σ) (xs : List α) (hnd : (xs.map i).Nodup)
    (hbody : ∀ x ∈ xs, buffer.Writes (body x) (i x) (f x) (g x) Er) :
    Triple (fun s => s = s₀) (Exec.mapEach xs body)
      (fun ys s => ys = xs.map g ∧ ∃ b, s = buffer.write b s₀ ∧
        (∀ x ∈ xs, b (i x) = f x (buffer.read s₀ (i x))) ∧
        ∀ j, j ∉ xs.map i → b j = buffer.read s₀ j) (fun e s => Er e ∧ ∃ b, s = buffer.write b s₀ ∧
        ∀ j, j ∉ xs.map i → b j = buffer.read s₀ j) := by
  have hloop := mapEach (f := body)
    (E := fun e s => Er e ∧ ∃ b, s = buffer.write b s₀ ∧ ∀ j, j ∉ xs.map i → b j = buffer.read s₀ j)
    (I := fun front ys s => ys = front.map g ∧ ∃ b, s = buffer.write b s₀ ∧
      (∀ x ∈ front, b (i x) = f x (buffer.read s₀ (i x))) ∧
      ∀ j, j ∉ front.map i → b j = buffer.read s₀ j)
    xs [] []
    (by
      intro front x back ys heq _
      rw [nil_append] at heq
      have hx : x ∈ xs := by rw [heq]; simp
      have hfresh : i x ∉ front.map i := by
        rw [heq, map_append, nodup_append] at hnd
        intro hin
        exact hnd.2.2 _ hin _ (mem_cons_self ..) rfl
      rintro s ⟨rfl, b, rfl, hdone, hkeep⟩
      rcases hbody x hx (buffer.write b s₀) with hok | ⟨e, he, herr⟩
      · rw [buffer.read_write, buffer.write_write] at hok
        refine of_ok hok ⟨by simp, _, rfl, ?_, ?_⟩
        · intro y hy
          rcases mem_append.mp hy with hin | hin
          · have hne : i y ≠ i x := fun h => hfresh (h ▸ mem_map.mpr ⟨y, hin, rfl⟩)
            rw [Function.update_of_ne hne]
            exact hdone y hin
          · rw [mem_singleton.mp hin, Function.update_self, hkeep _ hfresh]
        · intro j hj
          rw [map_append, mem_append, not_or] at hj
          have hne : j ≠ i x := fun h => hj.2 (by simp [h])
          rw [Function.update_of_ne hne]
          exact hkeep j hj.1
      · refine of_error herr ⟨he, b, rfl, fun j hj => hkeep j (fun hin => hj ?_)⟩
        rw [heq, map_append]
        exact mem_append_left _ hin)
  refine hloop.mono ?_ (fun ys s h => by simpa using h) (fun _ _ h => h)
  rintro s rfl
  refine ⟨rfl, buffer.read s, (buffer.write_read s).symm, ?_, fun _ _ => rfl⟩
  intro x hx
  cases hx

theorem forEach_writes {body : α → Exec ε σ Unit} {i : α → ι} {f : α → ν → ν}
    {Er : ε → Prop} (s₀ : σ) (xs : List α) (hnd : (xs.map i).Nodup)
    (hbody : ∀ x ∈ xs, buffer.Writes (body x) (i x) (f x) () Er) :
    Triple (fun s => s = s₀) (Exec.forEach xs body)
      (fun _ s => ∃ b, s = buffer.write b s₀ ∧ (∀ x ∈ xs, b (i x) = f x (buffer.read s₀ (i x))) ∧
        ∀ j, j ∉ xs.map i → b j = buffer.read s₀ j) (fun e s => Er e ∧ ∃ b, s = buffer.write b s₀ ∧
        ∀ j, j ∉ xs.map i → b j = buffer.read s₀ j) := by
  rw [forEach_eq_mapEach]
  refine bind (mapEach_writes s₀ xs hnd hbody) (fun ys => Triple.pure ?_)
  rintro s ⟨_, h⟩
  exact h

end Buffers

theorem zoom {read : σ → τ} {write : τ → σ → σ} {m : Exec ε τ α} {P' : τ → Prop}
    {Q' : α → τ → Prop} {E' : ε → τ → Prop} (hm : Triple P' m Q' E') (hP : ∀ s, P s → P' (read s))
    (hQ : ∀ s a t, P s → Q' a t → Q a (write t s)) (hE : ∀ s e t, P s → E' e t → E e (write t s)) :
    Triple P (Exec.zoom read write m) Q E := by
  intro s hs
  obtain ⟨hok, herr⟩ := hm (read s) (hP s hs)
  cases hr : m (read s) with
  | mk r t =>
    have heq : Exec.zoom read write m s = (r, write t s) := by simp only [Exec.zoom, hr]
    cases r with
    | ok a => exact of_ok heq (hQ s a t hs (hok a t hr))
    | error e => exact of_error heq (hE s e t hs (herr e t hr))

theorem returns (h : Triple P m Q (NoRaise (ε := ε))) (hs : P s) :
    ∃ a s', m s = (.ok a, s') ∧ Q a s' := by
  obtain ⟨hok, herr⟩ := h s hs
  cases hr : m s with
  | mk r s' =>
    cases r with
    | ok a => exact ⟨a, s', rfl, hok a s' hr⟩
    | error e => exact (herr e s' hr).elim

end Triple

end Exec
