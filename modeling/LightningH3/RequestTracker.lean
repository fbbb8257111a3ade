/-
The request tracker and the dispatch policies of the disaggregation server
(`multimodal_gen/runtime/disaggregation/request_state.py`, `dispatch_policy.py`).

A tracker is a dictionary of records. `transition` refuses a new state that the table does not
allow; its callers swallow the refusal, so what matters below is which requests are tracked
and in which states they can be (`keys_transition`, `state_transition`). Metrics, locks and the time
of the last transition are left out.
-/
import Mathlib.Algebra.Order.Ring.Rat
import LightningH3.Lib.OrderedDict

set_option autoImplicit false

namespace LightningH3.DiffusionServer

open Option OrderedDict

/-- The ids of requests: given by a client, made by the server from a clock (`ds-…`), or made for a
denoiser (`glm-distributed::…::request::…`). -/
inductive RequestId
  | client (id : String)
  | ds (time : ℚ)
  | glm_distributed (group : ℕ) (request : ℕ)
  deriving DecidableEq, Repr

/-- `RoleType`, the roles of the pool. -/
inductive Role
  | encoder
  | denoiser
  | decoder
  deriving DecidableEq, Repr

/-- The value of a role, as messages carry it. -/
def Role.value : Role → String
  | .encoder => "encoder"
  | .denoiser => "denoiser"
  | .decoder => "decoder"

/-- `RequestState` -/
inductive RequestState
  | pending
  | encoder_waiting
  | encoder_running
  | encoder_done
  | denoising_waiting
  | denoising_running
  | denoising_done
  | decoder_waiting
  | decoder_running
  | done
  | failed
  | timed_out
  deriving DecidableEq, Repr

namespace RequestState

/-- `_TERMINAL_STATES` -/
def terminal : List RequestState := [done, failed, timed_out]

/-- `_ACTIVE_STATES` -/
def active (s : RequestState) : Bool := !terminal.contains s

/-- `_VALID_TRANSITIONS` -/
def valid_transitions : RequestState → List RequestState
  | pending => [encoder_waiting, encoder_running]
  | encoder_waiting => [encoder_running]
  | encoder_running => [encoder_done]
  | encoder_done => [denoising_waiting, denoising_running]
  | denoising_waiting => [denoising_running]
  | denoising_running => [denoising_waiting, denoising_done]
  | denoising_done => [decoder_waiting, decoder_running, done]
  | decoder_waiting => [decoder_running]
  | decoder_running => [done]
  | _ => []

/-- Whether `transition` goes from one state to another. -/
def allows (old_state new_state : RequestState) : Bool :=
  if terminal.contains new_state && new_state != done then old_state.active
  else old_state.valid_transitions.contains new_state

end RequestState

/-- `RequestRecord`; `instance_at` holds `encoder_instance`, `denoiser_instance` and
`decoder_instance`. -/
structure RequestRecord where
  state : RequestState
  submit_time : ℚ
  instance_at : Role → Option ℕ
  error : Option String

/-- The record that `transition` leaves. -/
def RequestRecord.move (record : RequestRecord) (new_state : RequestState) (error : Option String)
    (at_instance : Option (Role × ℕ)) : RequestRecord :=
  { record with
    state := new_state
    error := error.or record.error
    instance_at := fun role =>
      match at_instance with
      | some (role', idx) => if role = role' then some idx else record.instance_at role
      | none => record.instance_at role }

/-- `RequestTracker` -/
abbrev Tracker := OrderedDict RequestId RequestRecord

namespace Tracker

/-- `submit` at a time; a duplicate id is refused. -/
def submit (t : Tracker) (request_id : RequestId) (now : ℚ) : Option Tracker :=
  if request_id ∈ t.keys then none
  else some (t.set request_id ⟨.pending, now, fun _ => none, none⟩)

/-- `transition`; an unknown id and a state that is not allowed are refused. -/
def transition (t : Tracker) (request_id : RequestId) (new_state : RequestState)
    (error : Option String) (at_instance : Option (Role × ℕ)) : Option Tracker :=
  match t.get? request_id with
  | none => none
  | some record =>
    if record.state.allows new_state then
      some (t.set request_id (record.move new_state error at_instance))
    else none

/-- `transition` with the refusal swallowed (`except ValueError: pass`). -/
def move (t : Tracker) (request_id : RequestId) (new_state : RequestState) (error : Option String)
    (at_instance : Option (Role × ℕ)) : Tracker :=
  (t.transition request_id new_state error at_instance).getD t

/-- `find_timed_out` at a time. -/
def find_timed_out (t : Tracker) (timeout_s now : ℚ) : List RequestId :=
  (t.items.filter fun p =>
    p.2.state.active && decide (timeout_s < now - p.2.submit_time)).map Prod.fst

variable {t : Tracker} {request_id : RequestId} {new_state : RequestState} {error : Option String}
  {at_instance : Option (Role × ℕ)}

theorem get?_move (r : RequestId) : (t.move request_id new_state error at_instance).get? r =
      if r = request_id then
        (t.get? r).map fun record =>
          if record.state.allows new_state then record.move new_state error at_instance else record
      else t.get? r := by
  unfold move transition
  by_cases hr : r = request_id
  · subst hr
    rw [if_pos rfl]
    cases hget : t.get? r with
    | none =>
      exact hget
    | some record =>
      dsimp only
      rw [map_some]
      by_cases hallow : record.state.allows new_state = true
      · rw [if_pos hallow, if_pos hallow, getD_some, get?_set, if_pos rfl]
      · rw [if_neg hallow, if_neg hallow]
        exact hget
  · rw [if_neg hr]
    cases hget : t.get? request_id with
    | none => rfl
    | some record =>
      dsimp only
      by_cases hallow : record.state.allows new_state = true
      · rw [if_pos hallow, getD_some, get?_set, if_neg hr]
      · rw [if_neg hallow, getD_none]

variable {r : RequestId}

theorem keys_move : r ∈ (t.move request_id new_state error at_instance).keys ↔ r ∈ t.keys := by
  rw [mem_keys_iff, mem_keys_iff, get?_move]
  by_cases hr : r = request_id
  · rw [if_pos hr]
    cases t.get? r with
    | none => exact Iff.rfl
    | some record =>
      exact iff_of_true ⟨_, rfl⟩ ⟨_, rfl⟩
  · rw [if_neg hr]

theorem get?_move_ne (h : r ≠ request_id) :
    (t.move request_id new_state error at_instance).get? r = t.get? r := by
  rw [get?_move, if_neg h]

theorem get?_move_of_allows {record : RequestRecord} (hget : t.get? request_id = some record)
    (hallow : record.state.allows new_state = true) :
    (t.move request_id new_state error at_instance).get? request_id
      = some (record.move new_state error at_instance) := by
  rw [get?_move, if_pos rfl, hget, map_some, if_pos hallow]

theorem move_of_notMem (h : t.get? request_id = none) :
    t.move request_id new_state error at_instance = t := by
  unfold move transition
  rw [h]
  rfl

theorem mem_find_timed_out {timeout_s now : ℚ} :
    r ∈ t.find_timed_out timeout_s now ↔ ∃ record, t.get? r = some record ∧
      record.state.active = true ∧ timeout_s < now - record.submit_time := by
  unfold find_timed_out
  rw [List.mem_map]
  constructor
  · rintro ⟨⟨r', record⟩, hmem, rfl⟩
    obtain ⟨hin, hlate⟩ := List.mem_filter.mp hmem
    rw [Bool.and_eq_true, decide_eq_true_eq] at hlate
    exact ⟨record, get?_eq_some_iff.mpr hin, hlate⟩
  · rintro ⟨record, hget, hactive, hlate⟩
    refine ⟨(r, record), List.mem_filter.mpr ⟨get?_eq_some_iff.mp hget, ?_⟩, rfl⟩
    rw [Bool.and_eq_true, decide_eq_true_eq]
    exact ⟨hactive, hlate⟩

end Tracker

/-! ## Dispatch policies -/

/-- A dispatch policy with what it remembers. -/
inductive Policy
  | round_robin (next : ℕ)
  | max_free_slots (tiebreak : ℕ)

/-- The loop of `RoundRobin.select_with_capacity`: at most `n` tries. -/
def round_robin_loop (num_instances : ℕ) (free_slots : List ℤ) : ℕ → ℕ → Option ℕ × ℕ
  | 0, next => (none, next)
  | n + 1, next =>
    if 0 < free_slots.getD next 0 then (some next, (next + 1) % num_instances)
    else round_robin_loop num_instances free_slots n ((next + 1) % num_instances)

/-- The loop of `MaxFreeSlotsFirst.select_with_capacity`: the best instance and its free slots. -/
def max_free_slots_loop (num_instances tiebreak : ℕ) (free_slots : List ℤ) :
    ℕ → Option ℕ × ℤ
  | 0 => (none, 0)
  | i + 1 =>
    let (best_id, best_free) := max_free_slots_loop num_instances tiebreak free_slots i
    let free := free_slots.getD i 0
    if best_free < free then (some i, free)
    else if free = best_free ∧ 0 < best_free ∧ i = tiebreak % num_instances then
      (some i, best_free)
    else (best_id, best_free)

/-- `select_with_capacity` over the instances of a role. A role without instances has no slots to
look at, and the source stops with an `IndexError` there. -/
def Policy.select_with_capacity (policy : Policy) (free_slots : List ℤ) :
    Option (Option ℕ × Policy) :=
  if free_slots.length = 0 then none
  else
    match policy with
    | .round_robin next =>
      let (idx, next) := round_robin_loop free_slots.length free_slots free_slots.length next
      some (idx, .round_robin next)
    | .max_free_slots tiebreak =>
      let (idx, _) :=
        max_free_slots_loop free_slots.length tiebreak free_slots free_slots.length
      some (idx, .max_free_slots (tiebreak + 1))

variable {free_slots : List ℤ} {idx : ℕ}

theorem round_robin_loop_spec {num_instances : ℕ} {n next : ℕ} :
    (round_robin_loop num_instances free_slots n next).1 = some idx →
      0 < free_slots.getD idx 0 := by
  induction n generalizing next with
  | zero =>
    intro h
    cases h
  | succ n ih =>
    intro h
    unfold round_robin_loop at h
    by_cases hfree : 0 < free_slots.getD next 0
    · rw [if_pos hfree] at h
      cases h
      exact hfree
    · rw [if_neg hfree] at h
      exact ih h

theorem max_free_slots_loop_spec {num_instances tiebreak : ℕ} (n : ℕ) :
    0 ≤ (max_free_slots_loop num_instances tiebreak free_slots n).2 ∧
      ∀ idx, (max_free_slots_loop num_instances tiebreak free_slots n).1 = some idx →
        0 < free_slots.getD idx 0 := by
  induction n with
  | zero =>
    refine ⟨le_refl 0, ?_⟩
    intro idx h
    cases h
  | succ n ih =>
    obtain ⟨hnonneg, hbest⟩ := ih
    unfold max_free_slots_loop
    dsimp only
    split
    · next hmore =>
      refine ⟨le_of_lt (lt_of_le_of_lt hnonneg hmore), ?_⟩
      intro idx h
      cases h
      exact lt_of_le_of_lt hnonneg hmore
    · split
      · next htie =>
        obtain ⟨heq, hpos, _⟩ := htie
        refine ⟨hnonneg, ?_⟩
        intro idx h
        cases h
        rw [heq]
        exact hpos
      · exact ⟨hnonneg, hbest⟩

theorem select_with_capacity_free {policy policy' : Policy}
    (h : policy.select_with_capacity free_slots = some (some idx, policy')) :
    0 < free_slots.getD idx 0 := by
  unfold Policy.select_with_capacity at h
  by_cases hempty : free_slots.length = 0
  · rw [if_pos hempty] at h
    cases h
  · rw [if_neg hempty] at h
    cases policy with
    | round_robin next =>
      have hidx := congrArg Prod.fst (Option.some.inj h)
      exact round_robin_loop_spec hidx
    | max_free_slots tiebreak =>
      have hidx := congrArg Prod.fst (Option.some.inj h)
      exact (max_free_slots_loop_spec _).2 idx hidx

theorem lt_length_of_free (h : 0 < free_slots.getD idx 0) : idx < free_slots.length := by
  by_contra hlong
  rw [List.getD_eq_getElem?_getD, List.getElem?_eq_none (Nat.le_of_not_lt hlong)] at h
  exact lt_irrefl 0 h

end LightningH3.DiffusionServer
