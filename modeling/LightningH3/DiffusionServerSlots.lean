/-
The capacity slots of the disaggregation server (`_encoder_free_slots` and its siblings) in the
staged mode.

A ledger says, independently of the counters, which instance works on which request: a dispatch adds
an entry, the push of a role's output (or its result) removes one, and so does the end of the
request (`ledger_step`). The server finds the slot to give back in the record of the request, so the
counters follow the ledger as long as the messages fit the state of the record and a request only
ends where the server gives back what it still holds (`Orderly`): `slots_conserved`. A request that
ends by an error of its encoder shows what happens otherwise (`encoder_error_loses_slot`).
-/
import LightningH3.DiffusionServerReplies

set_option autoImplicit false

namespace LightningH3.DiffusionServer

open List Tracker OrderedDict

/-! ## The ledger -/

/-- An instance works on a request. -/
structure Hold where
  request_id : RequestId
  role : Role
  idx : ℕ
  deriving DecidableEq, Repr

def dispatches (trace : List Action) : List Hold :=
  trace.filterMap fun a =>
    match a with
    | .dispatch role request_id idx => some ⟨request_id, role, idx⟩
    | _ => none

/-- Whether a call releases an instance: its output has been pushed on, or it has given its result.
The denoiser of a request keeps its slot while the output waits for a decoder. -/
def releases (e : Event) (s : Server) (h : Hold) : Bool :=
  match e with
  | .transfer role (.pushed request_id) => decide (h.request_id = request_id ∧ h.role = role)
  | .transfer .denoiser (.done msg) =>
    decide (h.request_id = msg.request_id ∧ h.role = .denoiser) &&
      !((truthy msg.error).isNone && msg.staged_for_decoder &&
        (s.transfer_of msg.request_id).isSome)
  | _ => false

/-- Whether a call ends a request. -/
def ends (s s' : Server) (request_id : RequestId) : Bool :=
  (s.state_of request_id).isSome && (s'.state_of request_id).isNone

/-- The ledger after a call. -/
def ledger_step (e : Event) (s s' : Server) (L : List Hold) : List Hold :=
  ((L.filter fun h => !releases e s h) ++
    (dispatches s'.trace).drop (dispatches s.trace).length).filter fun h =>
      !ends s s' h.request_id

/-- Whether a request holds a slot of a role. -/
def Holds (L : List Hold) (request_id : RequestId) (role : Role) : Prop :=
  ∃ idx, (⟨request_id, role, idx⟩ : Hold) ∈ L

/-- The requests that wait for an instance of a role. -/
def queue_ids (s : Server) (role : Role) : List RequestId :=
  match role with
  | .encoder => s.encoder_tta.map EncoderTTAEntry.request_id
  | .denoiser => s.denoiser_tta.map RoleTTAEntry.request_id
  | .decoder => s.decoder_tta.map RoleTTAEntry.request_id

/-- The call that ends a request gives back the slot of one role, if any: that is all it holds. -/
def HoldsOnly (L : List Hold) (request_id : RequestId) (frees : Option Role) : Prop :=
  ∀ role, Holds L request_id role ↔ frees = some role

/-- A request may end with the slot of one role given back. -/
def MayEnd (s : Server) (L : List Hold) (request_id : RequestId) (frees : Option Role) : Prop :=
  s.state_of request_id ≠ none →
    HoldsOnly L request_id frees ∧ ∀ role, request_id ∉ queue_ids s role

/-- The role itself, when the record of a request names an instance of it. -/
def named (s : Server) (role : Role) (request_id : RequestId) : Option Role :=
  (s.instance_of role request_id).map fun _ => role

/-- The role whose slot a timeout gives back. -/
def timeout_frees (s : Server) (request_id : RequestId) : Option Role :=
  ((s.state_of request_id).bind timeout_role).bind fun role => named s role request_id

/-- The message fits what the server knows: it finds the slot that is released, and a request that
ends holds no other. -/
def Orderly (c : Config) (now : ℚ) (s : Server) (L : List Hold) : Event → Prop
  | .transfer _ (.staged msg) => s.state_of msg.request_id = some .encoder_running
  | .transfer role (.pushed request_id) =>
    match (s.transfer_of request_id).bind fun _ =>
        (s.state_of request_id).bind pushed_sender with
    | none => ¬ Holds L request_id role
    | some sender => sender = role ∧ Holds L request_id role
  | .transfer .denoiser (.done msg) =>
    if (truthy msg.error).isSome then MayEnd s L msg.request_id (named s .denoiser msg.request_id)
    else if msg.staged_for_decoder ∧ (s.transfer_of msg.request_id).isSome then
      s.state_of msg.request_id = some .denoising_running
    else Holds L msg.request_id .denoiser ↔ (s.instance_of .denoiser msg.request_id).isSome
  | .transfer .decoder (.done msg) =>
    MayEnd s L msg.request_id (named s .decoder msg.request_id)
  | .frames .decoder frames =>
    ∀ r, frames.request_id = some r → MayEnd s L r (named s .decoder r)
  | .frames _ frames =>
    ∀ r, frames.request_id = some r → (truthy frames.disagg_error).isSome → MayEnd s L r none
  | .timeouts =>
    ∀ r ∈ s.tracker.find_timed_out c.timeout_s now, HoldsOnly L r (timeout_frees s r)
  | _ => True

/-- A run with its ledger, whose calls all meet a condition. -/
inductive LedgerRun (c : Config) (P : ℚ → Server → List Hold → Event → Prop) :
    Server → List Hold → Prop
  | init : LedgerRun c P (Server.init c) []
  | step {s s' : Server} {L : List Hold} {now : ℚ} {e : Event} (hs : LedgerRun c P s L)
      (he : P now s L e) (hstep : handle c now e s = some s') :
      LedgerRun c P s' (ledger_step e s s' L)

/-- The slots of an instance that are in use. -/
def in_use (L : List Hold) (role : Role) (idx : ℕ) : ℕ :=
  L.countP fun h => decide (h.role = role ∧ h.idx = idx)

/-- **The slots are conserved**: the free slots and those in use are the capacity, the counter stays
between zero and the capacity, and it is at the capacity when no request is tracked. -/
def Conserved (c : Config) (s : Server) (L : List Hold) : Prop :=
  ∀ role idx, idx < (c.endpoints role).length →
    (s.free_slots role).getD idx 0 + in_use L role idx = c.capacity role ∧
    0 ≤ (s.free_slots role).getD idx 0 ∧ (s.free_slots role).getD idx 0 ≤ c.capacity role ∧
    (s.tracker.keys = [] → (s.free_slots role).getD idx 0 = c.capacity role)

/-! ## The invariant -/

/-- The states in which a request may hold a slot of a role. -/
def may_hold : RequestState → Role → Bool
  | .pending, _ => false
  | .encoder_waiting, _ => false
  | _, .encoder => true
  | .denoising_running, .denoiser => true
  | .denoising_done, .denoiser => true
  | .decoder_waiting, .denoiser => true
  | .decoder_running, _ => true
  | _, _ => false

/-- The state of a request that waits for an instance of a role. -/
def Role.waiting : Role → RequestState
  | .encoder => .encoder_waiting
  | .denoiser => .denoising_waiting
  | .decoder => .decoder_waiting

/-- The counters follow the ledger, each entry of which the record of its request names, and the
queues hold requests in the state of waiting. -/
structure Ledgered (c : Config) (s : Server) (L : List Hold) : Prop where
  staged : s.glm = none
  length : ∀ role, (s.free_slots role).length = (c.endpoints role).length
  nonneg : ∀ role idx, 0 ≤ (s.free_slots role).getD idx 0
  balance : ∀ role idx, idx < (c.endpoints role).length →
    (s.free_slots role).getD idx 0 + in_use L role idx = c.capacity role
  once : (L.map fun h => (h.request_id, h.role)).Nodup
  held : ∀ h ∈ L, ∃ record, s.tracker.get? h.request_id = some record ∧
    record.instance_at h.role = some h.idx ∧ may_hold record.state h.role = true
  queued_once : ∀ role, (queue_ids s role).Nodup
  queued : ∀ role, ∀ r ∈ queue_ids s role, s.state_of r = some role.waiting

variable {c : Config} {s s' : Server} {L : List Hold} {r : RequestId}

theorem state_of_eq_some_iff {state : RequestState} : s.state_of r = some state ↔
      ∃ record, s.tracker.get? r = some record ∧ record.state = state :=
  Option.map_eq_some_iff

theorem Role.waiting_inj {role role' : Role} (h : role.waiting = role'.waiting) : role = role' := by
  cases role <;> cases role' <;> first | rfl | cases h

theorem holds_of_mem {a : Hold} (ha : a ∈ L) (hr : a.request_id = r) : Holds L r a.role :=
  ⟨a.idx, by rw [← hr]; exact ha⟩

variable {role : Role}

namespace Ledgered

theorem tracked (h : Ledgered c s L) {a : Hold} (ha : a ∈ L) :
    (s.state_of a.request_id).isSome = true := by
  obtain ⟨record, hget, _⟩ := h.held a ha
  rw [state_of_eq_some_iff.mpr ⟨record, hget, rfl⟩]
  rfl

section

variable {r : RequestId} {state : RequestState} (h : Ledgered c s L)
  (hstate : s.state_of r = some state)
include h hstate

theorem not_queued (hwait : ∀ role : Role, state ≠ role.waiting) :
    ∀ role, r ∉ queue_ids s role := by
  intro role hin
  have hwaits := h.queued role r hin
  rw [hstate] at hwaits
  exact hwait role (Option.some.inj hwaits)

theorem may_hold_of (hhold : Holds L r role) : may_hold state role = true := by
  obtain ⟨idx, hmem⟩ := hhold
  obtain ⟨record, hget, _, hmay⟩ := h.held _ hmem
  obtain ⟨record', hget', hrecord⟩ := state_of_eq_some_iff.mp hstate
  rw [← hrecord, ← Option.some.inj (hget.symm.trans hget')]
  exact hmay

end

end Ledgered

/-- The counters and the ledger stay: what is left to show is what the tracker and the queues
say. -/
theorem Ledgered.rebook (h : Ledgered c s L) (hglm : s'.glm = s.glm)
    (hslots : s'.free_slots = s.free_slots)
    (hheld : ∀ a ∈ L, ∃ record, s'.tracker.get? a.request_id = some record ∧
      record.instance_at a.role = some a.idx ∧ may_hold record.state a.role = true)
    (hqueued_once : ∀ role, (queue_ids s' role).Nodup)
    (hqueued : ∀ role, ∀ r ∈ queue_ids s' role, s'.state_of r = some role.waiting) :
    Ledgered c s' L where
  staged := hglm.trans h.staged
  length := fun role => by rw [hslots]; exact h.length role
  nonneg := fun role idx => by rw [hslots]; exact h.nonneg role idx
  balance := fun role idx hidx => by rw [hslots]; exact h.balance role idx hidx
  once := h.once
  held := hheld
  queued_once := hqueued_once
  queued := hqueued

theorem Ledgered.conserved (h : Ledgered c s L) : Conserved c s L := by
  intro role idx hidx
  have hbalance := h.balance role idx hidx
  have hnonneg := h.nonneg role idx
  refine ⟨hbalance, hnonneg, ?_, ?_⟩
  · omega
  · intro hempty
    have hL : L = [] := by
      apply eq_nil_iff_forall_not_mem.mpr
      intro hold hmem
      obtain ⟨record, hget, _⟩ := h.held hold hmem
      have hkey := mem_keys_iff.mpr ⟨record, hget⟩
      rw [hempty] at hkey
      exact not_mem_nil hkey
    rw [hL] at hbalance
    have hnone : in_use [] role idx = 0 := rfl
    omega

/-! ## Steps that leave the books alone -/

/-- Neither the counters nor the tracker nor the queues change, and nothing is dispatched. -/
structure SameBooks (s s' : Server) : Prop where
  tracker : s'.tracker = s.tracker
  free_slots : s'.free_slots = s.free_slots
  encoder_tta : s'.encoder_tta = s.encoder_tta
  denoiser_tta : s'.denoiser_tta = s.denoiser_tta
  decoder_tta : s'.decoder_tta = s.decoder_tta
  glm : s'.glm = s.glm
  dispatched : dispatches s'.trace = dispatches s.trace

namespace SameBooks

theorem refl (s : Server) : SameBooks s s := ⟨rfl, rfl, rfl, rfl, rfl, rfl, rfl⟩

section

variable (h : SameBooks s s')
include h

theorem queue_ids_eq (role : Role) : queue_ids s' role = queue_ids s role := by
  unfold queue_ids
  rw [h.encoder_tta, h.denoiser_tta, h.decoder_tta]

theorem not_queued (hr : ∀ role, r ∉ queue_ids s role) : ∀ role, r ∉ queue_ids s' role := by
  intro role
  rw [h.queue_ids_eq]
  exact hr role

theorem state_of (r : RequestId) : s'.state_of r = s.state_of r := by
  unfold Server.state_of
  rw [h.tracker]

theorem ledgered (hs : Ledgered c s L) : Ledgered c s' L := by
  refine hs.rebook h.glm h.free_slots ?_ ?_ ?_
  · rw [h.tracker]
    exact hs.held
  · intro role
    rw [h.queue_ids_eq]
    exact hs.queued_once role
  · intro role r hr
    rw [h.queue_ids_eq] at hr
    rw [h.state_of]
    exact hs.queued role r hr

end

theorem forget_transfer (s : Server) (request_id : RequestId) :
    SameBooks s (s.forget_transfer request_id) :=
  ⟨rfl, rfl, rfl, rfl, rfl, rfl, rfl⟩

theorem new_transfer (s : Server) (request_id : RequestId) (p2p : TransferRequestState) :
    SameBooks s (s.new_transfer request_id p2p) :=
  ⟨rfl, rfl, rfl, rfl, rfl, rfl, rfl⟩

theorem act (s : Server) {a : Action} (ha : dispatches [a] = []) : SameBooks s (s.act a) :=
  ⟨rfl, rfl, rfl, rfl, rfl, rfl, by
    unfold Server.act dispatches
    rw [filterMap_append]
    have hnone : List.filterMap _ [a] = [] := ha
    rw [hnone, append_nil]⟩

theorem answer (s : Server) (request_id : RequestId) (error : Option String) :
    SameBooks s (s.answer request_id error) := by
  unfold Server.answer
  cases s.pending.get? request_id with
  | none => exact refl s
  | some i =>
    exact ⟨rfl, rfl, rfl, rfl, rfl, rfl, (act s (a := .reply i request_id error) rfl).dispatched⟩

end SameBooks

theorem Exchange.books (h : Exchange s s') : SameBooks s s' where
  tracker := by rw [h.rest]
  free_slots := by rw [h.rest]
  encoder_tta := by rw [h.rest]
  denoiser_tta := by rw [h.rest]
  decoder_tta := by rw [h.rest]
  glm := by rw [h.rest]
  dispatched := by
    obtain ⟨l, hl, hsends⟩ := h.trace
    have hnone : dispatches l = [] := by
      apply filterMap_eq_nil_iff.mpr
      intro a ha
      cases a with
      | dispatch role request_id idx => cases hsends _ ha
      | _ => rfl
    unfold dispatches at hnone ⊢
    rw [hl, filterMap_append, hnone, append_nil]

/-! ## One slot, one entry -/

theorem perm_cons_filter {α β : Type} [DecidableEq β] (key : α → β) : ∀ {l : List α} {a : α},
    (l.map key).Nodup → a ∈ l → l.Perm (a :: l.filter fun b => decide (key b ≠ key a)) := by
  intro l
  induction l with
  | nil => exact fun _ h => absurd h not_mem_nil
  | cons b l ih =>
    intro a hnodup hmem
    rw [map_cons, nodup_cons] at hnodup
    obtain ⟨hb, hl⟩ := hnodup
    rcases mem_cons.mp hmem with heq | hin
    · subst heq
      have hkeep : (a :: l).filter (fun b => decide (key b ≠ key a)) = l := by
        rw [filter_cons_of_neg (by simp)]
        apply filter_eq_self.mpr
        intro x hx
        rw [decide_eq_true_eq]
        intro hxa
        exact hb (hxa ▸ mem_map_of_mem hx)
      rw [hkeep]
    · have hne : key b ≠ key a := fun hba => hb (hba ▸ mem_map_of_mem hin)
      rw [filter_cons_of_pos (by simpa using hne)]
      exact ((ih hl hin).cons b).trans (List.Perm.swap a b _)

theorem queue_ids_tta (s : Server) {role : Role} (hrole : role ≠ .encoder) :
    queue_ids s role = (s.tta role).map RoleTTAEntry.request_id := by
  cases role with
  | encoder => exact absurd rfl hrole
  | denoiser => rfl
  | decoder => rfl

theorem queue_ids_set_tta (s : Server) {role : Role} (hrole : role ≠ .encoder)
    (entries : List RoleTTAEntry) (role' : Role) : queue_ids (s.set_tta role entries) role' =
      if role' = role then entries.map RoleTTAEntry.request_id else queue_ids s role' := by
  cases role with
  | encoder => exact absurd rfl hrole
  | denoiser => cases role' <;> rfl
  | decoder => cases role' <;> rfl

theorem set_tta_rest (s : Server) (role : Role) (entries : List RoleTTAEntry) :
    s.set_tta role entries = { s with
      denoiser_tta := (s.set_tta role entries).denoiser_tta
      decoder_tta := (s.set_tta role entries).decoder_tta } := by
  cases role with
  | encoder => rfl
  | denoiser => rfl
  | decoder => rfl

theorem getD_add_slots (s : Server) (role role' : Role) (idx j : ℕ) (n : ℤ) :
    ((s.add_slots role idx n).free_slots role').getD j 0 = (s.free_slots role').getD j 0 +
        if role' = role ∧ j = idx ∧ idx < (s.free_slots role).length then n else 0 := by
  unfold Server.add_slots
  dsimp only
  by_cases hrole : role' = role
  · subst hrole
    rw [Function.update_self, getD_eq_getElem?_getD, getD_eq_getElem?_getD, getElem?_modify]
    by_cases hj : j = idx
    · subst hj
      by_cases hlen : j < (s.free_slots role').length
      · rw [if_pos ⟨rfl, rfl, hlen⟩, getElem?_eq_getElem hlen]
        simp
      · rw [if_neg (fun h => hlen h.2.2), getElem?_eq_none (Nat.le_of_not_lt hlen)]
        rfl
    · rw [if_neg (fun h => hj h.2.1)]
      simp [Ne.symm hj]
  · rw [Function.update_of_ne hrole, if_neg (fun h => hrole h.1), add_zero]

theorem length_add_slots (s : Server) (role role' : Role) (idx : ℕ) (n : ℤ) :
    ((s.add_slots role idx n).free_slots role').length = (s.free_slots role').length := by
  unfold Server.add_slots
  dsimp only
  by_cases hrole : role' = role
  · subst hrole
    rw [Function.update_self, length_modify]
  · rw [Function.update_of_ne hrole]

/-- The ledger without the slot of a role that a request holds. -/
def drop_hold (L : List Hold) (request_id : RequestId) (role : Role) : List Hold :=
  L.filter fun h => !decide (h.request_id = request_id ∧ h.role = role)

/-- **A slot given back.** The record of the request names the instance, so the counter of the
right instance goes up. -/
theorem Ledgered.release (h : Ledgered c s L) {request_id : RequestId}
    (hheld : Holds L request_id role) :
    Ledgered c (s.free_slot role (s.instance_of role request_id))
      (drop_hold L request_id role) := by
  obtain ⟨idx, hmem⟩ := hheld
  obtain ⟨record, hget, hat, _⟩ := h.held _ hmem
  have hinstance : s.instance_of role request_id = some idx := by
    unfold Server.instance_of
    rw [hget]
    exact hat
  rw [hinstance]
  have hdrop : drop_hold L request_id role
      = L.filter fun a => decide ((a.request_id, a.role) ≠ (request_id, role)) := by
    apply filter_congr
    intro a _
    simp only [Prod.mk.injEq, decide_not]
  have hperm := perm_cons_filter (fun a : Hold => (a.request_id, a.role)) h.once hmem
  have huse : ∀ role' j, in_use L role' j = in_use (drop_hold L request_id role) role' j +
      if role' = role ∧ j = idx then 1 else 0 := by
    intro role' j
    unfold in_use
    rw [hperm.countP_eq, countP_cons, hdrop]
    congr 1
    by_cases heq : role' = role ∧ j = idx
    · rw [if_pos heq, if_pos]
      rw [decide_eq_true_eq]
      exact ⟨heq.1.symm, heq.2.symm⟩
    · rw [if_neg heq, if_neg]
      rw [decide_eq_true_eq]
      exact fun h => heq ⟨h.1.symm, h.2.symm⟩
  refine ⟨h.staged, ?_, ?_, ?_, ?_, ?_, h.queued_once, h.queued⟩
  · exact fun role' => (length_add_slots s role role' idx 1).trans (h.length role')
  · intro role' j
    unfold Server.free_slot
    rw [getD_add_slots]
    have hnonneg := h.nonneg role' j
    split
    · omega
    · omega
  · intro role' j hj
    unfold Server.free_slot
    rw [getD_add_slots]
    have hbalance := h.balance role' j hj
    rw [huse] at hbalance
    by_cases heq : role' = role ∧ j = idx
    · obtain ⟨hr, hji⟩ := heq
      subst hr hji
      rw [if_pos ⟨rfl, rfl⟩] at hbalance
      rw [if_pos ⟨rfl, rfl, by rw [h.length]; exact hj⟩]
      omega
    · rw [if_neg heq] at hbalance
      rw [if_neg fun hall => heq ⟨hall.1, hall.2.1⟩]
      omega
  · exact (filter_sublist.map _).nodup h.once
  · exact fun a ha => h.held a (mem_of_mem_filter ha)

/-! ## Requests that move, wait and end -/

theorem state_of_transition (s : Server) (request_id r : RequestId) (new_state : RequestState)
    (error : Option String) (at_instance : Option (Role × ℕ)) (hr : r ≠ request_id) :
    (s.transition request_id new_state error at_instance).state_of r = s.state_of r := by
  unfold Server.state_of Server.transition
  rw [get?_move_ne hr]

variable {error : Option String}

/-- A transition that the state of the request allows. -/
theorem state_of_transition_self {state new_state : RequestState}
    (hstate : s.state_of r = some state) (hallow : state.allows new_state = true) :
    (s.transition r new_state error none).state_of r = some new_state := by
  obtain ⟨record, hget, hrecord⟩ := state_of_eq_some_iff.mp hstate
  refine state_of_eq_some_iff.mpr ⟨_, get?_move_of_allows hget ?_, rfl⟩
  rw [hrecord]
  exact hallow

theorem transition_of_not_allows {request_id : RequestId} {record : RequestRecord}
    {new_state : RequestState} {at_instance : Option (Role × ℕ)}
    (hget : s.tracker.get? request_id = some record)
    (hallow : record.state.allows new_state = false) :
    s.transition request_id new_state error at_instance = s := by
  unfold Server.transition Tracker.move Tracker.transition
  rw [hget]
  dsimp only
  rw [hallow]
  rfl

theorem transition_of_untracked {request_id : RequestId} {new_state : RequestState}
    {at_instance : Option (Role × ℕ)} (hget : s.tracker.get? request_id = none) :
    s.transition request_id new_state error at_instance = s := by
  unfold Server.transition
  rw [move_of_notMem hget]

theorem state_of_leave (s : Server) (request_id : RequestId) (new_state : RequestState)
    (error error' : Option String) (r : RequestId) :
    (s.leave request_id new_state error error').state_of r =
      if r = request_id then none else s.state_of r := by
  unfold Server.state_of
  rw [get?_leave]
  split
  · rfl
  · rfl

theorem queue_ids_leave (s : Server) (request_id : RequestId) (new_state : RequestState)
    (error error' : Option String) (role : Role) :
    queue_ids (s.leave request_id new_state error error') role = queue_ids s role := by
  rw [leave_rest]
  rfl

theorem dispatches_leave (s : Server) (request_id : RequestId) (new_state : RequestState)
    (error error' : Option String) :
    dispatches (s.leave request_id new_state error error').trace = dispatches s.trace :=
  (SameBooks.answer (s.transition request_id new_state error none) request_id error').dispatched

theorem queue_ids_free_slot (s : Server) (role role' : Role) (idx : Option ℕ) :
    queue_ids (s.free_slot role idx) role' = queue_ids s role' := by
  rw [free_slot_rest]
  rfl

section

variable (h : Ledgered c s L)
include h

/-- **A transition.** The request waits in no queue, and what it holds it may hold afterwards. -/
theorem Ledgered.transition {request_id : RequestId} {state : RequestState}
    (hstate : s.state_of request_id = some state) (new_state : RequestState)
    (error : Option String) (hwait : ∀ role : Role, state ≠ role.waiting)
    (hkeeps : ∀ role, may_hold state role = true → may_hold new_state role = true) :
    Ledgered c (s.transition request_id new_state error none) L := by
  refine h.rebook rfl rfl ?_ h.queued_once ?_
  · intro a ha
    obtain ⟨record, hget, hat, hmay⟩ := h.held a ha
    unfold Server.transition
    rw [get?_move]
    by_cases hr : a.request_id = request_id
    · rw [if_pos hr, hget, Option.map_some]
      obtain ⟨record', hget', hrecord⟩ := state_of_eq_some_iff.mp hstate
      cases hget.symm.trans (hr ▸ hget')
      split
      · exact ⟨_, rfl, hat, hkeeps a.role (hrecord ▸ hmay)⟩
      · exact ⟨record, rfl, hat, hmay⟩
    · rw [if_neg hr]
      exact ⟨record, hget, hat, hmay⟩
  · intro role r hr
    have hwaits := h.queued role r hr
    have hne : r ≠ request_id := by
      rintro rfl
      exact hwait role (Option.some.inj (hstate.symm.trans hwaits))
    rw [state_of_transition _ _ _ _ _ _ hne]
    exact hwaits

/-- **The end of a request** that holds nothing and waits nowhere. -/
theorem Ledgered.leave {request_id : RequestId} (new_state : RequestState)
    (error error' : Option String) (hhold : ∀ role, ¬ Holds L request_id role)
    (hqueue : ∀ role, request_id ∉ queue_ids s role) :
    Ledgered c (s.leave request_id new_state error error') L := by
  have hqueues := queue_ids_leave s request_id new_state error error'
  refine h.rebook (by rw [leave_rest]) (by rw [leave_rest]) ?_ ?_ ?_
  · intro a ha
    rw [get?_leave, if_neg fun heq => hhold a.role (holds_of_mem ha heq)]
    exact h.held a ha
  · intro role
    rw [hqueues]
    exact h.queued_once role
  · intro role r hr
    rw [hqueues] at hr
    have hne : r ≠ request_id := fun heq => hqueue role (heq ▸ hr)
    rw [state_of_leave, if_neg hne]
    exact h.queued role r hr

theorem Ledgered.enqueue (role : Role) (request_id : RequestId)
    (hqueue : ∀ role', queue_ids s' role' =
      if role' = role then queue_ids s role ++ [request_id] else queue_ids s role')
    (hfresh : request_id ∉ queue_ids s role) (hstate : s.state_of request_id = some role.waiting)
    (htracker : s'.tracker = s.tracker) (hfree : s'.free_slots = s.free_slots)
    (hglm : s'.glm = s.glm) : Ledgered c s' L := by
  refine h.rebook hglm hfree ?_ ?_ ?_
  · rw [htracker]
    exact h.held
  · intro role'
    rw [hqueue]
    split
    · refine nodup_append.mpr ⟨h.queued_once role, nodup_singleton _, ?_⟩
      intro a ha b hb heq
      rw [mem_singleton] at hb
      exact hfresh (hb ▸ heq ▸ ha)
    · exact h.queued_once role'
  · intro role' r hr
    unfold Server.state_of
    rw [htracker]
    rw [hqueue] at hr
    split at hr
    · next hrole =>
      rw [hrole]
      rcases mem_append.mp hr with hr | hr
      · exact h.queued role r hr
      · rw [mem_singleton.mp hr]
        exact hstate
    · exact h.queued role' r hr

/-- **A dispatch.** The first request of a queue leaves it and runs on an instance with a free
slot. -/
theorem Ledgered.dispatch {idx : ℕ} {request_id : RequestId}
    {rest : List RequestId} (hqueue : queue_ids s role = request_id :: rest)
    (hfree : 0 < (s.free_slots role).getD idx 0)
    (hrest : ∀ role', queue_ids s' role' = if role' = role then rest else queue_ids s role')
    (htracker : s'.tracker = s.tracker.move request_id role.running none (some (role, idx)))
    (hslots : s'.free_slots = (s.add_slots role idx (-1)).free_slots)
    (hglm : s'.glm = s.glm) : Ledgered c s' (L ++ [⟨request_id, role, idx⟩]) := by
  have hfirst : request_id ∈ queue_ids s role := by
    rw [hqueue]
    exact mem_cons_self
  have hwaits := h.queued role request_id hfirst
  obtain ⟨record, hget, hstate⟩ := state_of_eq_some_iff.mp hwaits
  have hallow : record.state.allows role.running = true := by
    rw [hstate]
    cases role <;> decide
  have hmoved : s'.tracker.get? request_id
      = some (record.move role.running none (some (role, idx))) := by
    rw [htracker]
    exact get?_move_of_allows hget hallow
  have hsame : ∀ r, r ≠ request_id → s'.tracker.get? r = s.tracker.get? r := by
    intro r hr
    rw [htracker]
    exact get?_move_ne hr
  -- a request that waits for a role holds no slot of that role
  have hnone : ¬ Holds L request_id role := by
    intro hhold
    have hmay := h.may_hold_of hwaits hhold
    cases role <;> cases hmay
  have hlen : idx < (s.free_slots role).length := lt_length_of_free hfree
  have hnodup := h.queued_once role
  rw [hqueue, nodup_cons] at hnodup
  refine ⟨hglm.trans h.staged, ?_, ?_, ?_, ?_, ?_, ?_, ?_⟩
  · intro role'
    rw [hslots, length_add_slots]
    exact h.length role'
  · intro role' j
    rw [hslots, getD_add_slots]
    have hnonneg := h.nonneg role' j
    split
    · next heq =>
      obtain ⟨hr, hj, _⟩ := heq
      subst hr hj
      omega
    · omega
  · intro role' j hj
    rw [hslots, getD_add_slots]
    have hbalance := h.balance role' j hj
    unfold in_use at hbalance ⊢
    rw [countP_append]
    by_cases heq : role' = role ∧ j = idx
    · obtain ⟨hr, hji⟩ := heq
      subst hr hji
      rw [if_pos ⟨rfl, rfl, hlen⟩]
      simp only [countP_singleton, and_self, decide_true, if_true]
      omega
    · rw [if_neg fun hall => heq ⟨hall.1, hall.2.1⟩]
      have hzero : List.countP (fun a : Hold => decide (a.role = role' ∧ a.idx = j))
          [⟨request_id, role, idx⟩] = 0 := by
        rw [countP_singleton, if_neg]
        rw [decide_eq_true_eq]
        exact fun hall => heq ⟨hall.1.symm, hall.2.symm⟩
      omega
  · rw [map_append, nodup_append]
    refine ⟨h.once, nodup_singleton _, ?_⟩
    intro a ha b hb heq
    rw [map_cons, map_nil, mem_singleton] at hb
    obtain ⟨x, hx, hxa⟩ := mem_map.mp ha
    rw [heq, hb, Prod.mk.injEq] at hxa
    obtain ⟨hid, hrole⟩ : x.request_id = request_id ∧ x.role = role := hxa
    exact hnone (hrole ▸ holds_of_mem hx hid)
  · intro a ha
    rcases mem_append.mp ha with hin | hnew
    · obtain ⟨record', hget', hat, hmay⟩ := h.held a hin
      by_cases hr : a.request_id = request_id
      · have hrecord : record = record' := by
          rw [hr] at hget'
          exact Option.some.inj (hget.symm.trans hget')
        have hne : a.role ≠ role := fun hrole => hnone (hrole ▸ holds_of_mem hin hr)
        refine ⟨_, by rw [hr]; exact hmoved, ?_, ?_⟩
        · unfold RequestRecord.move
          dsimp only
          rw [if_neg hne, hrecord]
          exact hat
        · rw [← hrecord, hstate] at hmay
          have hkeeps : ∀ role role' : Role, may_hold role.waiting role' = true →
              may_hold role.running role' = true := by
            intro role role'
            cases role <;> cases role' <;> decide
          exact hkeeps role a.role hmay
      · rw [hsame _ hr]
        exact ⟨record', hget', hat, hmay⟩
    · rw [mem_singleton] at hnew
      subst hnew
      refine ⟨_, hmoved, ?_, ?_⟩
      · unfold RequestRecord.move
        dsimp only
        rw [if_pos rfl]
      · cases role <;> rfl
  · intro role'
    rw [hrest]
    split
    · exact hnodup.2
    · exact h.queued_once role'
  · intro role' r hr
    have hne : r ≠ request_id ∧ r ∈ queue_ids s role' := by
      rw [hrest] at hr
      split at hr
      · next hrole =>
        refine ⟨fun heq => hnodup.1 (heq ▸ hr), ?_⟩
        rw [hrole, hqueue]
        exact mem_cons_of_mem _ hr
      · next hrole =>
        -- in no other queue either: the states of waiting differ
        refine ⟨?_, hr⟩
        rintro rfl
        exact hrole (Role.waiting_inj (Option.some.inj ((h.queued role' r hr).symm.trans hwaits)))
    unfold Server.state_of
    rw [hsame r hne.1]
    exact h.queued role' r hne.2

end

/-! ## The ledger after a call -/

/-- **The ledger after a call** in which no request ends. -/
theorem ledger_step_eq {e : Event} {kept D : List Hold}
    (hkept : (L.filter fun a => !releases e s a) = kept)
    (hd : dispatches s'.trace = dispatches s.trace ++ D) (hs' : Ledgered c s' (kept ++ D)) :
    ledger_step e s s' L = kept ++ D := by
  unfold ledger_step
  rw [hkept, hd, drop_left]
  apply filter_eq_self.mpr
  intro a ha
  unfold ends
  rw [← Option.not_isSome, hs'.tracked ha]
  simp

theorem filter_releases {e : Event} (hrel : ∀ a ∈ L, releases e s a = false) :
    (L.filter fun a => !releases e s a) = L := by
  apply filter_eq_self.mpr
  intro a ha
  rw [hrel a ha]
  rfl

/-- The ledger without a request. -/
def others (L : List Hold) (request_id : RequestId) : List Hold :=
  L.filter fun a => !decide (a.request_id = request_id)

theorem not_holds_others (L : List Hold) (request_id : RequestId) (role : Role) :
    ¬ Holds (others L request_id) request_id role := by
  rintro ⟨idx, hmem⟩
  have hkeep := (mem_filter.mp hmem).2
  simp at hkeep

theorem others_of_not_holds {request_id : RequestId} (h : ∀ role, ¬ Holds L request_id role) :
    others L request_id = L := by
  apply filter_eq_self.mpr
  intro a ha
  rw [Bool.not_eq_true', decide_eq_false_iff_not]
  exact fun heq => h a.role (holds_of_mem ha heq)

/-- **The ledger after a call** that ends one request. -/
theorem Ledgered.ended {e : Event} (h : Ledgered c s L) (hs' : Ledgered c s' (others L r))
    (hd : dispatches s'.trace = dispatches s.trace)
    (hrel : ∀ a, releases e s a = true → a.request_id = r)
    (hget : ∀ r', s'.state_of r' = if r' = r then none else s.state_of r') :
    Ledgered c s' (ledger_step e s s' L) := by
  have hledger : ledger_step e s s' L = others L r := by
    unfold ledger_step others
    rw [hd, drop_length, append_nil, filter_filter]
    apply filter_congr
    intro a ha
    have htracked := h.tracked ha
    unfold ends
    rw [hget]
    by_cases hr : a.request_id = r
    · rw [if_pos hr, htracked, decide_eq_true hr]
      rfl
    · have hnot : releases e s a = false := by
        rw [← Bool.not_eq_true]
        exact fun hrelease => hr (hrel a hrelease)
      rw [if_neg hr, hnot, decide_eq_false hr, ← Option.not_isSome, htracked]
      rfl
  rw [hledger]
  exact hs'

section

variable (h : Ledgered c s L)
include h

theorem Ledgered.untracked (hr : s.state_of r = none) :
    (∀ role, ¬ Holds L r role) ∧ ∀ role, r ∉ queue_ids s role := by
  constructor
  · rintro role ⟨idx, hmem⟩
    obtain ⟨record, hget, _⟩ := h.held _ hmem
    rw [Option.map_eq_none_iff.mp hr] at hget
    cases hget
  · intro role hin
    rw [h.queued role r hin] at hr
    cases hr

theorem Ledgered.mayEnd
    (hm : MayEnd s L r (named s role r)) :
    HoldsOnly L r (named s role r) ∧ ∀ role', r ∉ queue_ids s role' := by
  by_cases hr : s.state_of r = none
  · obtain ⟨hhold, hqueue⟩ := h.untracked hr
    refine ⟨?_, hqueue⟩
    have hnone : named s role r = none := by
      unfold named Server.instance_of
      rw [Option.map_eq_none_iff.mp hr]
      rfl
    intro role'
    rw [hnone]
    exact iff_of_false (hhold role') (by simp)
  · exact hm hr

/-- **The slot of a request that ends.** After the slot that its record names is given back the
request holds nothing. -/
theorem Ledgered.release_all
    (honly : HoldsOnly L r (named s role r)) :
    Ledgered c (s.free_slot role (s.instance_of role r)) (others L r) := by
  unfold named at honly
  cases hinstance : s.instance_of role r with
  | none =>
    rw [hinstance] at honly
    rw [others_of_not_holds fun role' hr => by cases (honly role').mp hr]
    exact h
  | some idx =>
    rw [hinstance] at honly
    have hrelease := h.release ((honly role).mpr rfl)
    rw [hinstance] at hrelease
    have hsame : drop_hold L r role = others L r := by
      apply filter_congr
      intro a ha
      congr 1
      rw [decide_eq_decide]
      refine ⟨fun hr => hr.1, fun hr => ⟨hr, ?_⟩⟩
      have hrole := (honly a.role).mp (holds_of_mem ha hr)
      exact (Option.some.inj hrole).symm
    rw [hsame] at hrelease
    exact hrelease

theorem Ledgered.finish
    (new_state : RequestState) (error error' : Option String) (hm : MayEnd s L r (named s role r)) :
    Ledgered c ((s.free_slot role (s.instance_of role r)).leave r new_state error error') (others L r) := by
  obtain ⟨honly, hqueue⟩ := h.mayEnd hm
  apply (h.release_all honly).leave
  · exact not_holds_others L r
  · intro role'
    rw [queue_ids_free_slot]
    exact hqueue role'

end

/-! ## One call -/

section calls

variable {e : Event}

theorem Ledgered.keep (hs' : Ledgered c s' L)
    (hd : dispatches s'.trace = dispatches s.trace) (hrel : ∀ a ∈ L, releases e s a = false) :
    Ledgered c s' (ledger_step e s s' L) := by
  rw [← append_nil L] at hs'
  rw [ledger_step_eq (filter_releases hrel) (by rw [hd, append_nil]) hs']
  exact hs'

theorem Ledgered.same (h : Ledgered c s L) (hbooks : SameBooks s s')
    (hrel : ∀ a ∈ L, releases e s a = false) : Ledgered c s' (ledger_step e s s' L) :=
  (hbooks.ledgered h).keep hbooks.dispatched hrel

variable {now : ℚ}

theorem Ledgered.submit (h : Ledgered c s L) {request_id : RequestId} {tracker : Tracker}
    (hsubmit : s.tracker.submit request_id now = some tracker) (pending : OrderedDict RequestId String) :
    Ledgered c { s with tracker := tracker, pending := pending } L ∧ s.state_of request_id = none ∧
      ∃ record, tracker.get? request_id = some record ∧ record.state = .pending := by
  unfold Tracker.submit at hsubmit
  by_cases hin : request_id ∈ s.tracker.keys
  · rw [if_pos hin] at hsubmit
    cases hsubmit
  · rw [if_neg hin] at hsubmit
    cases hsubmit
    have hnone := get?_eq_none_iff.mpr hin
    have hstate : s.state_of request_id = none := by
      unfold Server.state_of
      rw [hnone]
      rfl
    obtain ⟨_, hqueue⟩ := h.untracked hstate
    refine ⟨h.rebook rfl rfl ?_ h.queued_once ?_, hstate, _, get?_set .. |>.trans (if_pos rfl), rfl⟩
    · intro a ha
      obtain ⟨record, hget, hrest⟩ := h.held a ha
      have hne : a.request_id ≠ request_id := by
        intro heq
        rw [heq, hnone] at hget
        cases hget
      refine ⟨record, ?_, hrest⟩
      rw [get?_set, if_neg hne]
      exact hget
    · intro role r hr
      have hne : r ≠ request_id := fun heq => hqueue role (heq ▸ hr)
      unfold Server.state_of
      rw [get?_set, if_neg hne]
      exact h.queued role r hr

theorem Ledgered.client_request (h : Ledgered c s L) (now : ℚ) (frames : ClientFrames) :
    Ledgered c (handle_client_request now frames s)
      (ledger_step (.client_request frames) s (handle_client_request now frames s) L) := by
  unfold handle_client_request
  cases frames with
  | malformed => exact h.same (SameBooks.refl s) fun _ _ => rfl
  | other client_identity => exact h.same (SameBooks.act s rfl) fun _ _ => rfl
  | request client_identity payload req =>
    dsimp only
    cases hsubmit : s.tracker.submit (req.id now) now with
    | none => exact h.same (SameBooks.refl s) fun _ _ => rfl
    | some tracker =>
      dsimp only
      obtain ⟨hnew, hstate, record, hget, hpending⟩ :=
        h.submit hsubmit (s.pending.set (req.id now) client_identity)
      have hqueue := (h.untracked hstate).2
      obtain ⟨t, ht⟩ : ∃ t, { s with
        tracker := tracker, pending := s.pending.set (req.id now) client_identity }.act
          (.accept (req.id now) client_identity now) = t := ⟨_, rfl⟩
      have hbooks := SameBooks.act { s with
        tracker := tracker, pending := s.pending.set (req.id now) client_identity }
          (a := .accept (req.id now) client_identity now) rfl
      rw [ht] at hbooks ⊢
      have hstate_t : t.state_of (req.id now) = some .pending :=
        (hbooks.state_of _).trans (state_of_eq_some_iff.mpr ⟨record, hget, hpending⟩)
      have hwaiting := (hbooks.ledgered hnew).transition hstate_t .encoder_waiting none
        (fun role => by cases role <;> decide) nofun
      have hmoved : (t.transition (req.id now) .encoder_waiting none none).state_of (req.id now)
          = some .encoder_waiting :=
        state_of_transition_self hstate_t rfl
      have hglm : t.glm = none := hbooks.glm.trans h.staged
      unfold Server.enqueue
      split
      · next state hstate' =>
        have hsome : t.glm = some state := hstate'
        rw [hglm] at hsome
        cases hsome
      · apply Ledgered.keep
        · refine hwaiting.enqueue .encoder (req.id now) ?_ (hbooks.not_queued hqueue .encoder)
            hmoved rfl rfl rfl
          intro role'
          cases role' with
          | encoder => exact map_append
          | denoiser => rfl
          | decoder => rfl
        · exact hbooks.dispatched
        · exact fun _ _ => rfl

/-- A loop over a queue: the dispatches so far are in the ledger, and no request ends. -/
def Progress (c : Config) (s : Server) (L : List Hold) (s' : Server) : Prop :=
  ∃ D, dispatches s'.trace = dispatches s.trace ++ D ∧ Ledgered c s' (L ++ D) ∧
    ∀ r, (s.state_of r).isSome = true → (s'.state_of r).isSome = true

theorem Progress.trans {s'' : Server} (h : Progress c s L s')
    (h' : ∀ L', Ledgered c s' L' → Progress c s' L' s'') : Progress c s L s'' := by
  obtain ⟨D, hD, hL, hkeep⟩ := h
  obtain ⟨D', hD', hL', hkeep'⟩ := h' _ hL
  refine ⟨D ++ D', ?_, ?_, fun r hr => hkeep' r (hkeep r hr)⟩
  · rw [hD', hD, append_assoc]
  · rw [← append_assoc]
    exact hL'

theorem Progress.of_same (hbooks : SameBooks s s') (h : Ledgered c s L) : Progress c s L s' := by
  refine ⟨[], ?_, ?_, ?_⟩
  · rw [append_nil]
    exact hbooks.dispatched
  · rw [append_nil]
    exact hbooks.ledgered h
  · intro r hr
    rw [hbooks.state_of]
    exact hr

theorem Progress.ledger (hp : Progress c s L s')
    (hrel : ∀ a ∈ L, releases e s a = false) : Ledgered c s' (ledger_step e s s' L) := by
  obtain ⟨D, hD, hL, _⟩ := hp
  rw [ledger_step_eq (filter_releases hrel) hD hL]
  exact hL

theorem Progress.drain {step : Server → Option (Bool × Server)}
    (hstep : ∀ {s s' : Server} {L : List Hold} {b : Bool}, Ledgered c s L → step s = some (b, s') →
      Progress c s L s') (n : ℕ) :
    ∀ {s s' : Server} {L : List Hold}, Ledgered c s L → drain step n s = some s' →
      Progress c s L s' := by
  induction n with
  | zero =>
    intro s s' L h hdrain
    cases hdrain
    exact Progress.of_same (SameBooks.refl s) h
  | succ n ih =>
    intro s s' L h hdrain
    unfold DiffusionServer.drain at hdrain
    split at hdrain
    · cases hdrain
    · next hlast =>
      cases hdrain
      exact hstep h hlast
    · next hmore => exact (hstep h hmore).trans fun L' hL' => ih hL' hdrain

theorem select_spec {idx : Option ℕ} (h : s.select role = some (idx, s')) :
    SameBooks s s' ∧ ∀ i, idx = some i → 0 < (s'.free_slots role).getD i 0 := by
  refine ⟨(Exchange.select h).books, ?_⟩
  unfold Server.select at h
  rw [Option.map_eq_some_iff] at h
  obtain ⟨⟨idx', policy⟩, hselect, hr⟩ := h
  cases hr
  intro i hi
  dsimp only at hi
  rw [hi] at hselect
  exact select_with_capacity_free hselect

theorem dispatches_act_dispatch (s : Server) (role : Role) (request_id : RequestId) (idx : ℕ) :
    dispatches (s.act (.dispatch role request_id idx)).trace
      = dispatches s.trace ++ [⟨request_id, role, idx⟩] := by
  unfold Server.act dispatches
  rw [filterMap_append]
  rfl

theorem state_of_transition_isSome (s : Server) (request_id r : RequestId)
    (new_state : RequestState) (error : Option String) (at_instance : Option (Role × ℕ))
    (h : (s.state_of r).isSome = true) :
    ((s.transition request_id new_state error at_instance).state_of r).isSome = true := by
  unfold Server.state_of Server.transition at *
  rw [Option.isSome_map] at h ⊢
  rw [get?_move]
  split
  · rw [Option.isSome_map]
    exact h
  · exact h

theorem Progress.encoder_step {b : Bool} (h : Ledgered c s L)
    (hstep : drain_encoder_step s = some (b, s')) : Progress c s L s' := by
  rcases drain_encoder_step_cases hstep with rfl | hselect | ⟨entry, rest, idx, t, hqueue, hselect, rfl⟩
  · exact Progress.of_same (SameBooks.refl _) h
  · exact Progress.of_same (select_spec hselect).1 h
  · obtain ⟨hbooks, hfree⟩ := select_spec hselect
    have ht := hbooks.ledgered h
    have htqueue : queue_ids t .encoder = entry.request_id :: rest.map (·.request_id) := by
      rw [hbooks.queue_ids_eq]
      unfold queue_ids
      rw [hqueue]
      rfl
    refine ⟨[⟨entry.request_id, .encoder, idx⟩], ?_, ?_, ?_⟩
    · rw [← hbooks.dispatched]
      have hsent := (SameBooks.act ((((t.set_encoder_tta rest).add_slots .encoder idx
        (-1)).act (.dispatch .encoder entry.request_id idx)).transition entry.request_id
          .encoder_running none (some (.encoder, idx)))
        (a := .send .encoder idx (.work entry.request_id entry.payload)) rfl).dispatched
      exact hsent.trans (dispatches_act_dispatch _ _ _ _)
    · refine ht.dispatch htqueue (hfree idx rfl) ?_ rfl rfl rfl
      intro role'
      cases role' <;> rfl
    · intro r hr
      apply state_of_transition_isSome
      rw [← hbooks.state_of] at hr
      exact hr

theorem Progress.step {b : Bool} (h : Ledgered c s L)
    (hstep : drain_step c role s = some (b, s')) : Progress c s L s' := by
  rcases drain_step_cases hstep with hexchange | ⟨entry, rest, idx, t, hqueue, hselect, hdispatch⟩
  · exact Progress.of_same hexchange.books h
  · obtain ⟨hbooks, hfree⟩ := select_spec hselect
    obtain ⟨p2p, hexchange⟩ := transfer_dispatch_spec hdispatch
    have hsame := hexchange.books
    have ht := hbooks.ledgered h
    have hrole : role ≠ .encoder := by
      rintro rfl
      cases hqueue
    have htqueue : queue_ids t role = entry.request_id :: rest.map (·.request_id) := by
      rw [hbooks.queue_ids_eq, queue_ids_tta s hrole, hqueue]
      rfl
    -- the queue without its first entry is all that changes before the dispatch
    have hset := set_tta_rest t role rest
    refine ⟨[⟨entry.request_id, role, idx⟩], ?_, ?_, ?_⟩
    · rw [hsame.dispatched, ← hbooks.dispatched]
      refine (dispatches_act_dispatch _ _ _ _).trans ?_
      rw [hset]
      rfl
    · apply hsame.ledgered
      refine ht.dispatch htqueue (hfree idx rfl) ?_ ?_ ?_ ?_
      · exact queue_ids_set_tta t hrole rest
      · rw [hset]
        rfl
      · rw [hset]
        rfl
      · rw [hset]
        rfl
    · intro r hr
      rw [hsame.state_of]
      apply state_of_transition_isSome
      rw [← hbooks.state_of] at hr
      rw [hset]
      exact hr

theorem Ledgered.drain (h : Ledgered c s L) (hstep : drain_all_queues c s = some s') :
    Ledgered c s' (ledger_step .drain s s' L) := by
  apply Progress.ledger
  · unfold drain_all_queues at hstep
    rw [Option.bind_eq_some_iff] at hstep
    obtain ⟨s₂, h₂, hdecoder⟩ := hstep
    rw [Option.bind_eq_some_iff] at h₂
    obtain ⟨s₁, hencoder, hdenoiser⟩ := h₂
    have hfirst : Progress c s L s₁ := Progress.drain Progress.encoder_step _ h hencoder
    have hsecond := hfirst.trans fun L' hL' => Progress.drain Progress.step _ hL' hdenoiser
    exact hsecond.trans fun L' hL' => Progress.drain Progress.step _ hL' hdecoder
  · exact fun _ _ => rfl

theorem SameBooks.register (hglm : s.glm = none) (msg : RegisterMsg) :
    SameBooks s (handle_transfer_register c msg s) := by
  unfold handle_transfer_register
  split
  · exact refl s
  · split
    · exact refl s
    · dsimp only
      split
      · next hsome =>
        have hsome' : s.glm = some _ := hsome
        rw [hglm] at hsome'
        cases hsome'
      · exact (Exchange.set_peer s _ _ _).books

theorem Ledgered.staged_msg (h : Ledgered c s L) {msg : StagedMsg}
    (hstate : s.state_of msg.request_id = some .encoder_running) :
    Ledgered c (handle_transfer_staged msg s)
      (ledger_step (.transfer role (.staged msg)) s (handle_transfer_staged msg s) L) := by
  have hqueue : ∀ role, msg.request_id ∉ queue_ids s role :=
    h.not_queued hstate fun role => by cases role <;> decide
  unfold handle_transfer_staged
  obtain ⟨p2p, hp2p⟩ : ∃ p2p, staged_transfer msg (s.sender_instance .encoder msg.request_id) = p2p :=
    ⟨_, rfl⟩
  rw [hp2p]
  have hbooks := SameBooks.new_transfer s msg.request_id p2p
  obtain ⟨t, ht⟩ : ∃ t, s.new_transfer msg.request_id p2p = t := ⟨_, rfl⟩
  rw [ht] at hbooks ⊢
  have hrunning := (hbooks.state_of _).trans hstate
  -- an encoder's slot is all that the request may hold, and it may keep it
  have hdone := (hbooks.ledgered h).transition hrunning .encoder_done none
    (fun role => by cases role <;> decide) fun role => by cases role <;> decide
  have hdone_state : (t.transition msg.request_id .encoder_done none none).state_of msg.request_id
      = some .encoder_done := state_of_transition_self hrunning rfl
  have hwaiting := hdone.transition hdone_state .denoising_waiting none
    (fun role => by cases role <;> decide) fun role => by cases role <;> decide
  apply Ledgered.keep
  · refine hwaiting.enqueue .denoiser msg.request_id ?_ (hbooks.not_queued hqueue .denoiser)
      (state_of_transition_self hdone_state rfl) rfl rfl rfl
    intro role'
    rw [queue_ids_set_tta _ (by decide), map_append]
    rfl
  · exact hbooks.dispatched
  · exact fun _ _ => rfl

/-- **The ledger after a call** that releases an instance of a request. -/
theorem Ledgered.released {request_id : RequestId}
    (hs' : Ledgered c s' (drop_hold L request_id role))
    (hd : dispatches s'.trace = dispatches s.trace)
    (hrel : ∀ a, releases e s a = decide (a.request_id = request_id ∧ a.role = role)) :
    Ledgered c s' (ledger_step e s s' L) := by
  have hkeep : (L.filter fun a => !releases e s a) = drop_hold L request_id role := by
    apply filter_congr
    intro a _
    rw [hrel]
  have hs'' := hs'
  rw [← append_nil (drop_hold L request_id role)] at hs''
  rw [ledger_step_eq hkeep (by rw [hd, append_nil]) hs'']
  exact hs''

theorem releases_denoiser_done (msg : DoneMsg) (s : Server) (a : Hold) :
    releases (.transfer .denoiser (.done msg)) s a =
      (decide (a.request_id = msg.request_id ∧ a.role = .denoiser) &&
        !((truthy msg.error).isNone && msg.staged_for_decoder &&
          (s.transfer_of msg.request_id).isSome)) :=
  rfl

theorem Ledgered.pushed (h : Ledgered c s L) {request_id : RequestId}
    (ho : Orderly c now s L (.transfer role (.pushed request_id)))
    (hstep : handle_transfer_pushed c request_id s = some s') :
    Ledgered c s' (ledger_step (.transfer role (.pushed request_id)) s s' L) := by
  have hrel : ∀ a, releases (.transfer role (.pushed request_id)) s a
      = decide (a.request_id = request_id ∧ a.role = role) := fun a => rfl
  dsimp only [Orderly] at ho
  unfold handle_transfer_pushed at hstep
  -- a sender that holds nothing: nothing is given back
  have hidle : ¬ Holds L request_id role →
      ∀ a ∈ L, releases (.transfer role (.pushed request_id)) s a = false := by
    intro hnone a ha
    rw [hrel, decide_eq_false_iff_not]
    exact fun ⟨hid, hrole⟩ => hnone (hrole ▸ holds_of_mem ha hid)
  cases htransfer : s.transfer_of request_id with
  | none =>
    rw [htransfer] at ho hstep
    cases hstep
    exact h.same (SameBooks.refl s) (hidle ho)
  | some ref =>
    rw [htransfer] at ho hstep
    cases hsender : (s.state_of request_id).bind pushed_sender with
    | none =>
      rw [hsender] at ho hstep
      exact h.same (Exchange.send_ready hstep).books (hidle ho)
    | some sender =>
      rw [hsender] at ho hstep
      obtain ⟨hrole, hheld⟩ := ho
      dsimp only at hrole hheld hstep
      subst hrole
      have hbooks := (Exchange.send_ready hstep).books
      refine (hbooks.ledgered (h.release hheld)).released ?_ hrel
      rw [hbooks.dispatched, free_slot_rest]

theorem instance_of_recycle (role role' : Role) (request_id r : RequestId) :
    (recycle request_id role s).instance_of role' r = s.instance_of role' r := by
  unfold Server.instance_of
  rw [(Exchange.recycle request_id role s).books.tracker]

theorem named_of_books (hbooks : SameBooks s s') (role : Role) (r : RequestId) :
    named s' role r = named s role r := by
  unfold named Server.instance_of
  rw [hbooks.tracker]

theorem MayEnd.of_books (hbooks : SameBooks s s') {frees : Option Role}
    (hm : MayEnd s L r frees) : MayEnd s' L r frees := by
  intro hr
  rw [hbooks.state_of] at hr
  exact ⟨(hm hr).1, hbooks.not_queued (hm hr).2⟩

theorem instance_of_transition (s : Server) (request_id r : RequestId) (new_state : RequestState)
    (error : Option String) (role : Role) :
    (s.transition request_id new_state error none).instance_of role r = s.instance_of role r := by
  unfold Server.instance_of Server.transition
  rw [get?_move]
  split
  · cases s.tracker.get? r with
    | none => rfl
    | some record =>
      rw [Option.map_some]
      split
      · rfl
      · rfl
  · rfl

section

variable (h : Ledgered c s L)
include h

theorem Ledgered.denoising_done (r : RequestId) :
    Ledgered c (s.transition r .denoising_done none none) L := by
  cases hget : s.tracker.get? r with
  | none =>
    rw [transition_of_untracked hget]
    exact h
  | some record =>
    have hstate := state_of_eq_some_iff.mpr ⟨record, hget, rfl⟩
    by_cases hrunning : record.state = .denoising_running
    · rw [hrunning] at hstate
      exact h.transition hstate _ _ (fun role => by cases role <;> decide)
        fun role => by cases role <;> decide
    · have hrefused : ∀ state : RequestState, state ≠ .denoising_running →
          state.allows .denoising_done = false := by
        intro state
        cases state <;> decide
      rw [transition_of_not_allows hget (hrefused _ hrunning)]
      exact h

/-- **A request ends** with the slot given back that its record names. What a handler does before
and after that leaves the books alone. -/
theorem Ledgered.ended_with_slot {t : Server} {new_state : RequestState} {error error' : Option String}
    (hbefore : SameBooks s t) (hm : MayEnd s L r (named s role r))
    (hafter : SameBooks ((t.free_slot role (t.instance_of role r)).leave r new_state error error')
      s') (hrel : ∀ a, releases e s a = true → a.request_id = r) :
    Ledgered c s' (ledger_step e s s' L) := by
  rw [← named_of_books hbefore] at hm
  have hfinish := (hbefore.ledgered h).finish new_state error error' (hm.of_books hbefore)
  refine h.ended (hafter.ledgered hfinish) ?_ hrel fun r' => ?_
  · rw [hafter.dispatched, dispatches_leave, free_slot_rest]
    exact hbefore.dispatched
  · rw [hafter.state_of, state_of_leave, free_slot_rest]
    exact congrArg _ (hbefore.state_of r')

theorem Ledgered.stage_for_decoder {msg : DoneMsg} (ref : ℕ)
    (hstate : s.state_of msg.request_id = some .denoising_done) :
    Ledgered c (stage_for_decoder msg ref s) L ∧
      dispatches (stage_for_decoder msg ref s).trace = dispatches s.trace := by
  have hqueue : ∀ role, msg.request_id ∉ queue_ids s role :=
    h.not_queued hstate fun role => by cases role <;> decide
  unfold DiffusionServer.stage_for_decoder
  obtain ⟨t, ht⟩ : ∃ t, s.write ref (restaged_transfer msg
    (s.sender_instance .denoiser msg.request_id) (s.transfers ref)) = t := ⟨_, rfl⟩
  have hbooks := (Exchange.write s ref (restaged_transfer msg
    (s.sender_instance .denoiser msg.request_id) (s.transfers ref))).books
  have hdone := (hbooks.state_of _).trans hstate
  have hwaiting := (hbooks.ledgered h).transition hdone .decoder_waiting none
    (fun role => by cases role <;> decide) fun role => by cases role <;> decide
  refine ⟨?_, hbooks.dispatched⟩
  refine hwaiting.enqueue .decoder msg.request_id ?_ (hbooks.not_queued hqueue .decoder)
    (state_of_transition_self hdone rfl) rfl rfl rfl
  intro role'
  rw [queue_ids_set_tta _ (by decide), map_append]
  rfl

theorem Ledgered.denoiser_done {msg : DoneMsg}
    (ho : Orderly c now s L (.transfer .denoiser (.done msg))) : Ledgered c (denoiser_done msg s)
      (ledger_step (.transfer .denoiser (.done msg)) s (denoiser_done msg s) L) := by
  have hbooks := (Exchange.recycle msg.request_id .denoiser s).books
  have hinstance := instance_of_recycle (s := s) .denoiser .denoiser msg.request_id msg.request_id
  have htransfer : (recycle msg.request_id .denoiser s).transfer_of msg.request_id
      = s.transfer_of msg.request_id :=
    congrArg (·.get? msg.request_id) (Exchange.recycle msg.request_id .denoiser s).transfer_state
  dsimp only [Orderly] at ho
  unfold DiffusionServer.denoiser_done
  rw [← hinstance]
  generalize recycle msg.request_id .denoiser s = t at hbooks htransfer hinstance ⊢
  have hledgered := hbooks.ledgered h
  cases herror : truthy msg.error with
  | some error =>
    -- the request fails
    rw [herror] at ho
    refine h.ended_with_slot hbooks ho (SameBooks.refl _) fun a ha => ?_
    rw [releases_denoiser_done, Bool.and_eq_true, decide_eq_true_eq] at ha
    exact ha.1.1
  | none =>
    dsimp only
    rw [herror] at ho
    have hmoved := hledgered.denoising_done msg.request_id
    by_cases hstaged : msg.staged_for_decoder = true ∧ (s.transfer_of msg.request_id).isSome = true
    · -- the output waits for a decoder, and the denoiser keeps its slot
      rw [if_pos hstaged] at ho
      obtain ⟨ref, href⟩ := Option.isSome_iff_exists.mp hstaged.2
      have href' : (t.transition msg.request_id .denoising_done none none).transfer_of
          msg.request_id = some ref := htransfer.trans href
      have hstate : (t.transition msg.request_id .denoising_done none none).state_of
          msg.request_id = some .denoising_done :=
        state_of_transition_self ((hbooks.state_of _).trans ho) rfl
      rw [forward_staged href' hstaged.1]
      obtain ⟨hstage, hd⟩ := hmoved.stage_for_decoder ref hstate
      apply Ledgered.keep hstage
      · exact hd.trans hbooks.dispatched
      · intro a _
        rw [releases_denoiser_done, herror, hstaged.1, hstaged.2]
        simp
    · -- the denoiser gives its slot back
      rw [if_neg hstaged] at ho
      have hstaged' : ¬ (msg.staged_for_decoder = true ∧
          ((t.transition msg.request_id .denoising_done none none).transfer_of
            msg.request_id).isSome = true) := by
        intro hboth
        apply hstaged
        refine ⟨hboth.1, ?_⟩
        rw [← htransfer]
        exact hboth.2
      rw [forward_freed hstaged',
        ← instance_of_transition t msg.request_id msg.request_id .denoising_done none]
      have hrel : ∀ a, releases (.transfer .denoiser (.done msg)) s a
          = decide (a.request_id = msg.request_id ∧ a.role = .denoiser) := by
        intro a
        rw [releases_denoiser_done, herror]
        have hno : (msg.staged_for_decoder && (s.transfer_of msg.request_id).isSome) = false := by
          rw [← Bool.not_eq_true, Bool.and_eq_true]
          exact hstaged
        rw [Option.isNone_none, Bool.true_and, hno, Bool.not_false, Bool.and_true]
      by_cases hheld : Holds L msg.request_id .denoiser
      · have hrelease := hmoved.release hheld
        refine hrelease.released ?_ hrel
        rw [free_slot_rest]
        exact hbooks.dispatched
      · have hnone : (t.transition msg.request_id .denoising_done none none).instance_of .denoiser
            msg.request_id = none := by
          rw [instance_of_transition, hinstance, ← Option.not_isSome_iff_eq_none]
          exact fun hsome => hheld (ho.mpr hsome)
        rw [hnone]
        apply Ledgered.keep hmoved hbooks.dispatched
        intro a ha
        rw [hrel, decide_eq_false_iff_not]
        exact fun hboth => hheld (hboth.2 ▸ holds_of_mem ha hboth.1)

theorem Ledgered.decoder_done {msg : DoneMsg}
    (ho : Orderly c now s L (.transfer .decoder (.done msg))) : Ledgered c (decoder_done msg s)
      (ledger_step (.transfer .decoder (.done msg)) s (decoder_done msg s) L) := by
  have hbooks := (Exchange.recycle msg.request_id .decoder s).books
  unfold DiffusionServer.decoder_done
  dsimp only
  obtain ⟨t, ht⟩ : ∃ t, recycle msg.request_id .decoder s = t := ⟨_, rfl⟩
  rw [ht] at hbooks ⊢
  obtain ⟨new_state, error, error', hconclude⟩ := conclude_eq msg
    (t.free_slot .decoder (t.instance_of .decoder msg.request_id))
  rw [hconclude]
  exact h.ended_with_slot hbooks ho (SameBooks.forget_transfer _ msg.request_id) nofun

theorem Ledgered.decoder_result_frames {frames : ResultFrames}
    (ho : Orderly c now s L (.frames .decoder frames)) :
    Ledgered c (handle_decoder_result_frames frames s)
      (ledger_step (.frames .decoder frames) s (handle_decoder_result_frames frames s) L) := by
  rcases decoder_result_frames_cases frames s with
    ⟨-, heq⟩ | ⟨request_id, new_state, error, f, hid, rfl, hend⟩
  · rw [heq]
    exact h.same (SameBooks.refl s) fun _ _ => rfl
  · -- whether its client still waits or not, the request leaves
    have hafter : SameBooks ((s.free_slot .decoder (s.instance_of .decoder request_id)).leave
        request_id new_state error frames.error) (handle_decoder_result_frames frames s) := by
      rcases hend with ⟨-, heq⟩ | ⟨-, heq⟩
      · rw [heq]
        exact SameBooks.refl _
      · rw [heq]
        exact SameBooks.forget_transfer _ request_id
    exact h.ended_with_slot (SameBooks.refl s) (ho request_id hid) hafter nofun

theorem Ledgered.role_error_frames {frames : ResultFrames}
    (ho : ∀ r, frames.request_id = some r → (truthy frames.disagg_error).isSome = true →
      MayEnd s L r none) : Ledgered c (handle_role_error_frames role frames s)
      (ledger_step (.frames role frames) s (handle_role_error_frames role frames s) L) := by
  unfold handle_role_error_frames
  split
  · next request_id disagg_error hid herror =>
    have hid' := (Option.filter_eq_some_iff.mp hid).1
    have hm := ho request_id hid' (by rw [herror]; rfl)
    have hfree : (∀ role, ¬ Holds L request_id role) ∧ ∀ role, request_id ∉ queue_ids s role := by
      by_cases hr : s.state_of request_id = none
      · exact h.untracked hr
      · obtain ⟨honly, hqueue⟩ := hm hr
        refine ⟨fun role hhold => ?_, hqueue⟩
        cases (honly role).mp hhold
    refine h.ended (r := request_id) ?_ (dispatches_leave _ _ _ _ _) nofun
      (state_of_leave _ _ _ _ _)
    rw [others_of_not_holds hfree.1]
    exact h.leave _ _ _ hfree.1 hfree.2
  · exact h.same (SameBooks.refl s) fun _ _ => rfl

end

/-! ### Timeouts -/

theorem time_out_leave_queues (c : Config) (s : Server) (ids : List RequestId) (r : RequestId) :
    time_out c (s.leave_queues ids) r = (time_out c s r).leave_queues ids := by
  have hcomplete : ∀ (s : Server) (error_msg : String),
      (s.leave_queues ids).complete_with_error r error_msg
        = (s.complete_with_error r error_msg).leave_queues ids := by
    intro s error_msg
    unfold Server.complete_with_error Server.transition Server.leave_queues Server.answer
    cases s.pending.get? r with
    | none => rfl
    | some i => rfl
  unfold time_out
  rw [← hcomplete]
  have htracker : (s.leave_queues ids).tracker = s.tracker := rfl
  rw [htracker]
  cases s.tracker.get? r with
  | none => rfl
  | some record =>
    dsimp only
    unfold free_slot_for_record
    cases timeout_role record.state with
    | none => rfl
    | some role =>
      dsimp only
      cases record.instance_at role with
      | none => rfl
      | some i => rfl

theorem foldl_time_out_leave_queues (c : Config) (ids timed_out : List RequestId) : ∀ s : Server,
    timed_out.foldl (time_out c) (s.leave_queues ids)
      = (timed_out.foldl (time_out c) s).leave_queues ids := by
  induction timed_out with
  | nil => exact fun _ => rfl
  | cons r timed_out ih =>
    intro s
    rw [foldl_cons, foldl_cons, time_out_leave_queues, ih]

theorem queue_ids_leave_queues (s : Server) (ids : List RequestId) (role : Role) :
    queue_ids (s.leave_queues ids) role = (queue_ids s role).filter fun r => decide (r ∉ ids) := by
  unfold queue_ids Server.leave_queues
  cases role with
  | encoder =>
    rw [filter_map]
    rfl
  | denoiser =>
    rw [filter_map]
    rfl
  | decoder =>
    rw [filter_map]
    rfl

theorem Ledgered.leave_queues (h : Ledgered c s L) (ids : List RequestId) :
    Ledgered c (s.leave_queues ids) L ∧ ∀ r ∈ ids, ∀ role, r ∉ queue_ids (s.leave_queues ids) role := by
  have hqueue := queue_ids_leave_queues s ids
  refine ⟨⟨h.staged, h.length, h.nonneg, h.balance, h.once, h.held, ?_, ?_⟩, ?_⟩
  · intro role
    rw [hqueue]
    exact (h.queued_once role).filter _
  · intro role r hr
    rw [hqueue] at hr
    exact h.queued role r (mem_of_mem_filter hr)
  · intro r hr role hin
    rw [hqueue] at hin
    have hout := (mem_filter.mp hin).2
    rw [decide_eq_true_eq] at hout
    exact hout hr

theorem Ledgered.time_out (h : Ledgered c s L)
    (honly : HoldsOnly L r (timeout_frees s r)) (hqueue : ∀ role, r ∉ queue_ids s role) :
    Ledgered c (time_out c s r) (others L r) := by
  obtain ⟨role, idx, error, heq, hidx⟩ := time_out_eq c s r
  unfold timeout_frees at honly
  have hfreed : Ledgered c (s.free_slot role idx) (others L r) := by
    rcases hidx with ⟨hrole, rfl⟩ | ⟨hrole, rfl⟩
    · rw [hrole] at honly
      rw [others_of_not_holds fun role' hr => nomatch (honly role').mp hr]
      exact h
    · rw [hrole] at honly
      exact h.release_all honly
  rw [heq]
  apply hfreed.leave
  · exact not_holds_others L r
  · intro role'
    rw [queue_ids_free_slot]
    exact hqueue role'

theorem holds_others {r r' : RequestId} (hne : r' ≠ r) (role : Role) :
    Holds (others L r) r' role ↔ Holds L r' role := by
  constructor
  · rintro ⟨idx, hmem⟩
    exact ⟨idx, mem_of_mem_filter hmem⟩
  · rintro ⟨idx, hmem⟩
    refine ⟨idx, mem_filter.mpr ⟨hmem, ?_⟩⟩
    rw [Bool.not_eq_true', decide_eq_false_iff_not]
    exact hne

theorem queue_ids_time_out (c : Config) (s : Server) (r : RequestId) (role : Role) :
    queue_ids (time_out c s r) role = queue_ids s role := by
  obtain ⟨role', idx, error, heq, -⟩ := time_out_eq c s r
  rw [heq, queue_ids_leave, queue_ids_free_slot]

theorem Ledgered.foldl_time_out (timed_out : List RequestId) : ∀ {s : Server} {L : List Hold},
    Ledgered c s L → (∀ r ∈ timed_out, HoldsOnly L r (timeout_frees s r)) →
      (∀ r ∈ timed_out, ∀ role, r ∉ queue_ids s role) →
        Ledgered c (timed_out.foldl (DiffusionServer.time_out c) s)
          (L.filter fun a => !decide (a.request_id ∈ timed_out)) := by
  induction timed_out with
  | nil =>
    intro s L h _ _
    have hall : (L.filter fun a => !decide (a.request_id ∈ ([] : List RequestId))) = L := by
      apply filter_eq_self.mpr
      simp
    rw [hall]
    exact h
  | cons r timed_out ih =>
    intro s L h honly hqueue
    have hone := h.time_out (honly r mem_cons_self) (hqueue r mem_cons_self)
    have hrest := ih hone ?_ ?_
    · have hfilter : ((others L r).filter fun a => !decide (a.request_id ∈ timed_out))
          = L.filter fun a => !decide (a.request_id ∈ r :: timed_out) := by
        unfold others
        rw [filter_filter]
        apply filter_congr
        intro a _
        by_cases hr : a.request_id = r
        · simp [hr]
        · simp [hr]
      rw [hfilter] at hrest
      exact hrest
    · intro r' hr'
      have hfrees : timeout_frees (DiffusionServer.time_out c s r) r' =
          if r' = r then none else timeout_frees s r' := by
        unfold timeout_frees Server.state_of named Server.instance_of
        rw [get?_time_out]
        split
        · rfl
        · rfl
      rw [hfrees]
      by_cases hr : r' = r
      · rw [if_pos hr]
        intro role
        refine iff_of_false ?_ (by simp)
        rw [hr]
        exact not_holds_others L r role
      · rw [if_neg hr]
        intro role
        rw [holds_others hr]
        exact honly r' (mem_cons_of_mem _ hr') role
    · intro r' hr' role
      rw [queue_ids_time_out]
      exact hqueue r' (mem_cons_of_mem _ hr') role

/-- What one timeout keeps, a scan keeps. -/
theorem foldl_time_out_keeps {α : Type} (f : Server → α) (hf : ∀ s r, f (time_out c s r) = f s)
    (timed_out : List RequestId) : ∀ s : Server, f (timed_out.foldl (time_out c) s) = f s := by
  induction timed_out with
  | nil => exact fun _ => rfl
  | cons r timed_out ih => exact fun s => (ih (time_out c s r)).trans (hf s r)

theorem dispatches_time_out (c : Config) (s : Server) (r : RequestId) :
    dispatches (time_out c s r).trace = dispatches s.trace := by
  obtain ⟨role, idx, error, heq, -⟩ := time_out_eq c s r
  rw [heq, dispatches_leave, free_slot_rest]

theorem glm_time_out (c : Config) (s : Server) (r : RequestId) : (time_out c s r).glm = s.glm := by
  obtain ⟨role, idx, error, heq, -⟩ := time_out_eq c s r
  rw [heq, leave_rest, free_slot_rest]

/-- In the staged mode a request may as well leave the queues before it times out. -/
theorem handle_timeouts_staged (c : Config) (now : ℚ) (hglm : s.glm = none) :
    handle_timeouts c now s = (s.tracker.find_timed_out c.timeout_s now).foldl (time_out c)
      (s.leave_queues (s.tracker.find_timed_out c.timeout_s now)) := by
  rw [foldl_time_out_leave_queues]
  unfold handle_timeouts
  dsimp only
  obtain ⟨t, ht⟩ : ∃ t, (s.tracker.find_timed_out c.timeout_s now).foldl (time_out c) s = t :=
    ⟨_, rfl⟩
  have hmode : t.glm = none := ht ▸ (foldl_time_out_keeps Server.glm (glm_time_out c) _ s).trans hglm
  rw [ht]
  unfold clear_glm Server.leave_queues
  rw [hmode]

theorem Ledgered.timeouts (h : Ledgered c s L) (ho : Orderly c now s L .timeouts) :
    Ledgered c (handle_timeouts c now s) (ledger_step .timeouts s (handle_timeouts c now s) L) := by
  dsimp only [Orderly] at ho
  rw [handle_timeouts_staged c now h.staged]
  obtain ⟨timed_out, htimed⟩ : ∃ l, s.tracker.find_timed_out c.timeout_s now = l := ⟨_, rfl⟩
  rw [htimed] at ho ⊢
  obtain ⟨hleft, hout⟩ := h.leave_queues timed_out
  have hledgered := Ledgered.foldl_time_out timed_out hleft ho hout
  have hd := foldl_time_out_keeps (fun s => dispatches s.trace) (dispatches_time_out c) timed_out (s.leave_queues timed_out)
  have hledger : ledger_step .timeouts s
      (timed_out.foldl (DiffusionServer.time_out c) (s.leave_queues timed_out)) L
        = L.filter fun a => !decide (a.request_id ∈ timed_out) := by
    unfold ledger_step
    rw [hd, show (s.leave_queues timed_out).trace = s.trace from rfl, drop_length, append_nil,
      filter_filter]
    apply filter_congr
    intro a ha
    obtain ⟨record, hrecord, _⟩ := h.held a ha
    have hleave : (s.leave_queues timed_out).tracker.get? a.request_id = some record := hrecord
    unfold ends Server.state_of
    rw [hrecord, get?_foldl_time_out, hleave]
    by_cases hin : a.request_id ∈ timed_out
    · rw [if_pos hin, decide_eq_true hin]
      rfl
    · rw [if_neg hin, decide_eq_false hin]
      rfl
  rw [hledger]
  exact hledgered

/-! ### Runs -/

theorem Ledgered.idle (h : Ledgered c s L) (hrel : ∀ a, releases e s a = false)
    (hs : s' = s) : Ledgered c s' (ledger_step e s s' L) := by
  subst hs
  exact h.same (SameBooks.refl s') fun a _ => hrel a

/-- **One call.** An orderly call keeps the invariant. -/
theorem Ledgered.step (h : Ledgered c s L) (ho : Orderly c now s L e)
    (hstep : handle c now e s = some s') : Ledgered c s' (ledger_step e s s' L) := by
  have hglm := h.staged
  cases e with
  | client_request frames =>
    cases hstep
    exact h.client_request now frames
  | transfer role msg =>
    cases msg with
    | register msg =>
      cases hstep
      exact h.same (SameBooks.register hglm msg) fun _ _ => rfl
    | staged msg =>
      cases hstep
      exact h.staged_msg ho
    | allocated msg => exact h.same (Exchange.allocated hstep).books fun _ _ => rfl
    | pushed request_id => exact h.pushed ho hstep
    | done msg =>
      cases hstep
      cases role with
      | encoder => exact h.same (SameBooks.refl s) fun _ _ => rfl
      | denoiser => exact h.denoiser_done ho
      | decoder => exact h.decoder_done ho
    | unknown =>
      cases hstep
      exact h.same (SameBooks.refl s) fun _ _ => rfl
  | frames role frames =>
    cases hstep
    unfold handle_frames
    rw [hglm]
    cases role with
    | encoder => exact h.role_error_frames ho
    | denoiser => exact h.role_error_frames ho
    | decoder => exact h.decoder_result_frames ho
  | timeouts =>
    cases hstep
    exact h.timeouts ho
  | drain =>
    unfold handle at hstep
    rw [hglm] at hstep
    exact h.drain hstep
  | connected worker_idx =>
    cases hstep
    apply h.idle fun _ => rfl
    unfold handle_glm_denoiser_connected
    rw [hglm]
  | disconnected worker_idx =>
    cases hstep
    apply h.idle fun _ => rfl
    unfold handle_glm_denoiser_disconnected
    rw [hglm]
  | ar_done error group =>
    cases hstep
    apply h.idle fun _ => rfl
    unfold process_glm_ar_batch_result
    rw [hglm]
  | ar_dispatch =>
    cases hstep
    apply h.idle fun _ => rfl
    unfold dispatch_glm_ar_batch_if_ready
    rw [hglm]
  | denoiser_dispatch =>
    unfold handle dispatch_glm_denoiser_requests_if_ready at hstep
    rw [hglm] at hstep
    cases hstep
    exact h.idle (fun _ => rfl) rfl

end calls

theorem Ledgered.init (hmode : c.glm_distributed_mode_enabled = false) :
    Ledgered c (Server.init c) [] where
  staged := by
    unfold Server.init
    rw [hmode]
    rfl
  length := fun role => length_map _
  nonneg := by
    intro role idx
    unfold Server.init
    rw [getD_eq_getElem?_getD, getElem?_map]
    cases (c.endpoints role)[idx]? with
    | none => exact le_refl 0
    | some ep => exact Int.natCast_nonneg _
  balance := by
    intro role idx hidx
    unfold Server.init
    rw [getD_eq_getElem?_getD, getElem?_map, getElem?_eq_getElem hidx]
    exact add_zero _
  once := nodup_nil
  held := fun a ha => absurd ha not_mem_nil
  queued_once := fun role => by cases role <;> exact nodup_nil
  queued := fun role r hr => by cases role <;> exact absurd hr not_mem_nil

/-- **Slots are conserved** in every state of a run of the staged mode whose calls are all
orderly. -/
theorem slots_conserved (hmode : c.glm_distributed_mode_enabled = false)
    (h : LedgerRun c (Orderly c) s L) : Conserved c s L := by
  have hs : Ledgered c s L := by
    induction h with
    | init => exact Ledgered.init hmode
    | step _ he hstep ih => exact ih.step he hstep
  exact hs.conserved

/-- A check of calls by which they are orderly. -/
def pushes_held (s : Server) (L : List Hold) : Event → Bool
  | .transfer _ (.staged msg) => s.state_of msg.request_id = some .encoder_running
  | .transfer role (.pushed request_id) => (s.transfer_of request_id).isSome &&
      (s.state_of request_id).bind pushed_sender = some role &&
      L.any fun h => h.request_id = request_id ∧ h.role = role
  | .transfer _ (.register _) | .client_request _ | .drain => true
  | _ => false

theorem orderly_of_pushes_held (c : Config) (now : ℚ) (s : Server) (L : List Hold) (e : Event)
    (h : pushes_held s L e = true) : Orderly c now s L e := by
  unfold pushes_held at h
  split at h
  · have hrunning := of_decide_eq_true h
    exact hrunning
  · simp only [Bool.and_eq_true, decide_eq_true_eq, List.any_eq_true] at h
    obtain ⟨⟨htransfer, hsender⟩, hold, hmem, rfl, rfl⟩ := h
    obtain ⟨ref, href⟩ := Option.isSome_iff_exists.mp htransfer
    simp only [Orderly, href, Option.bind_some, hsender]
    exact ⟨trivial, hold.idx, hmem⟩
  · trivial
  · trivial
  · trivial
  · cases h

/-- A request is pushed to its denoiser, and its encoder is free again. -/
theorem pushed_request_conserved : ∃ s L, serve small_config ledger_step pushes_held
        (sent_calls 64 ++ [(2, .transfer .encoder (.pushed (.client "a")))])
        (Server.init small_config) [] = some (s, L) ∧
      L = [⟨.client "a", .denoiser, 0⟩] ∧ Conserved small_config s L := by
  have hrun : ((serve small_config ledger_step pushes_held
      (sent_calls 64 ++ [(2, .transfer .encoder (.pushed (.client "a")))])
      (Server.init small_config) []).map Prod.snd) = some [⟨.client "a", .denoiser, 0⟩] := by
    decide +kernel
  rw [Option.map_eq_some_iff] at hrun
  obtain ⟨⟨s, L⟩, hserve, hL⟩ := hrun
  refine ⟨s, L, hserve, hL, slots_conserved rfl (serve_induct
    (fun h hok => h.step (orderly_of_pushes_held _ _ _ _ _ hok)) _ LedgerRun.init hserve)⟩

/-- A request reaches its encoder, which reports an error. -/
def encoder_error_calls : List (ℚ × Event) :=
  [(0, text_request "client" "a"), (0, .drain),
    (1, .frames .encoder ⟨some (.client "a"), some "out of memory", none, none⟩)]

/-- The request of `encoder_error_calls` is answered, but the slot of its encoder is not given
back. -/
theorem encoder_error_loses_slot :
    ¬ ∀ (c : Config) (s : Server) (L : List Hold), c.glm_distributed_mode_enabled = false →
      LedgerRun c (fun _ _ _ _ => True) s L → Conserved c s L := by
  intro h
  have hrun : ((serve small_config ledger_step (fun _ _ _ => true) encoder_error_calls
      (Server.init small_config) []).map fun r => (r.1.tracker.keys, (r.1.free_slots .encoder).getD 0 0)) = some ([], 0) := by decide +kernel
  rw [Option.map_eq_some_iff] at hrun
  obtain ⟨⟨s, L⟩, hserve, hr⟩ := hrun
  rw [Prod.mk.injEq] at hr
  have hconserved := h small_config s L rfl (serve_induct (fun h _ => h.step trivial) _
    LedgerRun.init hserve)
  have hfull := (hconserved .encoder 0 (by decide)).2.2.2 hr.1
  rw [hr.2] at hfull
  cases hfull

end LightningH3.DiffusionServer
