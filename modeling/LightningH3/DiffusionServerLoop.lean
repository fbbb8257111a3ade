/-
The event loop of the disaggregation server, which a handler that raises ends
(`multimodal_gen/runtime/disaggregation/orchestrator.py`, `_event_loop`).

The loop catches what a handler raises outside its `while`, so one bad message stops every other
request: nothing is received, answered or timed out any more. What can raise is an index into a
list of sockets or of free slots (`serves`). While every call is served, the invariant of
`DiffusionServerReplies` answers each request once; a loop that ended keeps the property only when
nobody waited (`answers_ended_iff`).
-/
import Mathlib.Tactic.Linarith
import LightningH3.DiffusionServerReplies

set_option autoImplicit false

namespace LightningH3.DiffusionServer

open List Tracker Option OrderedDict

/-! ## The loop -/

/-- `_event_loop`: it serves, or it ended, with the state before the call that raised. What such a
call did before it raised is left out: the calls that can raise answer nobody. -/
inductive Loop
  | serving (s : Server)
  | ended (s : Server)

namespace Loop

def server : Loop → Server
  | serving s => s
  | ended s => s

/-- Whether the loop serves. -/
def running : Loop → Bool
  | serving _ => true
  | ended _ => false

/-- One call of the loop. After a call that raised nothing is received any more. -/
def call (c : Config) (loop : Loop) (now : ℚ) (e : Event) : Loop :=
  match loop with
  | serving s =>
    match handle c now e s with
    | some s' => serving s'
    | none => ended s
  | ended s => ended s

/-- The calls of a list, one after the other. -/
def serve (c : Config) (calls : List (ℚ × Event)) (loop : Loop) : Loop :=
  calls.foldl (fun loop p => loop.call c p.1 p.2) loop

/-- A run of the loop whose calls all meet a condition on the state before them. -/
inductive RunOf (c : Config) (P : Server → Event → Bool) : Loop → Prop
  | init : RunOf c P (serving (Server.init c))
  | call {loop : Loop} (h : RunOf c P loop) (now : ℚ) (e : Event) (he : P loop.server e = true) :
      RunOf c P (loop.call c now e)

/-- Whether the calls of a list all meet a condition. -/
def meets (c : Config) (P : Server → Event → Bool) : List (ℚ × Event) → Loop → Bool
  | [], _ => true
  | (now, e) :: calls, loop => P loop.server e && meets c P calls (loop.call c now e)

variable {c : Config} {P : Server → Event → Bool} {loop : Loop}

theorem RunOf.serve (calls : List (ℚ × Event)) : ∀ {loop : Loop}, RunOf c P loop →
    meets c P calls loop = true → RunOf c P (loop.serve c calls) := by
  induction calls with
  | nil => exact fun h _ => h
  | cons p calls ih =>
    intro loop h hmeets
    unfold meets at hmeets
    rw [Bool.and_eq_true] at hmeets
    exact ih (h.call p.1 p.2 hmeets.1) hmeets.2

/-- The state of a loop, also of one that ended, is one that the calls that succeeded lead to. -/
theorem RunOf.reachable (h : RunOf c P loop) : Reachable c loop.server := by
  induction h with
  | init => exact Reachable.init
  | @call loop _ now e _ ih =>
    cases loop with
    | ended s => exact ih
    | serving s =>
      unfold Loop.call
      dsimp only
      cases hstep : handle c now e s with
      | none => exact ih
      | some s' => exact Reachable.step ih hstep

end Loop

/-- **Answered once and never forgotten**, between two calls of the loop: the waiting clients are
those of the tracked requests; every tracked request is active; under every id the submissions
accepted so far are, in order, those that got one reply each and at most one that waits; and after
the next scan for timeouts a submission without a reply is not older than the timeout. -/
structure Answers (c : Config) (loop : Loop) : Prop where
  tracked : ∀ r, r ∈ loop.server.pending.keys ↔ r ∈ loop.server.tracker.keys
  active : ∀ r record, loop.server.tracker.get? r = some record → record.state.active = true
  once : ∀ r, (accepted r loop.server.trace).map Prod.fst
    = replied r loop.server.trace ++ (loop.server.pending.get? r).toList
  in_time : ∀ now r,
    (accepted r (loop.call c now .timeouts).server.trace).map Prod.fst
        ≠ replied r (loop.call c now .timeouts).server.trace →
      ∃ client_identity time, (accepted r (loop.call c now .timeouts).server.trace).getLast?
        = some (client_identity, time) ∧ now - time ≤ c.timeout_s

variable {c : Config} {s s' : Server}

theorem answers_serving (h : Reachable c s) : Answers c (.serving s) where
  tracked := h.balanced.tracked
  active := fun r record hget => h.balanced.active r record hget (by simp)
  once := h.balanced.answered
  in_time := fun _ _ hopen => h.balanced.answered_in_time hopen

/-- Nobody scans for timeouts after the loop ended, so whoever waits then waits for good. -/
theorem answers_ended_iff (h : Reachable c s) :
    Answers c (.ended s) ↔ ∀ r, s.pending.get? r = none := by
  have hs := h.balanced
  constructor
  · intro hanswers r
    by_contra hwaits
    have hopen : (accepted r s.trace).map Prod.fst ≠ replied r s.trace := by
      rw [hs.answered r, ne_eq, append_right_eq_self, toList_eq_nil_iff]
      exact hwaits
    obtain ⟨client, time, hlast, -⟩ := hanswers.in_time 0 r hopen
    -- a scan that would come later than the timeout
    obtain ⟨client', time', hlast', hlate⟩ := hanswers.in_time (time + c.timeout_s + 1) r hopen
    cases hlast.symm.trans hlast'
    linarith
  · intro hnone
    refine ⟨hs.tracked, fun r record hget => hs.active r record hget (by simp), hs.answered, ?_⟩
    intro now r hopen
    have hall := hs.answered r
    rw [hnone r, toList_none, append_nil] at hall
    exact absurd hall hopen

/-! ## The calls that do not raise -/

/-- A waiting transfer can be pushed: its sender has a socket, or no instance of the role has a
preallocated slot for it, and then it is not pushed yet. -/
def sendable (c : Config) (s : Server) (role : Role) (ref : ℕ) : Bool :=
  (c.socket role.sender (s.transfers ref).sender_instance).isSome ||
    (s.peers role).values.all fun peer =>
      peer.free_preallocated_slots.all fun slot => decide (slot.size < (s.transfers ref).data_size)

/-- A queue with entries has an instance to choose, and its transfers can be pushed. -/
def drainable (c : Config) (s : Server) (role : Role) : Bool :=
  ((s.tta role).isEmpty || !(s.free_slots role).isEmpty) &&
    (s.tta role).all fun entry => sendable c s role entry.transfer_state

/-- The denoisers of the GLM mode are chosen among the workers, so there must be one. -/
def staffed (s : Server) : Bool :=
  s.glm.all fun state => state.pending_denoiser_requests.isEmpty ||
    !(s.free_slots .denoiser).isEmpty && !state.denoiser_worker_available.isEmpty

/-- The indices that a call uses are in range of the sockets and the slots. -/
def serves (c : Config) (s : Server) : Event → Bool
  | .transfer _ (.allocated msg) =>
    (s.transfer_of msg.request_id).all fun ref =>
      (c.socket (allocated_sender (s.state_of msg.request_id))
        (s.transfers ref).sender_instance).isSome
  | .transfer _ (.pushed request_id) =>
    (s.transfer_of request_id).all fun ref =>
      ((s.state_of request_id).bind ready_receiver).all fun role =>
        (c.socket_at role (s.transfers ref).receiver_instance).isSome
  | .drain =>
    s.glm.isSome || (s.encoder_tta.isEmpty || !(s.free_slots .encoder).isEmpty) &&
      drainable c s .denoiser && drainable c s .decoder
  | .denoiser_dispatch => staffed s
  | _ => true

/-- What a round of a queue leaves: the queues, the preallocated slots and the numbers of instances
do not grow, and every transfer has its sender and its size. -/
structure Shrinks (s s' : Server) : Prop where
  tta : ∀ role, s'.tta role ⊆ s.tta role
  free_slots : ∀ role, s.free_slots role ≠ [] → s'.free_slots role ≠ []
  transfers : ∀ ref, (s'.transfers ref).sender_instance = (s.transfers ref).sender_instance ∧
    (s'.transfers ref).data_size = (s.transfers ref).data_size
  peers : ∀ role, ∀ peer' ∈ (s'.peers role).values, ∃ peer ∈ (s.peers role).values,
    peer'.free_preallocated_slots ⊆ peer.free_preallocated_slots

namespace Shrinks

theorem of_eq (htta : ∀ role, s'.tta role ⊆ s.tta role) (hslots : s'.free_slots = s.free_slots)
    (htransfers : s'.transfers = s.transfers) (hpeers : s'.peers = s.peers) : Shrinks s s' where
  tta := htta
  free_slots := fun _ h => hslots ▸ h
  transfers := fun _ => htransfers ▸ ⟨rfl, rfl⟩
  peers := fun _ peer h => ⟨peer, hpeers ▸ h, Subset.refl _⟩

theorem refl (s : Server) : Shrinks s s := of_eq (fun _ => Subset.refl _) rfl rfl rfl

theorem trans {s'' : Server} (h : Shrinks s s') (h' : Shrinks s' s'') : Shrinks s s'' where
  tta := fun role => Subset.trans (h'.tta role) (h.tta role)
  free_slots := fun role hne => h'.free_slots role (h.free_slots role hne)
  transfers := fun ref => ⟨(h'.transfers ref).1.trans (h.transfers ref).1,
    (h'.transfers ref).2.trans (h.transfers ref).2⟩
  peers := by
    intro role peer'' hmem
    obtain ⟨peer', hmem', hsub'⟩ := h'.peers role peer'' hmem
    obtain ⟨peer, hmem, hsub⟩ := h.peers role peer' hmem'
    exact ⟨peer, hmem, Subset.trans hsub' hsub⟩

theorem add_slots (s : Server) (role : Role) (idx : ℕ) (n : ℤ) :
    Shrinks s (s.add_slots role idx n) where
  tta := fun role' => by cases role' <;> exact Subset.refl _
  free_slots := by
    intro role' hne
    unfold Server.add_slots
    dsimp only
    rw [Function.update_apply]
    split
    · next heq =>
      rw [ne_eq, ← length_eq_zero_iff, length_modify, length_eq_zero_iff, ← heq]
      exact hne
    · exact hne
  transfers := fun _ => ⟨rfl, rfl⟩
  peers := fun _ peer h => ⟨peer, h, Subset.refl _⟩

theorem write (s : Server) (ref : ℕ) (p2p : TransferRequestState)
    (hsender : p2p.sender_instance = (s.transfers ref).sender_instance)
    (hsize : p2p.data_size = (s.transfers ref).data_size) : Shrinks s (s.write ref p2p) where
  tta := fun role => by cases role <;> exact Subset.refl _
  free_slots := fun _ h => h
  transfers := by
    intro ref'
    unfold Server.write
    dsimp only
    rw [Function.update_apply]
    split
    · next heq => exact heq ▸ ⟨hsender, hsize⟩
    · exact ⟨rfl, rfl⟩
  peers := fun _ peer h => ⟨peer, h, Subset.refl _⟩

theorem act (s : Server) (a : Action) : Shrinks s (s.act a) :=
  of_eq (fun role => by cases role <;> exact Subset.refl _) rfl rfl rfl

theorem transition (s : Server) (request_id : RequestId) (new_state : RequestState)
    (error : Option String) (at_instance : Option (Role × ℕ)) :
    Shrinks s (s.transition request_id new_state error at_instance) :=
  of_eq (fun role => by cases role <;> exact Subset.refl _) rfl rfl rfl

/-- The fast path takes the first preallocated slot of an instance. -/
theorem set_peer {role : Role} {idx : ℕ} {peer : PeerInfo} {rest : List SlotInfo}
    (hpeer : (s.peers role).get? idx = some peer) (hrest : rest ⊆ peer.free_preallocated_slots) :
    Shrinks s (s.set_peer role idx { peer with free_preallocated_slots := rest }) where
  tta := fun role => by cases role <;> exact Subset.refl _
  free_slots := fun _ h => h
  transfers := fun _ => ⟨rfl, rfl⟩
  peers := by
    intro role' peer' hmem
    unfold Server.set_peer at hmem
    dsimp only at hmem
    rw [Function.update_apply] at hmem
    split at hmem
    · next heq =>
      obtain ⟨k, hget⟩ := mem_values_iff.mp hmem
      rcases get?_set_eq_some.mp hget with ⟨-, rfl⟩ | ⟨-, hget⟩
      · exact ⟨peer, heq ▸ mem_values_iff.mpr ⟨idx, hpeer⟩, hrest⟩
      · exact ⟨peer', heq ▸ mem_values_iff.mpr ⟨k, hget⟩, Subset.refl _⟩
    · exact ⟨peer', hmem, Subset.refl _⟩

theorem select {role : Role} {idx : Option ℕ} (h : s.select role = some (idx, s')) :
    Shrinks s s' := by
  obtain ⟨_, _, heq⟩ := map_eq_some_iff.mp h
  cases heq
  exact of_eq (fun role => by cases role <;> exact Subset.refl _) rfl rfl rfl

theorem set_tta (role : Role) {entries : List RoleTTAEntry} (h : entries ⊆ s.tta role) :
    Shrinks s (s.set_tta role entries) := by
  refine ⟨fun role' => ?_, ?_, ?_, ?_⟩
  · cases role <;> cases role' <;> first | exact h | exact Subset.refl _
  · cases role <;> exact fun _ h => h
  · cases role <;> exact fun _ => ⟨rfl, rfl⟩
  · cases role <;> exact fun _ peer h => ⟨peer, h, Subset.refl _⟩

end Shrinks

/-- A transfer that can be pushed still can after a round: there are fewer slots, and its sender
and its size are the same. -/
theorem sendable_of_shrinks {role : Role} {ref : ℕ} (h : Shrinks s s')
    (hs : sendable c s role ref = true) : sendable c s' role ref = true := by
  unfold sendable at hs ⊢
  rw [(h.transfers ref).1, (h.transfers ref).2]
  rw [Bool.or_eq_true, List.all_eq_true] at hs ⊢
  refine hs.imp id fun hsmall peer' hmem => ?_
  obtain ⟨peer, hpeer, hsub⟩ := h.peers role peer' hmem
  exact List.all_eq_true.mpr fun slot hslot => List.all_eq_true.mp (hsmall peer hpeer) slot (hsub hslot)

theorem drainable_of_shrinks {role : Role} (h : Shrinks s s') (hs : drainable c s role = true) :
    drainable c s' role = true := by
  unfold drainable at hs ⊢
  rw [Bool.and_eq_true, List.all_eq_true] at hs ⊢
  refine ⟨?_, fun entry hmem => sendable_of_shrinks h (hs.2 entry (h.tta role hmem))⟩
  have hsub := h.tta role
  rw [Bool.or_eq_true, List.isEmpty_iff, Bool.not_eq_true', isEmpty_eq_false_iff] at hs ⊢
  rcases hs.1 with hnil | hne
  · exact Or.inl (subset_nil.mp (hnil ▸ hsub))
  · exact Or.inr (h.free_slots role hne)

/-- A policy chooses, or finds nobody free, when there are instances. -/
theorem select_with_capacity_serves (policy : Policy) {free_slots : List ℤ} (h : free_slots ≠ []) :
    ∃ idx policy', policy.select_with_capacity free_slots = some (idx, policy') := by
  unfold Policy.select_with_capacity
  rw [if_neg fun hzero => h (length_eq_zero_iff.mp hzero)]
  cases policy with
  | round_robin next => exact ⟨_, _, rfl⟩
  | max_free_slots tiebreak => exact ⟨_, _, rfl⟩

theorem select_serves {role : Role} (h : s.free_slots role ≠ []) :
    ∃ idx s', s.select role = some (idx, s') := by
  obtain ⟨idx, policy, hselect⟩ := select_with_capacity_serves (s.dispatcher role) h
  unfold Server.select
  rw [hselect]
  exact ⟨_, _, rfl⟩

theorem fast_path_serves {role : Role} {ref : ℕ} (request_id : RequestId) (idx : ℕ)
    (h : sendable c s role ref = true) :
    ∃ b s', try_fast_path_push c request_id ref role idx s = some (b, s') ∧ Shrinks s s' := by
  unfold try_fast_path_push
  cases hpeer : (s.peers role).get? idx with
  | none => exact ⟨_, _, rfl, Shrinks.refl s⟩
  | some peer =>
    dsimp only
    cases hslots : peer.free_preallocated_slots with
    | nil => exact ⟨_, _, rfl, Shrinks.refl s⟩
    | cons slot_info rest =>
      dsimp only
      by_cases hsize : slot_info.size < (s.transfers ref).data_size
      · rw [if_pos hsize]
        exact ⟨_, _, rfl, Shrinks.refl s⟩
      · rw [if_neg hsize]
        unfold sendable at h
        rw [Bool.or_eq_true, isSome_iff_exists, List.all_eq_true] at h
        -- the slot is large enough, so the sender has a socket
        obtain ⟨i, hi⟩ : ∃ i, c.socket role.sender (s.transfers ref).sender_instance = some i := by
          refine h.resolve_right fun hsmall => hsize ?_
          have hall := List.all_eq_true.mp (hsmall peer (mem_values_iff.mpr ⟨idx, hpeer⟩))
          exact of_decide_eq_true (hall slot_info (hslots ▸ mem_cons_self))
        rw [hi]
        refine ⟨_, _, rfl, ?_⟩
        have htaken := Shrinks.set_peer hpeer (hslots ▸ subset_cons_self slot_info rest)
        refine (htaken.trans ?_).trans (Shrinks.act _ _)
        exact Shrinks.write _ _ _ rfl rfl

theorem transfer_dispatch_serves {role : Role} {ref : ℕ} (request_id : RequestId) (idx : ℕ)
    (h : sendable c s role ref = true) :
    ∃ s', transfer_dispatch c role request_id ref idx s = some s' ∧ Shrinks s s' := by
  unfold transfer_dispatch
  dsimp only
  have htaken := (Shrinks.add_slots s role idx (-1)).trans
    (Shrinks.act _ (.dispatch role request_id idx))
  have hwritten := htaken.trans (Shrinks.write _ ref
    { ((s.add_slots role idx (-1)).act (.dispatch role request_id idx)).transfers ref with
      receiver_instance := (idx : ℤ) } rfl rfl)
  have hrunning := hwritten.trans
    (Shrinks.transition _ request_id role.running none (some (role, idx)))
  obtain ⟨b, u, hfast, hu⟩ := fast_path_serves request_id idx (sendable_of_shrinks hrunning h)
  rw [hfast]
  cases b with
  | true => exact ⟨u, rfl, hrunning.trans hu⟩
  | false => exact ⟨_, rfl, (hrunning.trans hu).trans (Shrinks.act _ _)⟩

/-! ## The loops over the queues -/

theorem tta_select {role role' : Role} {idx : Option ℕ} (h : s.select role = some (idx, s')) :
    s'.tta role' = s.tta role' := by
  obtain ⟨_, _, heq⟩ := map_eq_some_iff.mp h
  cases heq
  cases role' <;> rfl

/-- A round of a queue whose transfers can be pushed does not raise. -/
theorem drain_step_serves {role : Role} (h : drainable c s role = true) :
    ∃ b s', drain_step c role s = some (b, s') ∧ Shrinks s s' := by
  unfold drainable at h
  rw [Bool.and_eq_true, Bool.or_eq_true, List.isEmpty_iff, Bool.not_eq_true',
    isEmpty_eq_false_iff, List.all_eq_true] at h
  unfold drain_step
  cases hqueue : s.tta role with
  | nil => exact ⟨_, _, rfl, Shrinks.refl s⟩
  | cons entry rest =>
    rw [hqueue] at h
    obtain ⟨idx, t, hselect⟩ := select_serves (h.1.resolve_left (cons_ne_nil _ _))
    have ht := Shrinks.select hselect
    rw [hselect]
    cases idx with
    | none => exact ⟨_, _, rfl, ht⟩
    | some idx =>
      have hrest : rest ⊆ t.tta role := by
        rw [tta_select hselect, hqueue]
        exact subset_cons_self entry rest
      have htaken := ht.trans (Shrinks.set_tta role hrest)
      obtain ⟨u, hdispatch, hu⟩ := transfer_dispatch_serves entry.request_id idx
        (sendable_of_shrinks htaken (h.2 entry mem_cons_self))
      refine ⟨true, u, ?_, htaken.trans hu⟩
      dsimp only
      rw [hdispatch, map_some]

/-- A round of the encoders' queue does not raise when there is an encoder. -/
theorem drain_encoder_step_serves (h : s.encoder_tta = [] ∨ s.free_slots .encoder ≠ []) :
    ∃ b s', drain_encoder_step s = some (b, s') ∧ Shrinks s s' ∧
      (s'.encoder_tta = [] ∨ s'.free_slots .encoder ≠ []) := by
  unfold drain_encoder_step
  cases hqueue : s.encoder_tta with
  | nil => exact ⟨_, _, rfl, Shrinks.refl s, Or.inl hqueue⟩
  | cons entry rest =>
    have hslots := h.resolve_left (hqueue ▸ cons_ne_nil _ _)
    obtain ⟨idx, t, hselect⟩ := select_serves hslots
    have ht := Shrinks.select hselect
    rw [hselect]
    cases idx with
    | none => exact ⟨_, _, rfl, ht, Or.inr (ht.free_slots .encoder hslots)⟩
    | some idx =>
      have htaken : Shrinks t (t.set_encoder_tta rest) :=
        Shrinks.of_eq (fun role => by cases role <;> exact Subset.refl _) rfl rfl rfl
      have hsent : Shrinks (t.set_encoder_tta rest)
          (dispatch_to_encoder entry.request_id entry.payload idx (t.set_encoder_tta rest)) :=
        (((Shrinks.add_slots _ _ _ _).trans (Shrinks.act _ _)).trans
          (Shrinks.transition _ _ _ _ _)).trans (Shrinks.act _ _)
      have hall := (ht.trans htaken).trans hsent
      exact ⟨_, _, rfl, hall, Or.inr (hall.free_slots .encoder hslots)⟩

/-- A loop over a queue does not raise when no round of it does. -/
theorem drain_serves {step : Server → Option (Bool × Server)} (Q : Server → Prop)
    (hstep : ∀ s, Q s → ∃ b s', step s = some (b, s') ∧ Q s') (n : ℕ) :
    ∀ s, Q s → ∃ s', drain step n s = some s' ∧ Q s' := by
  induction n with
  | zero => exact fun s hs => ⟨s, rfl, hs⟩
  | succ n ih =>
    intro s hs
    obtain ⟨b, t, hfirst, ht⟩ := hstep s hs
    unfold drain
    rw [hfirst]
    cases b with
    | false => exact ⟨t, rfl, ht⟩
    | true => exact ih t ht

theorem drain_role_serves {role : Role} (n : ℕ) (h : drainable c s role = true) :
    ∃ s', drain (drain_step c role) n s = some s' ∧ Shrinks s s' := by
  refine drain_serves (Shrinks s) (fun t ht => ?_) n s (Shrinks.refl s)
  obtain ⟨b, s', hstep, hshrinks⟩ := drain_step_serves (drainable_of_shrinks ht h)
  exact ⟨b, s', hstep, ht.trans hshrinks⟩

theorem drain_all_serves (hencoder : s.encoder_tta = [] ∨ s.free_slots .encoder ≠ [])
    (hdenoiser : drainable c s .denoiser = true) (hdecoder : drainable c s .decoder = true) :
    ∃ s', drain_all_queues c s = some s' := by
  unfold drain_all_queues drain_encoder_tta drain_denoiser_tta drain_decoder_tta
  obtain ⟨t, ht, hs, -⟩ := drain_serves
    (fun t => Shrinks s t ∧ (t.encoder_tta = [] ∨ t.free_slots .encoder ≠ []))
    (fun t ht => by
      obtain ⟨b, u, hstep, hshrinks, hu⟩ := drain_encoder_step_serves ht.2
      exact ⟨b, u, hstep, ht.1.trans hshrinks, hu⟩)
    (s.encoder_tta.length + 1) s ⟨Shrinks.refl s, hencoder⟩
  obtain ⟨u, hu, ht'⟩ := drain_role_serves (t.denoiser_tta.length + 1)
    (drainable_of_shrinks hs hdenoiser)
  obtain ⟨v, hv, -⟩ := drain_role_serves (u.decoder_tta.length + 1)
    (drainable_of_shrinks (hs.trans ht') hdecoder)
  exact ⟨v, by rw [ht, bind_some, hu, bind_some, hv]⟩

theorem staffed_iff : staffed s = true ↔ ∀ state, s.glm = some state →
    state.pending_denoiser_requests = [] ∨
      s.free_slots .denoiser ≠ [] ∧ state.denoiser_worker_available ≠ [] := by
  unfold staffed
  rw [Option.all_eq_true]
  simp

/-- What the dispatcher of the GLM mode chooses from. -/
theorem available_slots_ne_nil {slots : List ℤ} {available : List Bool} :
    slots.zipWith (fun slots available => if available then slots else 0) available ≠ [] ↔
      slots ≠ [] ∧ available ≠ [] := by
  rw [ne_eq, zipWith_eq_nil_iff, not_or]

theorem denoiser_step_serves (h : staffed s = true) :
    ∃ b s', dispatch_glm_denoiser_step s = some (b, s') ∧ staffed s' = true := by
  unfold dispatch_glm_denoiser_step
  cases hglm : s.glm with
  | none => exact ⟨_, _, rfl, h⟩
  | some state =>
    dsimp only
    cases hqueue : state.pending_denoiser_requests with
    | nil => exact ⟨_, _, rfl, h⟩
    | cons r rest =>
      have hstaffed := (staffed_iff.mp h state hglm).resolve_left (hqueue ▸ cons_ne_nil _ _)
      obtain ⟨idx, policy, hselect⟩ := select_with_capacity_serves (s.dispatcher .denoiser)
        (available_slots_ne_nil.mpr hstaffed)
      rw [hselect]
      cases idx with
      | none => exact ⟨_, _, rfl, h⟩
      | some worker_idx =>
        refine ⟨_, _, rfl, staffed_iff.mpr ?_⟩
        intro state' hstate'
        cases hstate'
        exact Or.inr ⟨(Shrinks.add_slots s .denoiser worker_idx (-1)).free_slots _ hstaffed.1,
          hstaffed.2⟩

theorem denoiser_dispatch_serves_iff :
    (∃ s', dispatch_glm_denoiser_requests_if_ready s = some s') ↔ staffed s = true := by
  unfold dispatch_glm_denoiser_requests_if_ready
  cases hglm : s.glm with
  | none => exact iff_of_true ⟨s, rfl⟩ (by unfold staffed; rw [hglm]; rfl)
  | some state =>
    constructor
    · rintro ⟨s', hserved⟩
      by_contra hnot
      have hshort : state.pending_denoiser_requests ≠ [] ∧
          ¬ (s.free_slots .denoiser ≠ [] ∧ state.denoiser_worker_available ≠ []) := by
        rw [staffed_iff] at hnot
        push Not at hnot
        obtain ⟨state', hstate', hpending, hnone⟩ := hnot
        cases hglm.symm.trans hstate'
        exact ⟨hpending, fun hboth => hboth.2 (hnone hboth.1)⟩
      -- the first round has a request to send and nobody to choose from
      obtain ⟨r, rest, hqueue⟩ := exists_cons_of_ne_nil hshort.1
      have hstep : dispatch_glm_denoiser_step s = none := by
        unfold dispatch_glm_denoiser_step
        rw [hglm]
        dsimp only
        rw [hqueue]
        rw [not_ne_iff.mp (mt available_slots_ne_nil.mp hshort.2)]
        rfl
      unfold drain at hserved
      rw [hstep] at hserved
      cases hserved
    · intro hs
      obtain ⟨s', hserved, -⟩ := drain_serves (fun s => staffed s = true)
        (fun _ h => denoiser_step_serves h) (state.pending_denoiser_requests.length + 1) s hs
      exact ⟨s', hserved⟩

/-! ## Every call -/

theorem allocated_serves_iff (role : Role) (msg : AllocatedMsg) :
    (∃ s', handle_transfer_allocated c msg s = some s') ↔
      serves c s (.transfer role (.allocated msg)) = true := by
  unfold handle_transfer_allocated
  dsimp only [serves]
  cases htransfer : s.transfer_of msg.request_id with
  | none => exact iff_of_true ⟨_, rfl⟩ rfl
  | some ref =>
    rw [Option.all_some]
    have hstate : (s.write ref { s.transfers ref with
        receiver_session_id := msg.session_id
        receiver_pool_ptr := msg.pool_ptr
        receiver_slot_offset := msg.slot_offset }).state_of msg.request_id
          = s.state_of msg.request_id := rfl
    dsimp only
    rw [hstate]
    cases c.socket (allocated_sender (s.state_of msg.request_id))
        (s.transfers ref).sender_instance with
    | none => exact iff_of_false nofun nofun
    | some idx => exact iff_of_true ⟨_, rfl⟩ rfl

/-- The notification needs a socket for the instance that the transfer was last dispatched to. -/
theorem send_ready_serves_iff {request_id : RequestId} {p2p : TransferRequestState} :
    (∃ s', send_ready c request_id p2p s = some s') ↔
      ((s.state_of request_id).bind ready_receiver).all (fun role =>
        (c.socket_at role p2p.receiver_instance).isSome) = true := by
  unfold send_ready
  cases (s.state_of request_id).bind ready_receiver with
  | none => exact iff_of_true ⟨_, rfl⟩ rfl
  | some role =>
    rw [Option.all_some]
    dsimp only
    cases c.socket_at role p2p.receiver_instance with
    | none => exact iff_of_false nofun nofun
    | some idx => exact iff_of_true ⟨_, rfl⟩ rfl

theorem pushed_serves_iff (role : Role) (request_id : RequestId) :
    (∃ s', handle_transfer_pushed c request_id s = some s') ↔
      serves c s (.transfer role (.pushed request_id)) = true := by
  unfold handle_transfer_pushed
  dsimp only [serves]
  cases s.transfer_of request_id with
  | none => exact iff_of_true ⟨_, rfl⟩ rfl
  | some ref =>
    cases (s.state_of request_id).bind pushed_sender with
    | none => exact send_ready_serves_iff
    | some sender =>
      dsimp only
      cases s.instance_of sender request_id with
      | none => exact send_ready_serves_iff
      | some idx => exact send_ready_serves_iff

/-- Every other call raises exactly when one of its indices is out of range. -/
theorem handle_serves_iff (now : ℚ) {e : Event} (hdrain : e ≠ .drain) :
    (∃ s', handle c now e s = some s') ↔ serves c s e = true := by
  cases e with
  | drain => exact absurd rfl hdrain
  | transfer role msg =>
    cases msg with
    | allocated msg => exact allocated_serves_iff role msg
    | pushed request_id => exact pushed_serves_iff role request_id
    | _ => exact iff_of_true ⟨_, rfl⟩ rfl
  | denoiser_dispatch => exact denoiser_dispatch_serves_iff
  | _ => exact iff_of_true ⟨_, rfl⟩ rfl

/-- A call whose indices are in range does not raise. The loop over the queues may not reach a
transfer that cannot be pushed, so there the converse fails. -/
theorem handle_serves (now : ℚ) {e : Event} (h : serves c s e = true) :
    ∃ s', handle c now e s = some s' := by
  by_cases hdrain : e = .drain
  · subst hdrain
    unfold handle
    by_cases hglm : s.glm.isNone = true
    · rw [if_pos hglm]
      unfold serves at h
      rw [Bool.or_eq_true, Bool.and_eq_true, Bool.and_eq_true, Bool.or_eq_true, List.isEmpty_iff,
        Bool.not_eq_true', isEmpty_eq_false_iff] at h
      have hqueues := h.resolve_left (by simpa using hglm)
      exact drain_all_serves hqueues.1.1 hqueues.1.2 hqueues.2
    · rw [if_neg hglm]
      exact ⟨s, rfl⟩
  · exact (handle_serves_iff now hdrain).mpr h

/-! ## Runs of the loop -/

/-- The calls of a run either have their indices in range or find nobody waiting. -/
def serves_or_idle (c : Config) (s : Server) (e : Event) : Bool :=
  serves c s e || s.pending.items.isEmpty

theorem idle_iff : s.pending.items.isEmpty = true ↔ ∀ r, s.pending.get? r = none := by
  rw [List.isEmpty_iff]
  refine ⟨fun hnil r => ?_, items_nil_of_get?⟩
  rw [get?_eq_none_iff]
  unfold OrderedDict.keys
  rw [hnil]
  exact not_mem_nil

/-- A run whose calls have their indices in range ends only when nobody waits. -/
theorem Loop.RunOf.serving_or_idle {loop : Loop} (h : Loop.RunOf c (serves_or_idle c) loop) :
    loop.running = true ∨ ∀ r, loop.server.pending.get? r = none := by
  induction h with
  | init => exact Or.inl rfl
  | @call loop _ now e he ih =>
    cases loop with
    | ended s => exact Or.inr (ih.resolve_left nofun)
    | serving s =>
      unfold Loop.call
      dsimp only
      cases hstep : handle c now e s with
      | some s' => exact Or.inl rfl
      | none =>
        rcases Bool.or_eq_true _ _ ▸ he with hserves | hidle
        · obtain ⟨s', hs'⟩ := handle_serves now hserves
          rw [Loop.server, hstep] at hs'
          cases hs'
        · exact Or.inr (idle_iff.mp hidle)

/-- One encoder, two denoisers and one decoder, with two slots each. -/
def two_denoisers : Config :=
  { small_config with
    endpoints := fun role =>
      match role with
      | .denoiser => ["denoiser 0", "denoiser 1"]
      | role => [role.value]
    capacity := fun _ => 2 }

/-- What an instance says that has staged the output of a request. -/
def staged_message (id : String) : StagedMsg := ⟨.client id, 64, "manifest", "session", 0, 0, "{}"⟩

/-- Two requests run on the two denoisers, and the one of denoiser 1 goes on to the decoder. -/
def decoder_calls : List (ℚ × Event) :=
  [(0, text_request "client b" "b"), (300, text_request "client a" "a"), (300, .drain),
    (301, .transfer .encoder (.staged (staged_message "a"))),
    (301, .transfer .encoder (.staged (staged_message "b"))), (301, .drain),
    (302, .transfer .denoiser (.done ⟨staged_message "b", none, true⟩)), (302, .drain)]

/-- The answer of the decoder and its result arrive in time. -/
def timely_calls : List (ℚ × Event) :=
  decoder_calls ++ [(303, .transfer .decoder (.allocated ⟨.client "b", "session", 0, 0⟩)),
    (303, .transfer .denoiser (.pushed (.client "b"))),
    (304, .transfer .decoder (.done ⟨staged_message "b", none, false⟩))]

/-- The request of denoiser 1 times out, and the answer of the decoder arrives after that. -/
def late_calls : List (ℚ × Event) :=
  decoder_calls ++ [(601, .timeouts),
    (602, .transfer .decoder (.allocated ⟨.client "b", "session", 0, 0⟩))]

end LightningH3.DiffusionServer
