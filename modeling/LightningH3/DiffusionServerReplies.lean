/-
Every accepted request is answered once and never forgotten.

Most handlers neither track nor answer anything: they move tracked requests between active states
and send messages to instances (`Quiet`). The others end a request: whatever state it is in, it
leaves the map of waiting clients and the tracker in the same call (`Balanced.finish`). So between
two calls the two have the same requests, all of them active, in both modes and after any order of
messages (`Balanced.handle`).
-/
import LightningH3.DiffusionServerGlm

set_option autoImplicit false

namespace LightningH3.DiffusionServer

open List Tracker Option OrderedDict

/-! ## What the trace says of the clients -/

/-- The submissions accepted under an id: the clients and the times. -/
def accepted (request_id : RequestId) (trace : List Action) : List (String × ℚ) :=
  trace.filterMap fun a =>
    match a with
    | .accept r client_identity time =>
      if r = request_id then some (client_identity, time) else none
    | _ => none

/-- The clients that got a reply under an id. -/
def replied (request_id : RequestId) (trace : List Action) : List String :=
  trace.filterMap fun a =>
    match a with
    | .reply client_identity r _ => if r = request_id then some client_identity else none
    | _ => none

/-- An action that neither accepts nor answers. -/
def Action.quiet : Action → Bool
  | .accept _ _ _ => false
  | .reply _ _ _ => false
  | _ => true

theorem accepted_append (request_id : RequestId) (l l' : List Action) :
    accepted request_id (l ++ l') = accepted request_id l ++ accepted request_id l' :=
  filterMap_append

theorem replied_append (request_id : RequestId) (l l' : List Action) :
    replied request_id (l ++ l') = replied request_id l ++ replied request_id l' :=
  filterMap_append

variable {request_id : RequestId}

theorem accepted_quiet {l : List Action} (h : ∀ a ∈ l, a.quiet = true) :
    accepted request_id l = [] := by
  apply filterMap_eq_nil_iff.mpr
  intro a ha
  have hquiet := h a ha
  cases a with
  | accept r i t => cases hquiet
  | _ => rfl

theorem replied_quiet {l : List Action} (h : ∀ a ∈ l, a.quiet = true) :
    replied request_id l = [] := by
  apply filterMap_eq_nil_iff.mpr
  intro a ha
  have hquiet := h a ha
  cases a with
  | reply i r e => cases hquiet
  | _ => rfl

/-! ## The invariant -/

/-- Between two calls, apart from the state of one request that a call may be about to end. -/
structure BalancedBut (ending : Option RequestId) (s : Server) : Prop where
  tracked : ∀ r, r ∈ s.pending.keys ↔ r ∈ s.tracker.keys
  active : ∀ r record, s.tracker.get? r = some record → ending ≠ some r →
    record.state.active = true
  answered : ∀ r, (accepted r s.trace).map Prod.fst
    = replied r s.trace ++ (s.pending.get? r).toList
  submitted : ∀ r record, s.tracker.get? r = some record →
    (accepted r s.trace).getLast?.map Prod.snd = some record.submit_time

/-- The pending clients are those of the tracked requests, every tracked request is active, and the
accepted submissions are those answered and the one that waits. -/
def Balanced (s : Server) : Prop := BalancedBut none s

/-- A step that neither accepts nor answers: requests move between active states. -/
structure Quiet (s s' : Server) : Prop where
  pending : s'.pending = s.pending
  keys : ∀ r, r ∈ s'.tracker.keys ↔ r ∈ s.tracker.keys
  record : ∀ r record', s'.tracker.get? r = some record' → ∃ record, s.tracker.get? r = some record ∧
    record'.submit_time = record.submit_time ∧
      (record.state.active = true → record'.state.active = true)
  trace : ∃ l, s'.trace = s.trace ++ l ∧ ∀ a ∈ l, a.quiet = true

namespace Quiet

theorem refl (s : Server) : Quiet s s where
  pending := rfl
  keys := fun _ => Iff.rfl
  record := fun _ record h => ⟨record, h, rfl, id⟩
  trace := ⟨[], (append_nil _).symm, fun _ h => by cases h⟩

variable {s s' : Server}

theorem trans {s'' : Server} (h : Quiet s s') (h' : Quiet s' s'') : Quiet s s'' where
  pending := h'.pending.trans h.pending
  keys := fun r => (h'.keys r).trans (h.keys r)
  record := by
    intro r record'' hget
    obtain ⟨record', hget', htime', hactive'⟩ := h'.record r record'' hget
    obtain ⟨record, hget, htime, hactive⟩ := h.record r record' hget'
    exact ⟨record, hget, htime'.trans htime, fun ha => hactive' (hactive ha)⟩
  trace := by
    obtain ⟨l, hl, hquiet⟩ := h.trace
    obtain ⟨l', hl', hquiet'⟩ := h'.trace
    refine ⟨l ++ l', ?_, forall_mem_append.mpr ⟨hquiet, hquiet'⟩⟩
    rw [hl', hl, append_assoc]

theorem of_eq (htracker : s'.tracker = s.tracker) (hpending : s'.pending = s.pending)
    (htrace : s'.trace = s.trace) : Quiet s s' where
  pending := hpending
  keys := fun _ => by rw [htracker]
  record := by
    intro r record h
    rw [htracker] at h
    exact ⟨record, h, rfl, id⟩
  trace := ⟨[], by rw [htrace, append_nil], fun _ h => by cases h⟩

theorem act (s : Server) {a : Action} (ha : a.quiet = true) : Quiet s (s.act a) where
  pending := rfl
  keys := fun _ => Iff.rfl
  record := fun _ record h => ⟨record, h, rfl, id⟩
  trace := by
    refine ⟨[a], rfl, ?_⟩
    intro b hb
    rw [mem_singleton.mp hb]
    exact ha

theorem transition (s : Server) (request_id : RequestId) {new_state : RequestState}
    (error : Option String) (at_instance : Option (Role × ℕ)) (hactive : new_state.active = true) :
    Quiet s (s.transition request_id new_state error at_instance) where
  pending := rfl
  keys := fun _ => keys_move
  record := by
    intro r record' hget
    have hget' : (s.tracker.move request_id new_state error at_instance).get? r = some record' :=
      hget
    rw [get?_move] at hget'
    by_cases hr : r = request_id
    · rw [if_pos hr, map_eq_some_iff] at hget'
      obtain ⟨record, hrecord, heq⟩ := hget'
      refine ⟨record, hrecord, ?_, ?_⟩
      · rw [← heq]
        split
        · rfl
        · rfl
      · intro ha
        rw [← heq]
        split
        · exact hactive
        · exact ha
    · rw [if_neg hr] at hget'
      exact ⟨record', hget', rfl, id⟩
  trace := ⟨[], (append_nil _).symm, fun _ h => by cases h⟩

theorem balanced {ending : Option RequestId} (h : Quiet s s') (hs : BalancedBut ending s) :
    BalancedBut ending s' := by
  obtain ⟨l, hl, hquiet⟩ := h.trace
  refine ⟨?_, ?_, ?_, ?_⟩
  · intro r
    rw [h.pending, h.keys r]
    exact hs.tracked r
  · intro r record' hget hr
    obtain ⟨record, hget', _, hactive⟩ := h.record r record' hget
    exact hactive (hs.active r record hget' hr)
  · intro r
    rw [h.pending, hl, accepted_append, replied_append, accepted_quiet hquiet, replied_quiet hquiet,
      append_nil, append_nil]
    exact hs.answered r
  · intro r record' hget
    obtain ⟨record, hget', htime, _⟩ := h.record r record' hget
    rw [hl, accepted_append, accepted_quiet hquiet, append_nil, htime]
    exact hs.submitted r record hget'

end Quiet

variable {s s' : Server}

theorem Balanced.of_eq (h : Balanced s) (htracker : s'.tracker = s.tracker)
    (hpending : s'.pending = s.pending) (htrace : s'.trace = s.trace) : Balanced s' :=
  (Quiet.of_eq htracker hpending htrace).balanced h

/-! ## The end of a request -/

section ending

variable {request_id : RequestId} {ending : Option RequestId} {s : Server}

theorem BalancedBut.weaken (h : Balanced s) : BalancedBut (some request_id) s where
  tracked := h.tracked
  active := fun r record hget _ => h.active r record hget (by simp)
  answered := h.answered
  submitted := h.submitted

section

variable (h : BalancedBut (some request_id) s)
include h

theorem BalancedBut.transition (new_state : RequestState)
    (error : Option String) (at_instance : Option (Role × ℕ)) :
    BalancedBut (some request_id) (s.transition request_id new_state error at_instance) where
  tracked := fun r => (h.tracked r).trans keys_move.symm
  active := by
    intro r record hget hr
    have hne : r ≠ request_id := fun heq => hr (congrArg some heq.symm)
    have hget' : (s.tracker.move request_id new_state error at_instance).get? r = some record :=
      hget
    rw [get?_move_ne hne] at hget'
    exact h.active r record hget' hr
  answered := h.answered
  submitted := by
    intro r record hget
    have hget' : (s.tracker.move request_id new_state error at_instance).get? r = some record :=
      hget
    rw [get?_move] at hget'
    by_cases hr : r = request_id
    · rw [if_pos hr, map_eq_some_iff] at hget'
      obtain ⟨record', hrecord, heq⟩ := hget'
      have htime : record.submit_time = record'.submit_time := by
        rw [← heq]
        split
        · rfl
        · rfl
      rw [htime]
      exact h.submitted r record' hrecord
    · rw [if_neg hr] at hget'
      exact h.submitted r record hget'

theorem BalancedBut.transition_both
    (first second : RequestState) (error : Option String) :
    BalancedBut (some request_id) (s.transition_both request_id first second error) := by
  have hfirst := h.transition first none none
  unfold Server.transition_both
  unfold Server.transition Tracker.move at hfirst
  cases htr : s.tracker.transition request_id first none none with
  | none => exact h
  | some tracker =>
    rw [htr] at hfirst
    exact BalancedBut.transition hfirst second error none

/-- **The end of a request.** Its client leaves the map, its record leaves the tracker, and it is
answered if its client still waits. -/
theorem Balanced.finish {s' : Server} (error : Option String)
    (htracker : ∀ r, s'.tracker.get? r = if r = request_id then none else s.tracker.get? r)
    (hpending : ∀ r, s'.pending.get? r = if r = request_id then none else s.pending.get? r)
    (htrace : s'.trace = s.trace ++
      ((s.pending.get? request_id).map fun i => Action.reply i request_id error).toList) :
    Balanced s' := by
  have hacc : ∀ r, accepted r s'.trace = accepted r s.trace := by
    intro r
    rw [htrace, accepted_append]
    have hnone : accepted r ((s.pending.get? request_id).map fun i =>
        Action.reply i request_id error).toList = [] := by
      cases s.pending.get? request_id with
      | none => rfl
      | some i => rfl
    rw [hnone, append_nil]
  refine ⟨?_, ?_, ?_, ?_⟩
  · intro r
    have htracked := h.tracked r
    rw [mem_keys_iff, mem_keys_iff] at htracked ⊢
    rw [htracker, hpending]
    by_cases hr : r = request_id
    · rw [if_pos hr, if_pos hr]
      exact iff_of_false (fun ⟨v, hv⟩ => by cases hv) (fun ⟨v, hv⟩ => by cases hv)
    · rw [if_neg hr, if_neg hr]
      exact htracked
  · intro r record hget _
    rw [htracker] at hget
    by_cases hr : r = request_id
    · rw [if_pos hr] at hget
      cases hget
    · rw [if_neg hr] at hget
      exact h.active r record hget fun heq => hr (Option.some.inj heq).symm
  · intro r
    rw [hacc, h.answered r, htrace, replied_append, hpending, append_assoc]
    by_cases hr : r = request_id
    · subst hr
      rw [if_pos rfl]
      cases s.pending.get? r with
      | none => rfl
      | some i =>
        unfold replied
        simp
    · rw [if_neg hr]
      have hnone : replied r ((s.pending.get? request_id).map fun i =>
          Action.reply i request_id error).toList = [] := by
        cases s.pending.get? request_id with
        | none => rfl
        | some i =>
          unfold replied
          simp [Ne.symm hr]
      rw [hnone, nil_append]
  · intro r record hget
    rw [hacc]
    rw [htracker] at hget
    by_cases hr : r = request_id
    · rw [if_pos hr] at hget
      cases hget
    · rw [if_neg hr] at hget
      exact h.submitted r record hget

end

theorem answer_tracker (s : Server) (request_id : RequestId) (error : Option String) :
    (s.answer request_id error).tracker = s.tracker := by
  unfold Server.answer
  cases s.pending.get? request_id with
  | none => rfl
  | some i => rfl

theorem answer_pending (s : Server) (request_id : RequestId) (error : Option String)
    (r : RequestId) : (s.answer request_id error).pending.get? r =
      if r = request_id then none else s.pending.get? r := by
  unfold Server.answer
  cases hget : s.pending.get? request_id with
  | none =>
    by_cases hr : r = request_id
    · rw [if_pos hr, hr, hget]
    · rw [if_neg hr]
  | some i => exact get?_erase _ _ _

theorem answer_trace (s : Server) (request_id : RequestId) (error : Option String) :
    (s.answer request_id error).trace = s.trace ++
      ((s.pending.get? request_id).map fun i => Action.reply i request_id error).toList := by
  unfold Server.answer
  cases s.pending.get? request_id with
  | none => exact (append_nil _).symm
  | some i => rfl

theorem complete_with_error_eq (s : Server) (request_id : RequestId) (error_msg : String) :
    s.complete_with_error request_id error_msg
      = s.leave request_id .failed (some error_msg) (some error_msg) := rfl

theorem leave_rest (s : Server) (request_id : RequestId) (new_state : RequestState)
    (error error' : Option String) : s.leave request_id new_state error error' = { s with
        tracker := (s.leave request_id new_state error error').tracker
        pending := (s.leave request_id new_state error error').pending
        trace := (s.leave request_id new_state error error').trace } := by
  unfold Server.leave Server.answer
  split
  · rfl
  · rfl

theorem get?_leave (s : Server) (request_id : RequestId) (new_state : RequestState)
    (error error' : Option String) (r : RequestId) :
    (s.leave request_id new_state error error').tracker.get? r =
      if r = request_id then none else s.tracker.get? r := by
  unfold Server.leave Server.remove
  rw [get?_erase, answer_tracker]
  by_cases hr : r = request_id
  · rw [if_pos hr, if_pos hr]
  · rw [if_neg hr, if_neg hr]
    exact get?_move_ne hr

theorem free_slot_rest (s : Server) (role : Role) (idx : Option ℕ) :
    s.free_slot role idx = { s with free_slots := (s.free_slot role idx).free_slots } := by
  cases idx with
  | none => rfl
  | some i => rfl

/-- A request that times out leaves, and the slot that its record names for its state is given
back. -/
theorem time_out_eq (c : Config) (s : Server) (r : RequestId) : ∃ role idx error,
    time_out c s r = (s.free_slot role idx).leave r .failed error error ∧
      ((s.state_of r).bind timeout_role = none ∧ idx = none ∨
        (s.state_of r).bind timeout_role = some role ∧ idx = s.instance_of role r) := by
  unfold time_out Server.state_of Server.instance_of
  cases s.tracker.get? r with
  | none => exact ⟨.encoder, none, _, rfl, Or.inl ⟨rfl, rfl⟩⟩
  | some record =>
    dsimp only [map_some, bind_some]
    unfold free_slot_for_record
    cases timeout_role record.state with
    | none => exact ⟨.encoder, none, _, rfl, Or.inl ⟨rfl, rfl⟩⟩
    | some role => exact ⟨role, _, _, rfl, Or.inr ⟨rfl, rfl⟩⟩

theorem Balanced.answer_remove (h : BalancedBut (some request_id) s) (error : Option String) :
    Balanced ((s.answer request_id error).remove request_id) := by
  apply Balanced.finish h error
  · intro r
    have herase := get?_erase (s.answer request_id error).tracker request_id r
    rw [answer_tracker] at herase
    unfold Server.remove
    rw [answer_tracker]
    exact herase
  · exact answer_pending s request_id error
  · exact answer_trace s request_id error

theorem Balanced.leave (h : Balanced s) (request_id : RequestId) (new_state : RequestState)
    (error error' : Option String) : Balanced (s.leave request_id new_state error error') :=
  Balanced.answer_remove ((BalancedBut.weaken h).transition new_state error none) error'

theorem Balanced.complete_with_error (h : Balanced s) (error_msg : String) :
    Balanced (s.complete_with_error request_id error_msg) :=
  h.leave _ _ _ _

end ending

/-! ## Client requests -/

variable {now : ℚ}

theorem Balanced.accept (h : Balanced s) {tracker : Tracker}
    (hsubmit : s.tracker.submit request_id now = some tracker) (client_identity : String) :
    Balanced ({ s with
      tracker := tracker, pending := s.pending.set request_id client_identity }.act
        (.accept request_id client_identity now)) := by
  unfold Tracker.submit at hsubmit
  by_cases hin : request_id ∈ s.tracker.keys
  · rw [if_pos hin] at hsubmit
    cases hsubmit
  · rw [if_neg hin] at hsubmit
    cases hsubmit
    have hwaits : s.pending.get? request_id = none := by
      apply get?_eq_none_iff.mpr
      intro hp
      exact hin ((h.tracked request_id).mp hp)
    refine ⟨?_, ?_, ?_, ?_⟩
    · intro r
      unfold Server.act
      rw [mem_keys_set, mem_keys_set, h.tracked r]
    · intro r record hget _
      unfold Server.act at hget
      rcases get?_set_eq_some.mp hget with ⟨rfl, rfl⟩ | ⟨-, hget⟩
      · rfl
      · exact h.active r record hget (by simp)
    · intro r
      unfold Server.act
      rw [accepted_append, get?_set, map_append, h.answered r]
      by_cases hr : r = request_id
      · subst hr
        rw [hwaits]
        unfold accepted replied
        simp
      · rw [if_neg hr]
        unfold accepted replied
        simp [Ne.symm hr]
    · intro r record hget
      unfold Server.act at hget ⊢
      rw [get?_set] at hget
      rw [accepted_append]
      by_cases hr : r = request_id
      · subst hr
        rw [if_pos rfl] at hget
        cases hget
        unfold accepted
        simp
      · rw [if_neg hr] at hget
        have hnone : accepted r [.accept request_id client_identity now] = [] := by
          unfold accepted
          simp [Ne.symm hr]
        rw [hnone, append_nil]
        exact h.submitted r record hget

theorem Balanced.enqueue (h : Balanced s) (request_id : RequestId)
    (client_identity payload : String) (req : ClientReq) (now : ℚ) :
    Balanced (s.enqueue request_id client_identity payload req now) := by
  unfold Server.enqueue
  split
  · split
    · exact Balanced.complete_with_error h _
    · exact h.of_eq rfl rfl rfl
  · exact h.of_eq rfl rfl rfl

theorem Balanced.client_request (h : Balanced s) (now : ℚ) (frames : ClientFrames) :
    Balanced (handle_client_request now frames s) := by
  unfold handle_client_request
  cases frames with
  | malformed => exact h
  | other client_identity => exact (Quiet.act s rfl).balanced h
  | request client_identity payload req =>
    dsimp only
    cases hsubmit : s.tracker.submit (req.id now) now with
    | none => exact h
    | some tracker =>
      have hwaiting := (Quiet.transition _ (req.id now) none none
        (by decide : RequestState.encoder_waiting.active = true)).balanced
          (h.accept hsubmit client_identity)
      exact Balanced.enqueue hwaiting _ _ _ _ _

/-! ## Results and timeouts -/

theorem Quiet.add_slots (s : Server) (role : Role) (idx : ℕ) (n : ℤ) :
    Quiet s (s.add_slots role idx n) :=
  of_eq rfl rfl rfl

theorem Quiet.free_slot (s : Server) (role : Role) (idx : Option ℕ) :
    Quiet s (s.free_slot role idx) := by
  cases idx with
  | none => exact refl s
  | some i => exact add_slots s role i 1

theorem Balanced.role_error_frames (h : Balanced s) (role : Role) (frames : ResultFrames) :
    Balanced (handle_role_error_frames role frames s) := by
  unfold handle_role_error_frames
  split
  · exact h.complete_with_error _
  · exact h

/-- A result ends its request, and its transfer is forgotten when the client still waits. -/
theorem decoder_result_frames_cases (frames : ResultFrames) (s : Server) :
    (frames.request_id = none ∧ handle_decoder_result_frames frames s = s) ∨
    ∃ request_id new_state error f, frames.request_id = some request_id ∧
      s.free_slot .decoder (s.instance_of .decoder request_id) = f ∧
      (f.pending.get? request_id = none ∧ handle_decoder_result_frames frames s
          = f.leave request_id new_state error frames.error ∨
        f.pending.get? request_id ≠ none ∧ handle_decoder_result_frames frames s
          = (f.leave request_id new_state error frames.error).forget_transfer request_id) := by
  unfold handle_decoder_result_frames
  cases frames.request_id with
  | none => exact Or.inl ⟨rfl, rfl⟩
  | some request_id =>
    obtain ⟨f, hf⟩ : ∃ f, s.free_slot .decoder (s.instance_of .decoder request_id) = f := ⟨_, rfl⟩
    obtain ⟨new_state, error, hsettle⟩ : ∃ new_state error,
        f.settle request_id frames.error = f.transition request_id new_state error none := by
      unfold Server.settle
      cases truthy frames.error with
      | some error => exact ⟨_, _, rfl⟩
      | none => exact ⟨_, _, rfl⟩
    refine Or.inr ⟨request_id, new_state, error, f, rfl, hf, ?_⟩
    dsimp only
    rw [hf, hsettle]
    split
    · next hwaits =>
      refine Or.inl ⟨hwaits, ?_⟩
      unfold Server.leave Server.answer
      rw [hwaits]
    · next hwaits => exact Or.inr ⟨hwaits, rfl⟩

theorem Balanced.decoder_result_frames (h : Balanced s) (frames : ResultFrames) :
    Balanced (handle_decoder_result_frames frames s) := by
  rcases decoder_result_frames_cases frames s with
    ⟨-, heq⟩ | ⟨request_id, new_state, error, _, -, rfl, hend⟩
  · rw [heq]
    exact h
  · have hfree := (Quiet.free_slot s .decoder (s.instance_of .decoder request_id)).balanced h
    have hleft := Balanced.leave hfree request_id new_state error frames.error
    rcases hend with ⟨-, heq⟩ | ⟨-, heq⟩
    · rw [heq]
      exact hleft
    · rw [heq]
      exact hleft.of_eq rfl rfl rfl

theorem Balanced.time_out (h : Balanced s) (c : Config) (request_id : RequestId) :
    Balanced (time_out c s request_id) := by
  obtain ⟨role, idx, error, heq, -⟩ := time_out_eq c s request_id
  rw [heq]
  exact Balanced.leave ((Quiet.free_slot s role idx).balanced h) _ _ _ _

theorem Balanced.foldl {α : Type} {f : Server → α → Server}
    (hf : ∀ s a, Balanced s → Balanced (f s a)) (l : List α) :
    ∀ {s : Server}, Balanced s → Balanced (l.foldl f s) := by
  induction l with
  | nil => exact fun h => h
  | cons a _ ih => exact fun h => ih (hf _ a h)

theorem Quiet.leave_queues (s : Server) (request_ids : List RequestId) :
    Quiet s (s.leave_queues request_ids) :=
  of_eq rfl rfl rfl

theorem Quiet.clear_glm (timed_out : List RequestId) (s : Server) :
    Quiet s (clear_glm timed_out s) := by
  unfold DiffusionServer.clear_glm
  split
  · exact refl s
  · exact of_eq rfl rfl rfl

theorem Balanced.timeouts (h : Balanced s) (c : Config) (now : ℚ) :
    Balanced (handle_timeouts c now s) := by
  apply (Quiet.clear_glm _ _).balanced
  apply (Quiet.leave_queues _ _).balanced
  exact Balanced.foldl (fun s r hs => hs.time_out c r) _ h

/-! ## Steps that only talk to the instances -/

variable {c : Config} {request_id : RequestId} {role : Role} {b : Bool}

/-- A message to an instance. -/
def Action.sends : Action → Bool
  | .send _ _ _ => true
  | _ => false

/-- What is known of the instances, the transfer objects and the policies may change, and messages
are sent. -/
structure Exchange (s s' : Server) : Prop where
  rest : s' = { s with
    transfers := s'.transfers
    peers := s'.peers
    dispatcher := s'.dispatcher
    trace := s'.trace }
  trace : ∃ l, s'.trace = s.trace ++ l ∧ ∀ a ∈ l, a.sends = true

namespace Exchange

theorem refl (s : Server) : Exchange s s := ⟨rfl, [], (append_nil _).symm, nofun⟩

theorem trans {s'' : Server} (h : Exchange s s') (h' : Exchange s' s'') : Exchange s s'' := by
  obtain ⟨l, hl, hsends⟩ := h.trace
  obtain ⟨l', hl', hsends'⟩ := h'.trace
  refine ⟨h'.rest.trans (by rw [h.rest]), l ++ l', ?_, forall_mem_append.mpr ⟨hsends, hsends'⟩⟩
  rw [hl', hl, append_assoc]

theorem write (s : Server) (ref : ℕ) (p2p : TransferRequestState) : Exchange s (s.write ref p2p) :=
  ⟨rfl, [], (append_nil _).symm, nofun⟩

theorem set_peer (s : Server) (role : Role) (idx : ℕ) (info : PeerInfo) :
    Exchange s (s.set_peer role idx info) :=
  ⟨rfl, [], (append_nil _).symm, nofun⟩

theorem send (s : Server) (role : Role) (idx : ℕ) (message : Message) :
    Exchange s (s.act (.send role idx message)) :=
  ⟨rfl, _, rfl, forall_mem_singleton.mpr rfl⟩

theorem select {idx : Option ℕ} (h : s.select role = some (idx, s')) : Exchange s s' := by
  unfold Server.select at h
  rw [map_eq_some_iff] at h
  obtain ⟨r, _, hr⟩ := h
  cases hr
  exact ⟨rfl, [], (append_nil _).symm, nofun⟩

theorem fast_path {ref : ℕ} {idx : ℕ}
    (h : try_fast_path_push c request_id ref role idx s = some (b, s')) : Exchange s s' := by
  unfold try_fast_path_push at h
  cases hpeer : (s.peers role).get? idx with
  | none =>
    rw [hpeer] at h
    cases h
    exact refl s
  | some peer =>
    rw [hpeer] at h
    dsimp only at h
    cases hslots : peer.free_preallocated_slots with
    | nil =>
      rw [hslots] at h
      cases h
      exact refl s
    | cons slot_info rest =>
      rw [hslots] at h
      dsimp only at h
      by_cases hsize : slot_info.size < (s.transfers ref).data_size
      · rw [if_pos hsize] at h
        cases h
        exact refl s
      · rw [if_neg hsize] at h
        cases hsocket : c.socket role.sender (s.transfers ref).sender_instance with
        | none =>
          rw [hsocket] at h
          cases h
        | some i =>
          rw [hsocket] at h
          cases h
          exact ((set_peer s _ _ _).trans (write _ _ _)).trans (send _ _ _ _)

theorem allocated {msg : AllocatedMsg} (h : handle_transfer_allocated c msg s = some s') :
    Exchange s s' := by
  unfold handle_transfer_allocated at h
  split at h
  · cases h
    exact refl s
  · dsimp only at h
    split at h
    · cases h
    · cases h
      exact (write s _ _).trans (send _ _ _ _)

theorem send_ready {p2p : TransferRequestState} (h : send_ready c request_id p2p s = some s') :
    Exchange s s' := by
  unfold DiffusionServer.send_ready at h
  split at h
  · cases h
    exact refl s
  · split at h
    · cases h
    · cases h
      exact send s _ _ _

theorem recycle (request_id : RequestId) (role : Role) (s : Server) :
    Exchange s (recycle request_id role s) := by
  unfold DiffusionServer.recycle
  split
  · exact refl s
  · unfold recycle_prealloc_slot
    dsimp only
    split
    · exact refl s
    · split
      · exact write s _ _
      · split
        · exact write s _ _
        · exact (set_peer s _ _ _).trans (write _ _ _)

variable (h : Exchange s s')
include h

theorem quiet : Quiet s s' where
  pending := by rw [h.rest]
  keys := fun _ => by rw [h.rest]
  record := by
    intro r record hget
    rw [h.rest] at hget
    exact ⟨record, hget, rfl, id⟩
  trace := by
    obtain ⟨l, hl, hsends⟩ := h.trace
    refine ⟨l, hl, ?_⟩
    intro a ha
    cases a with
    | send role idx message => rfl
    | _ => cases hsends _ ha

theorem transfer_state : s'.transfer_state = s.transfer_state := by rw [h.rest]

end Exchange

theorem transfer_dispatch_spec {ref : ℕ} {idx : ℕ}
    (h : transfer_dispatch c role request_id ref idx s = some s') :
    ∃ p2p, Exchange ((((s.add_slots role idx (-1)).act (.dispatch role request_id idx)).write ref
      p2p).transition request_id role.running none (some (role, idx))) s' := by
  unfold transfer_dispatch at h
  dsimp only at h
  refine ⟨{ ((s.add_slots role idx (-1)).act (.dispatch role request_id idx)).transfers ref with
      receiver_instance := (idx : ℤ) }, ?_⟩
  split at h
  · cases h
  · next hfast =>
    cases h
    exact Exchange.fast_path hfast
  · next hslow =>
    cases h
    exact (Exchange.fast_path hslow).trans (Exchange.send _ _ _ _)

theorem drain_encoder_step_cases (h : drain_encoder_step s = some (b, s')) :
    s' = s ∨ s.select .encoder = some (none, s') ∨ ∃ entry rest idx t,
      s.encoder_tta = entry :: rest ∧ s.select .encoder = some (some idx, t) ∧
      s' = dispatch_to_encoder entry.request_id entry.payload idx (t.set_encoder_tta rest) := by
  unfold drain_encoder_step at h
  split at h
  · cases h
    exact Or.inl rfl
  · next entry rest hqueue =>
    split at h
    · cases h
    · next hselect =>
      cases h
      exact Or.inr (Or.inl hselect)
    · next idx t hselect =>
      cases h
      exact Or.inr (Or.inr ⟨entry, rest, idx, t, hqueue, hselect, rfl⟩)

theorem drain_step_cases (h : drain_step c role s = some (b, s')) :
    Exchange s s' ∨ ∃ entry rest idx t, s.tta role = entry :: rest ∧
      s.select role = some (some idx, t) ∧ transfer_dispatch c role entry.request_id
        entry.transfer_state idx (t.set_tta role rest) = some s' := by
  unfold drain_step at h
  split at h
  · cases h
    exact Or.inl (Exchange.refl s)
  · next entry rest hqueue =>
    split at h
    · cases h
    · next hselect =>
      cases h
      exact Or.inl (Exchange.select hselect)
    · next idx t hselect =>
      rw [map_eq_some_iff] at h
      obtain ⟨u, hdispatch, hu⟩ := h
      cases hu
      exact Or.inr ⟨entry, rest, idx, t, hqueue, hselect, hdispatch⟩

section

variable {R : Server → Server → Prop} (hrefl : ∀ s, R s s)
  (htrans : ∀ {s s' s''}, R s s' → R s' s'' → R s s'')
include hrefl htrans

/-- What holds of a round holds of a loop over a queue. -/
theorem drain_rel {step : Server → Option (Bool × Server)}
    (hstep : ∀ {s s' b}, step s = some (b, s') → R s s') (n : ℕ) :
    ∀ {s s' : Server}, drain step n s = some s' → R s s' := by
  induction n with
  | zero =>
    intro s s' h
    cases h
    exact hrefl s
  | succ n ih =>
    intro s s' h
    unfold drain at h
    split at h
    · cases h
    · next hlast =>
      cases h
      exact hstep hlast
    · next hmore => exact htrans (hstep hmore) (ih h)

theorem drain_all_rel (hencoder : ∀ {s s' b}, drain_encoder_step s = some (b, s') → R s s')
    (hstep : ∀ {role s s' b}, drain_step c role s = some (b, s') → R s s')
    (h : drain_all_queues c s = some s') : R s s' := by
  unfold drain_all_queues at h
  rw [bind_eq_some_iff] at h
  obtain ⟨s₂, h₂, hdecoder⟩ := h
  rw [bind_eq_some_iff] at h₂
  obtain ⟨s₁, hfirst, hdenoiser⟩ := h₂
  exact htrans (htrans (drain_rel hrefl htrans hencoder _ hfirst)
    (drain_rel hrefl htrans hstep _ hdenoiser)) (drain_rel hrefl htrans hstep _ hdecoder)

end

/-! ## Transfers -/

namespace Quiet

theorem dispatch_to_encoder (s : Server) (request_id : RequestId) (payload : String) (idx : ℕ) :
    Quiet s (dispatch_to_encoder request_id payload idx s) := by
  have htaken := (add_slots s .encoder idx (-1)).trans (act _ (a := .dispatch .encoder request_id idx)
    rfl)
  have hmoved := htaken.trans (transition _ request_id none (some (.encoder, idx))
    (by decide : RequestState.encoder_running.active = true))
  exact hmoved.trans (act _ rfl)

theorem set_encoder_tta (s : Server) (entries : List EncoderTTAEntry) :
    Quiet s (s.set_encoder_tta entries) :=
  of_eq rfl rfl rfl

theorem forget_transfer (s : Server) (request_id : RequestId) :
    Quiet s (s.forget_transfer request_id) :=
  of_eq rfl rfl rfl

theorem set_tta (s : Server) (role : Role) (entries : List RoleTTAEntry) :
    Quiet s (s.set_tta role entries) := by
  cases role with
  | encoder => exact refl s
  | denoiser => exact of_eq rfl rfl rfl
  | decoder => exact of_eq rfl rfl rfl

theorem dispatch_running (s : Server) (role : Role) (request_id : RequestId) (ref idx : ℕ)
    (p2p : TransferRequestState) :
    Quiet s ((((s.add_slots role idx (-1)).act (.dispatch role request_id idx)).write ref
      p2p).transition request_id role.running none (some (role, idx))) := by
  have htaken := (add_slots s role idx (-1)).trans (act _ (a := .dispatch role request_id idx) rfl)
  have hrunning : role.running.active = true := by
    cases role with
    | encoder => decide
    | denoiser => decide
    | decoder => decide
  exact (htaken.trans (Exchange.write _ ref _).quiet).trans (transition _ request_id none (some (role, idx)) hrunning)

theorem transfer_dispatch {ref : ℕ} {idx : ℕ}
    (h : transfer_dispatch c role request_id ref idx s = some s') : Quiet s s' := by
  obtain ⟨p2p, hexchange⟩ := transfer_dispatch_spec h
  exact (dispatch_running s role request_id ref idx p2p).trans hexchange.quiet

theorem drain_encoder_step (h : drain_encoder_step s = some (b, s')) : Quiet s s' := by
  rcases drain_encoder_step_cases h with rfl | hselect | ⟨entry, rest, idx, t, -, hselect, rfl⟩
  · exact refl _
  · exact (Exchange.select hselect).quiet
  · exact ((Exchange.select hselect).quiet.trans (set_encoder_tta _ _)).trans
      (dispatch_to_encoder _ _ _ _)

theorem drain_step (h : drain_step c role s = some (b, s')) : Quiet s s' := by
  rcases drain_step_cases h with hexchange | ⟨entry, rest, idx, t, -, hselect, hdispatch⟩
  · exact hexchange.quiet
  · exact ((Exchange.select hselect).quiet.trans (set_tta _ role _)).trans
      (transfer_dispatch hdispatch)

theorem drain_all_queues (h : drain_all_queues c s = some s') : Quiet s s' :=
  drain_all_rel refl trans drain_encoder_step drain_step h

theorem register (c : Config) (msg : RegisterMsg) (s : Server) :
    Quiet s (handle_transfer_register c msg s) := by
  unfold handle_transfer_register
  split
  · exact refl s
  · split
    · exact refl s
    · dsimp only
      split
      · exact of_eq rfl rfl rfl
      · exact of_eq rfl rfl rfl

theorem staged (msg : StagedMsg) (s : Server) : Quiet s (handle_transfer_staged msg s) := by
  have hnew : Quiet s (s.new_transfer msg.request_id
      (staged_transfer msg (s.sender_instance .encoder msg.request_id))) := of_eq rfl rfl rfl
  have hdone := hnew.trans (transition _ msg.request_id none none
    (by decide : RequestState.encoder_done.active = true))
  have hwaiting := hdone.trans (transition _ msg.request_id none none
    (by decide : RequestState.denoising_waiting.active = true))
  exact hwaiting.trans (set_tta _ .denoiser _)

theorem pushed (h : handle_transfer_pushed c request_id s = some s') : Quiet s s' := by
  unfold handle_transfer_pushed at h
  split at h
  · cases h
    exact refl s
  · split at h
    · exact (Exchange.send_ready h).quiet
    · exact (free_slot s _ _).trans (Exchange.send_ready h).quiet

theorem stage_for_decoder (msg : DoneMsg) (ref : ℕ) (s : Server) :
    Quiet s (stage_for_decoder msg ref s) := by
  have hwaiting := (Exchange.write s ref (restaged_transfer msg
    (s.sender_instance .denoiser msg.request_id) (s.transfers ref))).quiet.trans
    (transition _ msg.request_id none none (by decide : RequestState.decoder_waiting.active = true))
  exact hwaiting.trans (set_tta _ .decoder _)

end Quiet

theorem Balanced.denoiser_done (h : Balanced s) (msg : DoneMsg) :
    Balanced (denoiser_done msg s) := by
  unfold DiffusionServer.denoiser_done
  dsimp only
  have hrecycled := (Exchange.recycle msg.request_id .denoiser s).quiet.balanced h
  split
  · apply Balanced.complete_with_error
    exact (Quiet.free_slot _ _ _).balanced hrecycled
  · have hdone := (Quiet.transition _ msg.request_id none none
      (by decide : RequestState.denoising_done.active = true)).balanced hrecycled
    unfold forward
    split
    · exact (Quiet.stage_for_decoder _ _ _).balanced hdone
    · exact (Quiet.free_slot _ _ _).balanced hdone

theorem Balanced.decoder_done (h : Balanced s) (msg : DoneMsg) : Balanced (decoder_done msg s) := by
  unfold DiffusionServer.decoder_done
  apply (Quiet.forget_transfer _ _).balanced
  have hfree := (Quiet.free_slot _ .decoder
    ((recycle msg.request_id .decoder s).instance_of .decoder msg.request_id)).balanced
      ((Exchange.recycle msg.request_id .decoder s).quiet.balanced h)
  obtain ⟨new_state, error, error', hconclude⟩ := conclude_eq msg
    ((recycle msg.request_id .decoder s).free_slot .decoder
      ((recycle msg.request_id .decoder s).instance_of .decoder msg.request_id))
  rw [hconclude]
  exact Balanced.leave hfree _ _ _ _

variable {c : Config}

theorem Balanced.transfer_result {role : Role} {msg : TransferMsg} (h : Balanced s)
    (hstep : handle_transfer_result c role msg s = some s') : Balanced s' := by
  cases msg with
  | register msg =>
    cases hstep
    exact (Quiet.register c msg s).balanced h
  | staged msg =>
    cases hstep
    exact (Quiet.staged msg s).balanced h
  | allocated msg => exact (Exchange.allocated hstep).quiet.balanced h
  | pushed request_id => exact (Quiet.pushed hstep).balanced h
  | done msg =>
    cases hstep
    cases role with
    | encoder => exact h
    | denoiser => exact h.denoiser_done msg
    | decoder => exact h.decoder_done msg
  | unknown =>
    cases hstep
    exact h

/-! ## The GLM mode -/

theorem Balanced.ar_dispatch (h : Balanced s) (c : Config) (now : ℚ) :
    Balanced (dispatch_glm_ar_batch_if_ready c now s) := by
  unfold dispatch_glm_ar_batch_if_ready
  split
  · exact h
  · split
    · exact h
    · exact h
    · dsimp only
      split
      · exact h
      · apply (Quiet.act _ rfl).balanced
        refine Balanced.of_eq (Balanced.foldl ?_ _ h) rfl rfl rfl
        intro s r hs
        exact (Quiet.transition s r none none
          (by decide : RequestState.encoder_running.active = true)).balanced hs

theorem Quiet.transition_both (s : Server) (request_id : RequestId) {first second : RequestState}
    (error : Option String) (hfirst : first.active = true) (hsecond : second.active = true) :
    Quiet s (s.transition_both request_id first second error) := by
  have hmove := Quiet.transition s request_id none none hfirst
  unfold Server.transition_both
  unfold Server.transition Tracker.move at hmove
  cases htr : s.tracker.transition request_id first none none with
  | none => exact Quiet.refl s
  | some tracker =>
    rw [htr] at hmove
    exact hmove.trans (Quiet.transition _ request_id error none hsecond)

theorem Balanced.ar_result (h : Balanced s) (error : Option String) (group : ℕ) :
    Balanced (process_glm_ar_batch_result error group s) := by
  unfold process_glm_ar_batch_result
  split
  · exact h
  · split
    · exact h
    · split
      · apply Balanced.foldl
        · intro s r hs
          exact hs.complete_with_error _
        · exact h.of_eq rfl rfl rfl
      · apply Balanced.foldl
        · intro s r hs
          unfold finish_ar
          split
          · exact hs
          · dsimp only
            split
            · exact hs
            · refine Balanced.of_eq ((Quiet.transition_both s _ none ?_ ?_).balanced hs) rfl rfl rfl
              · decide
              · decide
        · exact h.of_eq rfl rfl rfl

theorem Quiet.set_glm (s : Server) (state : GlmState) : Quiet s (s.set_glm state) :=
  of_eq rfl rfl rfl

theorem Quiet.set_dispatcher (s : Server) (role : Role) (policy : Policy) :
    Quiet s (s.set_dispatcher role policy) :=
  of_eq rfl rfl rfl

theorem Quiet.set_slots (s : Server) (role : Role) (idx : ℕ) (n : ℤ) :
    Quiet s (s.set_slots role idx n) :=
  of_eq rfl rfl rfl

theorem Quiet.free_worker (s : Server) (worker_idx : Option ℕ) :
    Quiet s (s.free_worker worker_idx) := by
  cases worker_idx with
  | none => exact refl s
  | some w => exact set_slots s _ _ _

theorem answer_transition_both (s : Server) (request_id : RequestId) (error : Option String)
    (first second : RequestState) (error' : Option String) :
    (s.answer request_id error).transition_both request_id first second error'
      = (s.transition_both request_id first second error').answer request_id error := by
  unfold Server.transition_both
  rw [answer_tracker]
  cases htr : s.tracker.transition request_id first none none with
  | none => rfl
  | some tracker =>
    unfold Server.answer
    cases hget : s.pending.get? request_id with
    | none =>
      unfold Server.transition
      rw [hget]
    | some i =>
      unfold Server.transition
      rw [hget]
      rfl

theorem Quiet.denoiser_step {b : Bool} (h : dispatch_glm_denoiser_step s = some (b, s')) :
    Quiet s s' := by
  unfold dispatch_glm_denoiser_step at h
  split at h
  · cases h
    exact Quiet.refl s
  · split at h
    · cases h
      exact Quiet.refl s
    · dsimp only at h
      split at h
      · cases h
      · cases h
        exact Quiet.set_dispatcher s _ _
      · cases h
        refine Quiet.trans ?_ (Quiet.transition _ _ _ _ ?_)
        · refine Quiet.trans (Quiet.trans ?_ (Quiet.set_glm _ _)) (Quiet.act _ rfl)
          refine Quiet.trans ?_ (Quiet.act _ rfl)
          exact (Quiet.set_dispatcher s _ _).trans (Quiet.add_slots _ _ _ _)
        · decide

section

variable (h : Balanced s)
include h

theorem Balanced.denoiser_dispatch
    (hstep : dispatch_glm_denoiser_requests_if_ready s = some s') : Balanced s' := by
  unfold dispatch_glm_denoiser_requests_if_ready at hstep
  split at hstep
  · cases hstep
    exact h
  · exact (drain_rel Quiet.refl Quiet.trans Quiet.denoiser_step _ hstep).balanced h

theorem Balanced.disconnected (worker_idx : ℕ) :
    Balanced (handle_glm_denoiser_disconnected worker_idx s) := by
  unfold handle_glm_denoiser_disconnected
  split
  · exact h
  · next state _ =>
    dsimp only
    have hreplayed := Balanced.foldl (f := replay) (fun s r hs => by
      unfold replay
      split
      · exact hs
      · exact ((Quiet.set_glm s _).trans (Quiet.transition _ _ none none
          (by decide : RequestState.denoising_waiting.active = true))).balanced hs)
      (state.assigned worker_idx)
      (((Quiet.set_glm s { state with
          denoiser_worker_available := state.denoiser_worker_available.set worker_idx false
          }).trans (Quiet.set_slots _ .denoiser worker_idx 0)).balanced h)
    split
    · exact hreplayed
    · exact (Quiet.set_glm _ _).balanced hreplayed

theorem Balanced.connected (worker_idx : ℕ) :
    Balanced (handle_glm_denoiser_connected worker_idx s) := by
  unfold handle_glm_denoiser_connected
  split
  · exact h
  · split
    · exact ((Quiet.set_glm s _).trans (Quiet.set_slots _ _ _ _)).balanced h
    · exact (Quiet.set_glm s _).balanced h

theorem Balanced.glm_result (frames : ResultFrames) :
    Balanced (handle_glm_denoiser_result_frames frames s) := by
  unfold handle_glm_denoiser_result_frames
  split
  · split
    · exact h
    · dsimp only
      rw [answer_transition_both]
      apply Balanced.answer_remove
      apply BalancedBut.transition_both
      apply BalancedBut.weaken
      exact ((Quiet.set_glm s _).trans (Quiet.free_worker _ _)).balanced h
  · exact h

/-! ## Runs -/

/-- **One call.** -/
theorem Balanced.handle {e : Event} (hstep : handle c now e s = some s') : Balanced s' := by
  unfold DiffusionServer.handle at hstep
  cases e with
  | client_request frames =>
    cases hstep
    exact h.client_request now frames
  | transfer role msg => exact h.transfer_result hstep
  | frames role frames =>
    cases hstep
    unfold handle_frames
    split
    · exact h.glm_result frames
    · exact h.decoder_result_frames frames
    · exact h.role_error_frames _ frames
  | timeouts =>
    cases hstep
    exact h.timeouts c now
  | drain =>
    dsimp only at hstep
    split at hstep
    · exact (Quiet.drain_all_queues hstep).balanced h
    · cases hstep
      exact h
  | connected worker_idx =>
    cases hstep
    exact h.connected worker_idx
  | disconnected worker_idx =>
    cases hstep
    exact h.disconnected worker_idx
  | ar_done error group =>
    cases hstep
    exact h.ar_result error group
  | ar_dispatch =>
    cases hstep
    exact h.ar_dispatch c now
  | denoiser_dispatch => exact h.denoiser_dispatch hstep

end

theorem Balanced.init (c : Config) : Balanced (Server.init c) where
  tracked := fun _ => Iff.rfl
  active := fun _ _ h => by cases h
  answered := fun _ => rfl
  submitted := fun _ _ h => by cases h

theorem Reachable.balanced (h : Reachable c s) : Balanced s := by
  induction h with
  | init => exact Balanced.init c
  | step _ hstep ih => exact ih.handle hstep

/-! ## What a scan for timeouts leaves -/

theorem get?_time_out (c : Config) (s : Server) (request_id r : RequestId) :
    (time_out c s request_id).tracker.get? r =
      if r = request_id then none else s.tracker.get? r := by
  obtain ⟨role, idx, error, heq, -⟩ := time_out_eq c s request_id
  rw [heq, get?_leave, free_slot_rest]

theorem get?_foldl_time_out (c : Config) (r : RequestId) (timed_out : List RequestId) :
    ∀ s : Server, (timed_out.foldl (time_out c) s).tracker.get? r =
      if r ∈ timed_out then none else s.tracker.get? r := by
  induction timed_out with
  | nil => exact fun s => (if_neg not_mem_nil).symm
  | cons request_id timed_out ih =>
    intro s
    rw [foldl_cons, ih, get?_time_out]
    by_cases hr : r = request_id
    · rw [if_pos hr, if_pos (mem_cons.mpr (Or.inl hr)), ite_self]
    · rw [if_neg hr]
      by_cases hin : r ∈ timed_out
      · rw [if_pos hin, if_pos (mem_cons_of_mem _ hin)]
      · rw [if_neg hin, if_neg]
        intro hcons
        rcases mem_cons.mp hcons with heq | hmem
        · exact hr heq
        · exact hin hmem

theorem tracker_clear_glm (timed_out : List RequestId) (s : Server) :
    (clear_glm timed_out s).tracker = s.tracker := by
  unfold clear_glm
  split
  · rfl
  · rfl

theorem young_after_timeouts (h : Balanced s) {r : RequestId} {record : RequestRecord}
    (hget : (handle_timeouts c now s).tracker.get? r = some record) :
    now - record.submit_time ≤ c.timeout_s := by
  unfold handle_timeouts at hget
  rw [tracker_clear_glm] at hget
  have hget' : ((s.tracker.find_timed_out c.timeout_s now).foldl (time_out c) s).tracker.get? r
      = some record := hget
  rw [get?_foldl_time_out] at hget'
  by_cases hin : r ∈ s.tracker.find_timed_out c.timeout_s now
  · rw [if_pos hin] at hget'
    cases hget'
  · rw [if_neg hin] at hget'
    by_contra hlate
    apply hin
    exact mem_find_timed_out.mpr
      ⟨record, hget', h.active r record hget' (by simp), lt_of_not_ge hlate⟩

/-- After a scan for timeouts a submission without a reply is not older than the timeout. -/
theorem Balanced.answered_in_time (hs : Balanced s) {r : RequestId}
    (hopen : (accepted r (handle_timeouts c now s).trace).map Prod.fst
      ≠ replied r (handle_timeouts c now s).trace) :
    ∃ client_identity time, (accepted r (handle_timeouts c now s).trace).getLast?
      = some (client_identity, time) ∧ now - time ≤ c.timeout_s := by
  have hscan := hs.timeouts c now
  -- a submission without a reply waits, so it is tracked
  have hwaits : ∃ client_identity, (handle_timeouts c now s).pending.get? r
      = some client_identity := by
    cases hget : (handle_timeouts c now s).pending.get? r with
    | none =>
      have hall := hscan.answered r
      rw [hget, toList_none, append_nil] at hall
      exact absurd hall hopen
    | some client_identity => exact ⟨client_identity, rfl⟩
  obtain ⟨record, hrecord⟩ := mem_keys_iff.mp
    ((hscan.tracked r).mp (mem_keys_iff.mpr hwaits))
  have hlast := hscan.submitted r record hrecord
  rw [map_eq_some_iff] at hlast
  obtain ⟨⟨client_identity, time⟩, hget, htime⟩ := hlast
  have htime' : time = record.submit_time := htime
  exact ⟨client_identity, time, hget, htime' ▸ young_after_timeouts hs hrecord⟩

/-- One encoder, one denoiser and one decoder. -/
def small_config : Config where
  endpoints := fun role => [role.value]
  capacity := fun _ => 1
  policy := .round_robin 0
  timeout_s := 600
  timeout_text := "600.0"
  glm_distributed_mode_enabled := false
  batching_mode_dynamic := false
  batching_max_size := 1
  batching_delay_s := 0

def text_request (client_identity id : String) : Event :=
  .client_request (.request client_identity "payload" ⟨some id, true, false, none, none, none⟩)

/-- The denoiser of `small_config` registers one slot of 64 bytes. -/
def denoiser_register : Event :=
  .transfer .denoiser (.register ⟨some .denoiser, "session", 4096, 1024, "denoiser",
    [⟨128, 64, some 0, 4224⟩]⟩)

/-- A request of some bytes is staged and sent into the slot of the denoiser. -/
def sent_calls (size : ℕ) : List (ℚ × Event) :=
  [(0, denoiser_register), (0, text_request "client" "a"), (0, .drain),
    (1, .transfer .encoder (.staged ⟨.client "a", size, "manifest", "encoder", 0, 0, "fields"⟩)),
    (1, .drain)]

/-- The calls of a list that pass a check, with the ledger. -/
def serve {Λ : Type} (c : Config) (note : Event → Server → Server → Λ → Λ)
    (ok : Server → Λ → Event → Bool) : List (ℚ × Event) → Server → Λ → Option (Server × Λ)
  | [], s, L => some (s, L)
  | (now, e) :: calls, s, L =>
    match ok s L e, handle c now e s with
    | true, some s' => serve c note ok calls s' (note e s s' L)
    | _, _ => none

theorem serve_induct {Λ : Type} {c : Config} {note : Event → Server → Server → Λ → Λ}
    {ok : Server → Λ → Event → Bool} {R : Server → Λ → Prop}
    (hstep : ∀ {now s L e s'}, R s L → ok s L e = true → handle c now e s = some s' →
      R s' (note e s s' L)) (calls : List (ℚ × Event)) :
    ∀ {s s' : Server} {L L' : Λ}, R s L → serve c note ok calls s L = some (s', L') → R s' L' := by
  induction calls with
  | nil =>
    intro s s' L L' h hserve
    cases hserve
    exact h
  | cons call calls ih =>
    intro s s' L L' h hserve
    unfold serve at hserve
    split at hserve
    · next hok hhandle => exact ih (hstep h hok hhandle) hserve
    · cases hserve

end LightningH3.DiffusionServer
