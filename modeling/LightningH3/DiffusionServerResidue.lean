/-
What is left of a request after it has left the tracker, in the staged mode of the disaggregation
server.

An error takes a request out of the tracker and the map of clients, a timeout out of the queues as
well, and only a decoder's result out of the table of transfers. Where a request ends without an
entry in the containers that its handler leaves alone (`Clean`), nothing refers to it afterwards and
every later message of it is dropped (`no_residue`). A timeout during the first transfer shows what
stays behind otherwise (`timeout_leaves_transfer`).
-/
import LightningH3.DiffusionServerSlots

set_option autoImplicit false

namespace LightningH3.DiffusionServer

open List Option OrderedDict

/-- The request was accepted and has left the tracker. -/
def Departed (s : Server) (r : RequestId) : Prop :=
  accepted r s.trace ≠ [] ∧ s.tracker.get? r = none

/-- A queue or the table of transfers refers to a request. -/
def Residue (s : Server) (r : RequestId) : Prop :=
  (∃ role, r ∈ queue_ids s role) ∨ s.transfer_of r ≠ none

/-- The request that a message of an instance is about. -/
def message_id : Event → Option RequestId
  | .transfer _ (.staged msg) => some msg.request_id
  | .transfer _ (.allocated msg) => some msg.request_id
  | .transfer _ (.pushed request_id) => some request_id
  | .transfer _ (.done msg) => some msg.request_id
  | .frames _ frames => frames.request_id
  | _ => none

/-- No queue, no counter, no transfer changes, and nothing is sent. -/
def Unchanged (s s' : Server) : Prop :=
  (∀ role, queue_ids s' role = queue_ids s role) ∧ s'.free_slots = s.free_slots ∧
    s'.transfer_state = s.transfer_state ∧ s'.transfers = s.transfers ∧ s'.trace = s.trace

/-- A request ends without an entry in the containers that its handler leaves alone, and a departed
request is not staged again. -/
def Clean (c : Config) (now : ℚ) (s : Server) : Event → Prop
  | .transfer _ (.staged msg) => ¬ Departed s msg.request_id
  | .transfer .denoiser (.done msg) =>
    (truthy msg.error).isSome = true → s.tracker.get? msg.request_id ≠ none →
      ¬ Residue s msg.request_id
  | .transfer .decoder (.done msg) =>
    s.tracker.get? msg.request_id ≠ none → ∀ role, msg.request_id ∉ queue_ids s role
  | .frames .decoder frames =>
    ∀ r, frames.request_id = some r → s.tracker.get? r ≠ none → ∀ role, r ∉ queue_ids s role
  | .frames _ frames =>
    ∀ r, frames.request_id = some r → (truthy frames.disagg_error).isSome = true →
      s.tracker.get? r ≠ none → ¬ Residue s r
  | .timeouts => ∀ r ∈ s.tracker.find_timed_out c.timeout_s now, s.transfer_of r = none
  | _ => True

/-- Nothing refers to a departed request. -/
def NoResidue (s : Server) : Prop := ∀ r, Departed s r → ¬ Residue s r

variable {c : Config} {s s' : Server}

/-! ## Steps that add no reference -/

/-- The same references, or fewer. -/
structure Fewer (s s' : Server) : Prop where
  queues : ∀ role r, r ∈ queue_ids s' role → r ∈ queue_ids s role
  transfers : ∀ r, s'.transfer_of r ≠ none → s.transfer_of r ≠ none

namespace Fewer

theorem refl (s : Server) : Fewer s s := ⟨fun _ _ h => h, fun _ h => h⟩

theorem trans {s'' : Server} (h : Fewer s s') (h' : Fewer s' s'') : Fewer s s'' :=
  ⟨fun role r hr => h.queues role r (h'.queues role r hr),
    fun r hr => h.transfers r (h'.transfers r hr)⟩

theorem residue (h : Fewer s s') {r : RequestId} (hr : Residue s' r) : Residue s r := by
  rcases hr with ⟨role, hq⟩ | ht
  · exact Or.inl ⟨role, h.queues role r hq⟩
  · exact Or.inr (h.transfers r ht)

theorem of_eq (hencoder : s'.encoder_tta = s.encoder_tta)
    (hdenoiser : s'.denoiser_tta = s.denoiser_tta) (hdecoder : s'.decoder_tta = s.decoder_tta)
    (htransfer : s'.transfer_state = s.transfer_state) : Fewer s s' := by
  constructor
  · intro role r hr
    unfold queue_ids at hr ⊢
    rw [hencoder, hdenoiser, hdecoder] at hr
    exact hr
  · intro r hr
    unfold Server.transfer_of at hr ⊢
    rw [htransfer] at hr
    exact hr

end Fewer

theorem Exchange.fewer (h : Exchange s s') : Fewer s s' :=
  Fewer.of_eq h.books.encoder_tta h.books.denoiser_tta h.books.decoder_tta h.transfer_state

variable {request_id : RequestId} {role : Role} {b : Bool}

theorem Fewer.free_slot (s : Server) (role : Role) (idx : Option ℕ) :
    Fewer s (s.free_slot role idx) := by
  cases idx with
  | none => exact refl s
  | some i => exact of_eq rfl rfl rfl rfl

theorem Fewer.leave (s : Server) (request_id : RequestId) (new_state : RequestState)
    (error error' : Option String) : Fewer s (s.leave request_id new_state error error') := by
  rw [leave_rest]
  exact of_eq rfl rfl rfl rfl

theorem transfer_of_forget (s : Server) (request_id r : RequestId) :
    (s.forget_transfer request_id).transfer_of r =
      if r = request_id then none else s.transfer_of r :=
  get?_erase ..

theorem Fewer.forget (s : Server) (request_id : RequestId) :
    Fewer s (s.forget_transfer request_id) := by
  refine ⟨fun _ _ hr => hr, fun r hr => ?_⟩
  rw [transfer_of_forget] at hr
  split at hr
  · exact absurd rfl hr
  · exact hr

/-! ## Queues -/

theorem Fewer.pop {entry : RoleTTAEntry} {rest : List RoleTTAEntry}
    (hqueue : s.tta role = entry :: rest) : Fewer s (s.set_tta role rest) := by
  have hrole : role ≠ .encoder := by
    rintro rfl
    cases hqueue
  constructor
  · intro role' r hr
    rw [queue_ids_set_tta s hrole] at hr
    split at hr
    · next heq =>
      rw [heq, queue_ids_tta s hrole, hqueue]
      exact mem_cons_of_mem _ hr
    · exact hr
  · intro r hr
    rw [set_tta_rest] at hr
    exact hr

/-- A queue that one request joins refers to no other request that it did not refer to. -/
theorem Residue.of_enqueue {role : Role} {r r' : RequestId} {ref : ℕ} (hrole : role ≠ .encoder) (hne : r' ≠ r)
    (h : Residue (s.set_tta role (s.tta role ++ [⟨r, ref⟩])) r') : Residue s r' := by
  rcases h with ⟨role', hin⟩ | ht
  · rw [queue_ids_set_tta s hrole] at hin
    split at hin
    · rw [map_append, mem_append, ← queue_ids_tta s hrole] at hin
      exact Or.inl ⟨role, hin.resolve_right fun heq => hne (mem_singleton.mp heq)⟩
    · exact Or.inl ⟨role', hin⟩
  · rw [set_tta_rest] at ht
    exact Or.inr ht

theorem Fewer.encoder_step (h : drain_encoder_step s = some (b, s')) : Fewer s s' := by
  rcases drain_encoder_step_cases h with rfl | hselect | ⟨entry, rest, idx, t, hqueue, hselect, rfl⟩
  · exact refl _
  · exact (Exchange.select hselect).fewer
  · have hselected := Exchange.select hselect
    refine hselected.fewer.trans ⟨?_, fun r hr => hr⟩
    intro role r hr
    cases role with
    | encoder =>
      unfold queue_ids
      rw [hselected.books.encoder_tta, hqueue]
      exact mem_cons_of_mem _ hr
    | denoiser => exact hr
    | decoder => exact hr

theorem Fewer.step (h : drain_step c role s = some (b, s')) : Fewer s s' := by
  rcases drain_step_cases h with hexchange | ⟨entry, rest, idx, t, hqueue, hselect, hdispatch⟩
  · exact hexchange.fewer
  · have hselected := Exchange.select hselect
    have hqueue' : t.tta role = entry :: rest := by
      rw [← hqueue]
      cases role with
      | encoder => rfl
      | denoiser => exact hselected.books.denoiser_tta
      | decoder => exact hselected.books.decoder_tta
    obtain ⟨p2p, hexchange⟩ := transfer_dispatch_spec hdispatch
    have hpopped := hselected.fewer.trans (pop hqueue')
    refine (hpopped.trans ?_).trans hexchange.fewer
    exact of_eq rfl rfl rfl rfl

theorem Fewer.drain_all (h : drain_all_queues c s = some s') : Fewer s s' :=
  drain_all_rel refl trans encoder_step step h

/-! ## What a step does to the departed requests -/

theorem Quiet.accepted_eq (h : Quiet s s') (r : RequestId) :
    accepted r s'.trace = accepted r s.trace := by
  obtain ⟨l, hl, hquiet⟩ := h.trace
  rw [hl, accepted_append, accepted_quiet hquiet, append_nil]

theorem Quiet.departed (h : Quiet s s') {r : RequestId} (hr : Departed s' r) : Departed s r := by
  obtain ⟨hacc, hgone⟩ := hr
  rw [h.accepted_eq] at hacc
  rw [get?_eq_none_iff, h.keys, ← get?_eq_none_iff] at hgone
  exact ⟨hacc, hgone⟩

theorem NoResidue.quiet (h : NoResidue s) (hq : Quiet s s') (hf : Fewer s s') : NoResidue s' :=
  fun r hr hres => h r (hq.departed hr) (hf.residue hres)

theorem NoResidue.ends (h : NoResidue s)
    (htracker : ∀ r, r ≠ request_id → s'.tracker.get? r = s.tracker.get? r)
    (haccepted : ∀ r, accepted r s'.trace = accepted r s.trace) (hf : Fewer s s')
    (hclean : s.tracker.get? request_id ≠ none → ¬ Residue s' request_id) : NoResidue s' := by
  intro r hr hres
  obtain ⟨hacc, hgone⟩ := hr
  rw [haccepted] at hacc
  by_cases hr : r = request_id
  · subst hr
    by_cases htracked : s.tracker.get? r = none
    · exact h r ⟨hacc, htracked⟩ (hf.residue hres)
    · exact hclean htracked hres
  · rw [htracker r hr] at hgone
    exact h r ⟨hacc, hgone⟩ (hf.residue hres)

/-! ## One call -/

theorem accepted_leave (s : Server) (request_id : RequestId) (new_state : RequestState)
    (error error' : Option String) (r : RequestId) :
    accepted r (s.leave request_id new_state error error').trace = accepted r s.trace := by
  have htrace := answer_trace (s.transition request_id new_state error none) request_id error'
  unfold Server.leave Server.remove
  rw [htrace, accepted_append]
  cases (s.transition request_id new_state error none).pending.get? request_id with
  | none => exact append_nil _
  | some i => exact append_nil _

variable {r : RequestId}

theorem NoResidue.leave (h : NoResidue s) (request_id : RequestId) (new_state : RequestState)
    (error error' : Option String)
    (hclean : s.tracker.get? request_id ≠ none → ¬ Residue s request_id) :
    NoResidue (s.leave request_id new_state error error') := by
  have hf := Fewer.leave s request_id new_state error error'
  exact h.ends (fun r hr => (get?_leave ..).trans (if_neg hr))
    (accepted_leave s request_id new_state error error') hf
    fun htracked hres => hclean htracked (hf.residue hres)

/-- A request that ends after its decoder leaves its transfer as well. -/
theorem NoResidue.conclude {t : Server} (h : NoResidue s) (hquiet : Quiet s t)
    (hfewer : Fewer s t) (htracker : t.tracker = s.tracker) (request_id : RequestId)
    (new_state : RequestState) (error error' : Option String)
    (hclean : s.tracker.get? request_id ≠ none → ∀ role, request_id ∉ queue_ids s role) :
    NoResidue ((t.leave request_id new_state error error').forget_transfer request_id) := by
  have hleave := Fewer.leave t request_id new_state error error'
  refine (h.quiet hquiet hfewer).ends (fun r hr => (get?_leave ..).trans (if_neg hr))
    (accepted_leave t request_id new_state error error') (hleave.trans (Fewer.forget _ _)) ?_
  rintro htracked (⟨role, hin⟩ | hkept)
  · rw [htracker] at htracked
    exact hclean htracked role (hfewer.queues role _ (hleave.queues role _ hin))
  · rw [transfer_of_forget, if_pos rfl] at hkept
    exact hkept rfl

theorem NoResidue.client_request (h : NoResidue s) (hglm : s.glm = none) (now : ℚ)
    (frames : ClientFrames) : NoResidue (handle_client_request now frames s) := by
  unfold handle_client_request
  cases frames with
  | malformed => exact h
  | other client_identity =>
    exact h.quiet (Quiet.act s rfl) (Fewer.of_eq rfl rfl rfl rfl)
  | request client_identity payload req =>
    dsimp only
    cases hsubmit : s.tracker.submit (req.id now) now with
    | none => exact h
    | some tracker =>
      have hget : tracker.get? (req.id now) ≠ none ∧
          ∀ r, r ≠ req.id now → tracker.get? r = s.tracker.get? r := by
        unfold Tracker.submit at hsubmit
        by_cases hin : req.id now ∈ s.tracker.keys
        · rw [if_pos hin] at hsubmit
          cases hsubmit
        · rw [if_neg hin] at hsubmit
          cases hsubmit
          constructor
          · rw [get?_set, if_pos rfl]
            exact some_ne_none _
          · intro r hr
            rw [get?_set, if_neg hr]
      intro r hr hres
      obtain ⟨hacc, hgone⟩ := hr
      unfold Server.enqueue at hacc hgone hres
      dsimp only [Server.transition, Server.act] at hacc hgone hres
      rw [hglm] at hacc hgone hres
      have hgone' : tracker.get? r = none := by
        rw [get?_eq_none_iff, Tracker.keys_move] at hgone
        rw [get?_eq_none_iff]
        exact hgone
      have hne : r ≠ req.id now := fun heq => hget.1 (heq ▸ hgone')
      rw [hget.2 r hne] at hgone'
      have hacc' : accepted r s.trace ≠ [] := by
        rw [accepted_append] at hacc
        have hnone : accepted r [.accept (req.id now) client_identity now] = [] := by
          unfold accepted
          simp [Ne.symm hne]
        rw [hnone, append_nil] at hacc
        exact hacc
      apply h r ⟨hacc', hgone'⟩
      rcases hres with ⟨role, hq⟩ | ht
      · left
        refine ⟨role, ?_⟩
        cases role with
        | encoder =>
          unfold queue_ids at hq ⊢
          rw [map_append, mem_append] at hq
          rcases hq with hq | hq
          · exact hq
          · exact absurd (mem_singleton.mp hq) hne
        | denoiser => exact hq
        | decoder => exact hq
      · exact Or.inr ht

theorem NoResidue.staged (h : NoResidue s) {msg : StagedMsg} (hclean : ¬ Departed s msg.request_id) :
    NoResidue (handle_transfer_staged msg s) := by
  intro r hr hres
  have hdeparted := (Quiet.staged msg s).departed hr
  have hne : r ≠ msg.request_id := fun heq => hclean (heq ▸ hdeparted)
  apply h r hdeparted
  rcases Residue.of_enqueue (nofun : Role.denoiser ≠ .encoder) hne hres with ⟨role, hin⟩ | ht
  · exact Or.inl ⟨role, hin⟩
  · right
    unfold Server.transfer_of at ht
    dsimp only [Server.transition, Server.new_transfer] at ht
    rw [get?_set, if_neg hne] at ht
    exact ht

variable {now : ℚ}

theorem NoResidue.denoiser_done (h : NoResidue s) {msg : DoneMsg}
    (hclean : Clean c now s (.transfer .denoiser (.done msg))) :
    NoResidue (denoiser_done msg s) := by
  dsimp only [Clean] at hclean
  have hexchange := Exchange.recycle msg.request_id .denoiser s
  have hbooks := hexchange.books
  have hfewer := hexchange.fewer
  have hrecycled := h.quiet hexchange.quiet hfewer
  unfold DiffusionServer.denoiser_done
  obtain ⟨t, ht⟩ : ∃ t, recycle msg.request_id .denoiser s = t := ⟨_, rfl⟩
  rw [ht] at hbooks hfewer hrecycled ⊢
  cases herror : truthy msg.error with
  | some error =>
    rw [herror] at hclean
    apply (hrecycled.quiet (Quiet.free_slot _ _ _) (Fewer.free_slot _ _ _)).leave
    intro htracked hres
    rw [free_slot_rest] at htracked
    rw [hbooks.tracker] at htracked
    exact hclean rfl htracked (hfewer.residue ((Fewer.free_slot _ _ _).residue hres))
  | none =>
    dsimp only
    have hdone := hrecycled.quiet (Quiet.transition t msg.request_id none none
      (by decide : RequestState.denoising_done.active = true)) (Fewer.of_eq rfl rfl rfl rfl)
    by_cases hstaged : msg.staged_for_decoder = true ∧
        ((t.transition msg.request_id .denoising_done none none).transfer_of
          msg.request_id).isSome = true
    · obtain ⟨ref, href⟩ := isSome_iff_exists.mp hstaged.2
      rw [forward_staged href hstaged.1]
      intro r hr hres
      have hdeparted := (Quiet.stage_for_decoder msg ref _).departed hr
      -- the request has a transfer, so it has not departed
      have hne : r ≠ msg.request_id := by
        intro heq
        apply hdone r hdeparted
        right
        rw [heq, href]
        exact some_ne_none _
      exact hdone r hdeparted (Residue.of_enqueue (nofun : Role.decoder ≠ .encoder) hne hres)
    · rw [forward_freed hstaged]
      exact hdone.quiet (Quiet.free_slot _ _ _) (Fewer.free_slot _ _ _)

theorem NoResidue.decoder_done (h : NoResidue s) {msg : DoneMsg}
    (hclean : Clean c now s (.transfer .decoder (.done msg))) : NoResidue (decoder_done msg s) := by
  have hexchange := Exchange.recycle msg.request_id .decoder s
  unfold DiffusionServer.decoder_done
  dsimp only
  obtain ⟨t, ht⟩ : ∃ t, recycle msg.request_id .decoder s = t := ⟨_, rfl⟩
  rw [ht] at hexchange ⊢
  obtain ⟨new_state, error, error', hconclude⟩ := conclude_eq msg
    (t.free_slot .decoder (t.instance_of .decoder msg.request_id))
  rw [hconclude]
  refine h.conclude (hexchange.quiet.trans (Quiet.free_slot _ _ _))
    (hexchange.fewer.trans (Fewer.free_slot _ _ _)) ?_ _ _ _ _ hclean
  rw [free_slot_rest]
  exact hexchange.books.tracker

variable {frames : ResultFrames}

theorem NoResidue.decoder_result_frames (h : NoResidue s) (hb : Balanced s)
    (hclean : Clean c now s (.frames .decoder frames)) :
    NoResidue (handle_decoder_result_frames frames s) := by
  rcases decoder_result_frames_cases frames s with
    ⟨-, heq⟩ | ⟨request_id, new_state, error, f, hid, hf, hend⟩
  · rw [heq]
    exact h
  · have hfewer := Fewer.free_slot s .decoder (s.instance_of .decoder request_id)
    have hquiet := Quiet.free_slot s .decoder (s.instance_of .decoder request_id)
    have htracker : f.tracker = s.tracker := by
      rw [← hf, free_slot_rest]
    rw [hf] at hfewer hquiet
    rcases hend with ⟨hwaits, heq⟩ | ⟨-, heq⟩
    · rw [heq]
      -- a tracked request has a client that waits
      apply (h.quiet hquiet hfewer).leave
      intro htracked
      rw [hquiet.pending, get?_eq_none_iff, hb.tracked] at hwaits
      rw [htracker] at htracked
      exact absurd (get?_eq_none_iff.mpr hwaits) htracked
    · rw [heq]
      exact h.conclude hquiet hfewer htracker request_id new_state error frames.error
        (hclean request_id hid)

theorem NoResidue.role_error_frames (h : NoResidue s) (role : Role)
    (hclean : ∀ r, frames.request_id = some r → (truthy frames.disagg_error).isSome = true →
      s.tracker.get? r ≠ none → ¬ Residue s r) :
    NoResidue (handle_role_error_frames role frames s) := by
  unfold handle_role_error_frames
  split
  · next request_id disagg_error hid herror =>
    have hid' := (filter_eq_some_iff.mp hid).1
    exact h.leave request_id _ _ _ (hclean request_id hid' (by rw [herror]; rfl))
  · exact h

/-! ### Timeouts -/

theorem transfer_of_time_out (c : Config) (s : Server) (r r' : RequestId) :
    (time_out c s r).transfer_of r' = s.transfer_of r' := by
  obtain ⟨role, idx, error, heq, -⟩ := time_out_eq c s r
  rw [heq, leave_rest, free_slot_rest]
  rfl

theorem accepted_time_out (c : Config) (s : Server) (r r' : RequestId) :
    accepted r' (time_out c s r).trace = accepted r' s.trace := by
  obtain ⟨role, idx, error, heq, -⟩ := time_out_eq c s r
  rw [heq, accepted_leave, free_slot_rest]

theorem NoResidue.timeouts (h : NoResidue s) (hglm : s.glm = none)
    (hclean : Clean c now s .timeouts) : NoResidue (handle_timeouts c now s) := by
  dsimp only [Clean] at hclean
  rw [handle_timeouts_staged c now hglm]
  obtain ⟨timed_out, htimed⟩ : ∃ l, s.tracker.find_timed_out c.timeout_s now = l := ⟨_, rfl⟩
  rw [htimed] at hclean ⊢
  intro r hr hres
  obtain ⟨hgot, hgone⟩ := hr
  rw [foldl_time_out_keeps (fun s => accepted r s.trace) fun s r' => accepted_time_out c s r' r]
    at hgot
  rw [get?_foldl_time_out] at hgone
  -- what still refers to the request is a transfer, or an entry of a request that did not time out
  have hkept : Residue s r ∧ (r ∈ timed_out → s.transfer_of r ≠ none) := by
    rcases hres with ⟨role, hin⟩ | hkept
    · rw [foldl_time_out_keeps (fun s => queue_ids s role) fun s r' => queue_ids_time_out c s r' role,
        queue_ids_leave_queues, mem_filter, decide_eq_true_eq] at hin
      exact ⟨Or.inl ⟨role, hin.1⟩, fun hmem => absurd hmem hin.2⟩
    · rw [foldl_time_out_keeps (fun s => s.transfer_of r) fun s r' => transfer_of_time_out c s r' r]
        at hkept
      exact ⟨Or.inr hkept, fun _ => hkept⟩
  by_cases hin : r ∈ timed_out
  · exact hkept.2 hin (hclean r hin)
  · rw [if_neg hin] at hgone
    exact h r ⟨hgot, hgone⟩ hkept.1

/-! ## Messages of departed requests -/

theorem Unchanged.refl (s : Server) : Unchanged s s := ⟨fun _ => rfl, rfl, rfl, rfl, rfl⟩

theorem Unchanged.leave (hpending : s.pending.get? request_id = none) (new_state : RequestState)
    (error error' : Option String) : Unchanged s (s.leave request_id new_state error error') := by
  unfold Server.leave Server.answer
  rw [show (s.transition request_id new_state error none).pending = s.pending from rfl, hpending]
  exact ⟨fun _ => rfl, rfl, rfl, rfl, rfl⟩

theorem Unchanged.role_error_frames (hb : Balanced s) (role : Role)
    (hid : frames.request_id = some r) (hr : s.tracker.get? r = none) :
    Unchanged s (handle_role_error_frames role frames s) := by
  have hpending : s.pending.get? r = none := by
    rw [get?_eq_none_iff, hb.tracked]
    exact get?_eq_none_iff.mp hr
  unfold handle_role_error_frames
  split
  · next request_id disagg_error hfilter _ =>
    rw [hid] at hfilter
    have heq := Option.some.inj (filter_eq_some_iff.mp hfilter).1
    subst heq
    exact Unchanged.leave hpending _ _ _
  · exact Unchanged.refl s

variable {e : Event}

/-- **A message of a departed request** that is not staged again is dropped. -/
theorem departed_dropped (h : NoResidue s) (hb : Balanced s) (hglm : s.glm = none)
    (hid : message_id e = some r) (hr : Departed s r) (hclean : Clean c now s e) :
    ∃ s', handle c now e s = some s' ∧ Unchanged s s' := by
  have hres := h r hr
  have htransfer : s.transfer_of r = none := by
    by_contra hsome
    exact hres (Or.inr hsome)
  have hpending : s.pending.get? r = none := by
    rw [get?_eq_none_iff, hb.tracked]
    exact get?_eq_none_iff.mp hr.2
  have hinstance : ∀ role, s.instance_of role r = none := by
    intro role
    unfold Server.instance_of
    rw [hr.2]
    rfl
  cases e with
  | client_request frames => cases hid
  | transfer role msg =>
    cases msg with
    | register msg => cases hid
    | staged msg =>
      cases hid
      exact absurd hr hclean
    | allocated msg =>
      cases hid
      refine ⟨s, ?_, Unchanged.refl s⟩
      unfold handle handle_transfer_result handle_transfer_allocated
      dsimp only
      rw [htransfer]
    | pushed request_id =>
      cases hid
      refine ⟨s, ?_, Unchanged.refl s⟩
      unfold handle handle_transfer_result handle_transfer_pushed
      dsimp only
      rw [htransfer]
    | done msg =>
      cases hid
      have hrecycle : ∀ role, recycle msg.request_id role s = s := by
        intro role
        unfold recycle
        rw [htransfer]
      refine ⟨_, rfl, ?_⟩
      unfold handle_transfer_done
      cases role with
      | encoder => exact Unchanged.refl s
      | denoiser =>
        unfold denoiser_done
        rw [hrecycle, hinstance]
        cases truthy msg.error with
        | some error => exact Unchanged.leave hpending _ _ _
        | none =>
          dsimp only
          rw [transition_of_untracked hr.2, forward_freed]
          · exact Unchanged.refl s
          · rw [htransfer]
            exact fun hboth => Bool.false_ne_true hboth.2
      | decoder =>
        unfold decoder_done
        dsimp only
        rw [hrecycle, hinstance]
        obtain ⟨new_state, error, error', hconclude⟩ := conclude_eq msg
          (s.free_slot .decoder none)
        rw [hconclude]
        obtain ⟨hqueue, hslots, hstate, htransfers, htrace⟩ :=
          Unchanged.leave hpending new_state error error'
        refine ⟨hqueue, hslots, ?_, htransfers, htrace⟩
        have hkept := get?_eq_none_iff.mp htransfer
        rw [← hstate] at hkept
        exact (erase_of_notMem hkept).trans hstate
    | unknown => cases hid
  | frames role frames =>
    refine ⟨_, rfl, ?_⟩
    have hid' : frames.request_id = some r := hid
    unfold handle_frames
    rw [hglm]
    cases role with
    | encoder => exact Unchanged.role_error_frames hb _ hid' hr.2
    | denoiser => exact Unchanged.role_error_frames hb _ hid' hr.2
    | decoder =>
      rcases decoder_result_frames_cases frames s with
        ⟨-, heq⟩ | ⟨request_id, new_state, error, f, hsome, hf, hend⟩
      · rw [heq]
        exact Unchanged.refl s
      · cases hsome.symm.trans hid'
        rw [hinstance] at hf
        obtain rfl := hf
        rcases hend with ⟨-, heq⟩ | ⟨hwaits, -⟩
        · rw [heq]
          exact Unchanged.leave hpending _ _ _
        · exact absurd hpending hwaits
  | timeouts => cases hid
  | drain => cases hid
  | connected worker_idx => cases hid
  | disconnected worker_idx => cases hid
  | ar_done error group => cases hid
  | ar_dispatch => cases hid
  | denoiser_dispatch => cases hid

/-! ## Runs -/

theorem Fewer.pushed (h : handle_transfer_pushed c request_id s = some s') : Fewer s s' := by
  unfold handle_transfer_pushed at h
  split at h
  · cases h
    exact refl s
  · split at h
    · exact (Exchange.send_ready h).fewer
    · exact (free_slot s _ _).trans (Exchange.send_ready h).fewer

theorem Fewer.register (c : Config) (msg : RegisterMsg) (s : Server) :
    Fewer s (handle_transfer_register c msg s) := by
  unfold handle_transfer_register
  split
  · exact refl s
  · split
    · exact refl s
    · dsimp only
      split
      · exact of_eq rfl rfl rfl rfl
      · exact of_eq rfl rfl rfl rfl

theorem glm_handlers_idle (hglm : s.glm = none) :
    (∀ worker_idx, handle_glm_denoiser_connected worker_idx s = s) ∧
    (∀ worker_idx, handle_glm_denoiser_disconnected worker_idx s = s) ∧
    (∀ error group, process_glm_ar_batch_result error group s = s) ∧
    (∀ now, dispatch_glm_ar_batch_if_ready c now s = s) ∧
    dispatch_glm_denoiser_requests_if_ready s = some s := by
  unfold handle_glm_denoiser_connected handle_glm_denoiser_disconnected process_glm_ar_batch_result
    dispatch_glm_ar_batch_if_ready dispatch_glm_denoiser_requests_if_ready
  rw [hglm]
  exact ⟨fun _ => rfl, fun _ => rfl, fun _ _ => rfl, fun _ => rfl, rfl⟩

/-! ### The staged mode -/

theorem glm_client_request (hglm : s.glm = none) (now : ℚ) (frames : ClientFrames) :
    (handle_client_request now frames s).glm = none := by
  unfold handle_client_request
  cases frames with
  | malformed => exact hglm
  | other client_identity => exact hglm
  | request client_identity payload req =>
    dsimp only
    split
    · exact hglm
    · unfold Server.enqueue
      dsimp only [Server.transition, Server.act]
      rw [hglm]

theorem glm_denoiser_done (msg : DoneMsg) (s : Server) : (denoiser_done msg s).glm = s.glm := by
  have hrecycle := (Exchange.recycle msg.request_id .denoiser s).books.glm
  unfold denoiser_done
  dsimp only
  split
  · rw [complete_with_error_eq, leave_rest, free_slot_rest]
    exact hrecycle
  · unfold forward
    split
    · exact hrecycle
    · rw [free_slot_rest]
      exact hrecycle

theorem glm_decoder_done (msg : DoneMsg) (s : Server) : (decoder_done msg s).glm = s.glm := by
  have hrecycle := (Exchange.recycle msg.request_id .decoder s).books.glm
  unfold decoder_done Server.forget_transfer
  dsimp only
  obtain ⟨new_state, error, error', hconclude⟩ := conclude_eq msg
    ((recycle msg.request_id .decoder s).free_slot .decoder
      ((recycle msg.request_id .decoder s).instance_of .decoder msg.request_id))
  rw [hconclude, leave_rest, free_slot_rest]
  exact hrecycle

theorem glm_decoder_result_frames (frames : ResultFrames) (s : Server) :
    (handle_decoder_result_frames frames s).glm = s.glm := by
  rcases decoder_result_frames_cases frames s with
    ⟨-, heq⟩ | ⟨request_id, new_state, error, _, -, rfl, ⟨-, heq⟩ | ⟨-, heq⟩⟩
  · rw [heq]
  · rw [heq, leave_rest, free_slot_rest]
  · rw [heq, leave_rest, free_slot_rest]
    rfl

theorem glm_encoder_step (h : drain_encoder_step s = some (b, s')) : s'.glm = s.glm := by
  rcases drain_encoder_step_cases h with rfl | hselect | ⟨entry, rest, idx, t, -, hselect, rfl⟩
  · rfl
  · exact (Exchange.select hselect).books.glm
  · exact (Exchange.select hselect).books.glm

theorem glm_drain_step (h : drain_step c role s = some (b, s')) : s'.glm = s.glm := by
  rcases drain_step_cases h with hexchange | ⟨entry, rest, idx, t, -, hselect, hdispatch⟩
  · exact hexchange.books.glm
  · obtain ⟨p2p, hexchange⟩ := transfer_dispatch_spec hdispatch
    rw [set_tta_rest] at hexchange
    exact hexchange.books.glm.trans (Exchange.select hselect).books.glm

theorem staged_mode_step (hglm : s.glm = none) (hstep : handle c now e s = some s') :
    s'.glm = none := by
  obtain ⟨hconnected, hdisconnected, hdone, hdispatch, hdenoiser⟩ := glm_handlers_idle (c := c) hglm
  cases e with
  | client_request frames =>
    cases hstep
    exact glm_client_request hglm now frames
  | transfer role msg =>
    cases msg with
    | register msg =>
      cases hstep
      rw [(SameBooks.register hglm msg).glm, hglm]
    | staged msg =>
      cases hstep
      exact hglm
    | allocated msg =>
      have hstep' : handle_transfer_allocated c msg s = some s' := hstep
      rw [(Exchange.allocated hstep').books.glm, hglm]
    | pushed request_id =>
      have hstep' : handle_transfer_pushed c request_id s = some s' := hstep
      unfold handle_transfer_pushed at hstep'
      split at hstep'
      · cases hstep'
        exact hglm
      · rw [(Exchange.send_ready hstep').books.glm]
        split
        · exact hglm
        · rw [free_slot_rest, hglm]
    | done msg =>
      cases hstep
      cases role with
      | encoder => exact hglm
      | denoiser => exact (glm_denoiser_done msg s).trans hglm
      | decoder => exact (glm_decoder_done msg s).trans hglm
    | unknown =>
      cases hstep
      exact hglm
  | frames role frames =>
    cases hstep
    have herror : ∀ role, (handle_role_error_frames role frames s).glm = none := by
      intro role
      unfold handle_role_error_frames
      split
      · rw [complete_with_error_eq, leave_rest, hglm]
      · exact hglm
    unfold handle_frames
    rw [hglm]
    cases role with
    | encoder => exact herror .encoder
    | denoiser => exact herror .denoiser
    | decoder => exact (glm_decoder_result_frames frames s).trans hglm
  | timeouts =>
    cases hstep
    rw [handle_timeouts_staged c now hglm, foldl_time_out_keeps Server.glm (glm_time_out c)]
    exact hglm
  | drain =>
    unfold handle at hstep
    rw [hglm] at hstep
    have hstep' : drain_all_queues c s = some s' := hstep
    have hsame : s'.glm = s.glm := drain_all_rel (R := fun s s' => s'.glm = s.glm) (fun _ => rfl)
      (fun h h' => h'.trans h) glm_encoder_step glm_drain_step hstep'
    rw [hsame, hglm]
  | connected worker_idx =>
    cases hstep
    rw [hconnected, hglm]
  | disconnected worker_idx =>
    cases hstep
    rw [hdisconnected, hglm]
  | ar_done error group =>
    cases hstep
    rw [hdone, hglm]
  | ar_dispatch =>
    cases hstep
    rw [hdispatch, hglm]
  | denoiser_dispatch =>
    unfold handle at hstep
    rw [hdenoiser] at hstep
    cases hstep
    exact hglm

/-- **One call.** A clean call leaves nothing of a departed request. -/
theorem NoResidue.step (h : NoResidue s) (hb : Balanced s) (hglm : s.glm = none)
    (hclean : Clean c now s e) (hstep : handle c now e s = some s') : NoResidue s' := by
  obtain ⟨hconnected, hdisconnected, hdone, hdispatch, hdenoiser⟩ := glm_handlers_idle (c := c) hglm
  cases e with
  | client_request frames =>
    cases hstep
    exact h.client_request hglm now frames
  | transfer role msg =>
    cases msg with
    | register msg =>
      cases hstep
      exact h.quiet (Quiet.register c msg s) (Fewer.register c msg s)
    | staged msg =>
      cases hstep
      exact h.staged hclean
    | allocated msg =>
      have hstep' : handle_transfer_allocated c msg s = some s' := hstep
      exact h.quiet (Exchange.allocated hstep').quiet (Exchange.allocated hstep').fewer
    | pushed request_id => exact h.quiet (Quiet.pushed hstep) (Fewer.pushed hstep)
    | done msg =>
      cases hstep
      cases role with
      | encoder => exact h
      | denoiser => exact h.denoiser_done hclean
      | decoder => exact h.decoder_done hclean
    | unknown =>
      cases hstep
      exact h
  | frames role frames =>
    cases hstep
    unfold handle_frames
    rw [hglm]
    cases role with
    | encoder => exact h.role_error_frames .encoder hclean
    | denoiser => exact h.role_error_frames .denoiser hclean
    | decoder => exact h.decoder_result_frames hb hclean
  | timeouts =>
    cases hstep
    exact h.timeouts hglm hclean
  | drain =>
    unfold handle at hstep
    rw [hglm] at hstep
    exact h.quiet (Quiet.drain_all_queues hstep) (Fewer.drain_all hstep)
  | connected worker_idx =>
    cases hstep
    rw [hconnected]
    exact h
  | disconnected worker_idx =>
    cases hstep
    rw [hdisconnected]
    exact h
  | ar_done error group =>
    cases hstep
    rw [hdone]
    exact h
  | ar_dispatch =>
    cases hstep
    rw [hdispatch]
    exact h
  | denoiser_dispatch =>
    unfold handle at hstep
    rw [hdenoiser] at hstep
    cases hstep
    exact h

theorem Reachable.staged_mode (hmode : c.glm_distributed_mode_enabled = false)
    (h : Reachable c s) : s.glm = none := by
  induction h with
  | init =>
    unfold Server.init
    rw [hmode]
    rfl
  | step _ hstep ih => exact staged_mode_step ih hstep

theorem NoResidue.init (c : Config) : NoResidue (Server.init c) :=
  fun _ hr => absurd rfl hr.1

theorem RunOf.leaves_nothing (hmode : c.glm_distributed_mode_enabled = false)
    (h : RunOf c (Clean c) s) : NoResidue s := by
  induction h with
  | init => exact NoResidue.init c
  | step hs he hstep ih =>
    exact ih.step hs.reachable.balanced (hs.reachable.staged_mode hmode) he hstep

/-- **No residue.** In every state of a run of the staged mode whose calls are all clean, no queue
and no transfer refers to a departed request, and a later message of it is dropped. -/
theorem no_residue (hmode : c.glm_distributed_mode_enabled = false)
    (h : RunOf c (Clean c) s) (r : RequestId) (hr : Departed s r) :
    ((∀ role, r ∉ queue_ids s role) ∧ s.transfer_of r = none) ∧
    ∀ now e, message_id e = some r → Clean c now s e →
      ∃ s', handle c now e s = some s' ∧ Unchanged s s' := by
  have hnone := h.leaves_nothing hmode
  constructor
  · constructor
    · intro role hin
      exact hnone r hr (Or.inl ⟨role, hin⟩)
    · by_contra hsome
      exact hnone r hr (Or.inr hsome)
  · intro now e hid hclean
    exact departed_dropped hnone h.reachable.balanced (h.reachable.staged_mode hmode) hid hr hclean

/-- A request that its encoder reports as failed leaves nothing behind. -/
theorem failed_request_leaves_nothing :
    ∃ s s', serve_all small_config [(0, text_request "client" "a"), (0, .drain)]
        (Server.init small_config) = some s ∧
      handle small_config 1 (.frames .encoder ⟨some (.client "a"), some "out of memory", none, none⟩) s
        = some s' ∧ Departed s' (.client "a") ∧ (∀ role, .client "a" ∉ queue_ids s' role) ∧
      s'.transfer_of (.client "a") = none := by
  obtain ⟨frames, hframes⟩ : ∃ f : ResultFrames,
      f = ⟨some (.client "a"), some "out of memory", none, none⟩ := ⟨_, rfl⟩
  have hrun : ((serve_all small_config [(0, text_request "client" "a"), (0, .drain)]
      (Server.init small_config)).map fun s =>
        (([Role.encoder, .denoiser, .decoder].map (queue_ids s), s.transfer_of (.client "a")),
          (handle_frames .encoder ⟨some (.client "a"), some "out of memory", none, none⟩ s).trace,
          (handle_frames .encoder ⟨some (.client "a"), some "out of memory", none, none⟩
            s).tracker.keys.isEmpty)).map (fun r => (r.1, accepted (.client "a") r.2.1, r.2.2))
          = some (([[], [], []], none), [("client", 0)], true) := by decide +kernel
  rw [Option.map_map, map_eq_some_iff] at hrun
  obtain ⟨s, hserve, hs⟩ := hrun
  dsimp only [Function.comp] at hs
  rw [Prod.mk.injEq, Prod.mk.injEq, Prod.mk.injEq] at hs
  obtain ⟨⟨hqueues, htransfer⟩, haccepted, hkeys⟩ := hs
  rw [← hframes] at haccepted hkeys ⊢
  have hfree : ¬ Residue s (.client "a") := by
    rintro (⟨role, hin⟩ | hkept)
    · have hempty : queue_ids s role = [] := by
        cases role with
        | encoder => exact (List.cons.inj hqueues).1
        | denoiser => exact (List.cons.inj (List.cons.inj hqueues).2).1
        | decoder => exact (List.cons.inj (List.cons.inj (List.cons.inj hqueues).2).2).1
      rw [hempty] at hin
      exact not_mem_nil hin
    · exact hkept htransfer
  have hrunof : RunOf small_config (Clean small_config) s := by
    apply RunOf.serve_all _ _ RunOf.init hserve
    intro call hmem t
    rcases mem_cons.mp hmem with heq | hmem
    · rw [heq]
      exact trivial
    · rw [mem_singleton.mp hmem]
      exact trivial
  have hdeparted : Departed (handle_frames .encoder frames s) (.client "a") := by
    constructor
    · rw [haccepted]
      exact cons_ne_nil _ _
    · rw [get?_eq_none_iff, List.isEmpty_iff.mp hkeys]
      exact not_mem_nil
  have hclean : Clean small_config 1 s (.frames .encoder frames) := by
    intro r hid _ _
    rw [hframes] at hid
    cases hid
    exact hfree
  exact ⟨s, _, hserve, rfl, hdeparted,
    (no_residue rfl (hrunof.step hclean rfl) (.client "a") hdeparted).1⟩

/-- A request of `small_config` is staged by its encoder and times out before it is sent. -/
def staged_timeout_calls : List (ℚ × Event) :=
  [(0, text_request "client" "a"), (0, .drain),
    (1, .transfer .encoder (.staged ⟨.client "a", 32, "manifest", "session", 0, 0, "fields"⟩)),
    (1000, .timeouts)]

/-- The request of `staged_timeout_calls` is answered, but its transfer stays. -/
theorem timeout_leaves_transfer :
    ¬ ∀ (c : Config) (s : Server) (r : RequestId), c.glm_distributed_mode_enabled = false →
      RunOf c (fun _ _ _ => True) s → Departed s r →
        (∀ role, r ∉ queue_ids s role) ∧ s.transfer_of r = none := by
  intro h
  have hrun : ((serve_all small_config staged_timeout_calls (Server.init small_config)).map fun s =>
      (accepted (.client "a") s.trace, s.tracker.keys, s.transfer_of (.client "a")))
        = some ([("client", 0)], [], some 0) := by decide +kernel
  rw [map_eq_some_iff] at hrun
  obtain ⟨s, hserve, hs⟩ := hrun
  rw [Prod.mk.injEq, Prod.mk.injEq] at hs
  obtain ⟨haccepted, hkeys, hkept⟩ := hs
  have hdeparted : Departed s (.client "a") := by
    constructor
    · rw [haccepted]
      exact cons_ne_nil _ _
    · rw [get?_eq_none_iff, hkeys]
      exact not_mem_nil
  have hgone := (h small_config s (.client "a") rfl
    (RunOf.serve_all _ (fun _ _ _ => trivial) RunOf.init hserve) hdeparted).2
  rw [hkept] at hgone
  cases hgone

end LightningH3.DiffusionServer
