/-
Each request of the GLM distributed mode is in one place.

A handler of the server makes the moves of its board (`board`): a client's request joins the queue
of the external server, a batch starts and is finished, a request is assigned to a worker, workers
connect and disconnect, a result arrives, requests time out. So what `Placed` says of a board holds
between two calls (`glm_request_in_one_place`), as long as no result arrives for a request that
waits again after its worker disconnected, and no client uses an id that is still in the batch.
Three short runs show what happens otherwise (`glm_places_fail`).
-/
import LightningH3.DiffusionServerGlmBoard
import LightningH3.DiffusionServerResidue

set_option autoImplicit false

namespace LightningH3.DiffusionServer

open List Function Tracker OrderedDict

/-! ## Places -/

/-- Where a request is. -/
inductive Place
  | ar_queue
  | ar_batch
  | denoiser_queue
  | worker (idx : ℕ)
  deriving DecidableEq, Repr

def places (state : GlmState) (request_id : RequestId) : List Place :=
  let of := fun r => decide ((state.requests r).client_request_id = request_id)
  (state.pending_ar_requests.filter of).map (fun _ => Place.ar_queue) ++
  (((state.active_ar_batch.getD []).filter of).map (fun _ => Place.ar_batch) ++
  ((state.pending_denoiser_requests.filter of).map (fun _ => Place.denoiser_queue) ++
  (state.denoiser_requests.values.filter of).filterMap fun r =>
    (state.requests r).worker_idx.map Place.worker))

/-- The requests that an action dispatches. -/
def dispatched : Action → List RequestId
  | .dispatch _ request_id _ => [request_id]
  | .dispatch_ar request_ids => request_ids
  | _ => []

/-- Whenever a request is dispatched, it has been accepted more often than answered. -/
def DispatchedWaiting (actions : List Action) : Prop :=
  ∀ n a, actions[n]? = some a → ∀ r ∈ dispatched a,
    (replied r (actions.take n)).length < (accepted r (actions.take n)).length

/-! ## Runs -/

/-- The workers that have connected after a call. -/
def connects (e : Event) (connected : List ℕ) : List ℕ :=
  match e with
  | .connected worker_idx => worker_idx :: connected
  | _ => connected

/-- The calls of the GLM mode. A client does not use an id that is still in the batch, the ids of a
batch come from a clock that moves on, and no result arrives for a request without a worker: one
that waits again, or that was never dispatched. -/
def GlmOrderly (now : ℚ) (s : Server) : Event → Prop
  | .client_request (.request _ _ req) => ∀ state, s.glm = some state →
      req.id now ∈ s.tracker.keys ∨ ∀ r ∈ state.active_ar_batch.getD [],
        (state.requests r).client_request_id ≠ req.id now
  | .client_request _ => True
  | .frames .denoiser frames => ∀ state request_id r, s.glm = some state →
      frames.request_id = some request_id → state.denoiser_requests.get? request_id = some r →
        (state.requests r).worker_idx ≠ none
  | .ar_done _ group => ∀ state, s.glm = some state → ∀ index,
      RequestId.glm_distributed group index ∉ state.denoiser_requests.keys
  | .timeouts => True
  | .connected _ => True
  | .disconnected _ => True
  | .ar_dispatch => True
  | .denoiser_dispatch => True
  | .drain => True
  | _ => False

/-- A run with the workers that have connected, whose calls all meet a condition. -/
inductive GlmRun (c : Config) (P : ℚ → Server → Event → Prop) : Server → List ℕ → Prop
  | init : GlmRun c P (Server.init c) []
  | step {s s' : Server} {connected : List ℕ} {now : ℚ} {e : Event} (hs : GlmRun c P s connected)
      (he : P now s e) (hstep : handle c now e s = some s') : GlmRun c P s' (connects e connected)

theorem GlmRun.reachable {c : Config} {P : ℚ → Server → Event → Prop} {s : Server}
    {connected : List ℕ} (h : GlmRun c P s connected) : Reachable c s := by
  induction h with
  | init => exact Reachable.init
  | step _ _ hstep ih => exact ih.step hstep

/-! ## The board of a server -/

/-- The board of the GLM mode. -/
def board (s : Server) (state : GlmState) : Board where
  ar_queue := state.pending_ar_requests
  ar_batch := state.active_ar_batch.getD []
  denoiser_queue := state.pending_denoiser_requests
  table := state.denoiser_requests.values
  client := fun r => (state.requests r).client_request_id
  worker := fun r => (state.requests r).worker_idx
  next := state.next_request
  available := state.denoiser_worker_available
  slots := s.free_slots .denoiser
  tracker := s.tracker

/-- Between two calls. -/
def OnBoard (s : Server) (connected : List ℕ) : Prop :=
  ∃ state, s.glm = some state ∧ Placed (board s state) connected

variable {c : Config} {s s' : Server} {connected : List ℕ}

theorem Placed.same {B : Board} {slots : List ℤ} {t : Tracker} (h : Placed B connected)
    (hslots : slots = B.slots) (hget : ∀ r, t.get? r = B.tracker.get? r) :
    Placed { B with slots, tracker := t } connected :=
  h.drop_batch (List.Sublist.refl _) hslots (fun _ hin hout => absurd hin hout) fun r _ => hget r

/-! ### What is dispatched -/

/-- A call dispatches nothing. -/
def NoDispatch (s s' : Server) : Prop :=
  ∃ l, s'.trace = s.trace ++ l ∧ ∀ a ∈ l, dispatched a = []

theorem NoDispatch.refl (s : Server) : NoDispatch s s :=
  ⟨[], (append_nil _).symm, fun _ ha => absurd ha not_mem_nil⟩

theorem NoDispatch.trans {s'' : Server} (h : NoDispatch s s') (h' : NoDispatch s' s'') :
    NoDispatch s s'' := by
  obtain ⟨l, hl, hnone⟩ := h
  obtain ⟨l', hl', hnone'⟩ := h'
  refine ⟨l ++ l', by rw [hl', hl, append_assoc], ?_⟩
  intro a ha
  rcases mem_append.mp ha with ha | ha
  · exact hnone a ha
  · exact hnone' a ha

theorem NoDispatch.of_eq (h : s'.trace = s.trace) : NoDispatch s s' :=
  ⟨[], by rw [h, append_nil], fun _ ha => absurd ha not_mem_nil⟩

theorem NoDispatch.act (s : Server) {a : Action} (ha : dispatched a = []) :
    NoDispatch s (s.act a) :=
  ⟨[a], rfl, fun _ hb => by rw [mem_singleton.mp hb]; exact ha⟩

theorem NoDispatch.answer (s : Server) (request_id : RequestId) (error : Option String) :
    NoDispatch s (s.answer request_id error) := by
  unfold Server.answer
  cases s.pending.get? request_id with
  | none => exact refl s
  | some client_identity => exact ⟨_, rfl, fun _ hb => by rw [mem_singleton.mp hb]; rfl⟩

theorem NoDispatch.leave (s : Server) (request_id : RequestId) (new_state : RequestState)
    (error error' : Option String) : NoDispatch s (s.leave request_id new_state error error') :=
  answer (s.transition request_id new_state error none) request_id error'

theorem NoDispatch.foldl {α : Type} {f : Server → α → Server}
    (hf : ∀ s a, NoDispatch s (f s a)) (l : List α) : ∀ s, NoDispatch s (l.foldl f s) := by
  induction l with
  | nil => exact refl
  | cons a l ih =>
    intro s
    exact (hf s a).trans (ih (f s a))

theorem DispatchedWaiting.snoc {l : List Action} (h : DispatchedWaiting l) {a : Action}
    (ha : ∀ r ∈ dispatched a, (replied r l).length < (accepted r l).length) :
    DispatchedWaiting (l ++ [a]) := by
  intro n b hb r hr
  by_cases hn : n < l.length
  · rw [getElem?_append_left hn] at hb
    rw [take_append_of_le_length (Nat.le_of_lt hn)]
    exact h n b hb r hr
  · have hlast : n = l.length := by
      have hlt := (List.getElem?_eq_some_iff.mp hb).1
      rw [length_append, length_singleton] at hlt
      omega
    subst hlast
    rw [getElem?_append_right (Nat.le_refl _), Nat.sub_self] at hb
    cases hb
    rw [take_left]
    exact ha r hr

theorem DispatchedWaiting.append {l : List Action} (h : DispatchedWaiting l) :
    ∀ {l' : List Action}, (∀ a ∈ l', dispatched a = []) → DispatchedWaiting (l ++ l') := by
  intro l'
  induction l' generalizing l with
  | nil =>
    intro _
    rw [append_nil]
    exact h
  | cons a l' ih =>
    intro hnone
    have hfirst : DispatchedWaiting (l ++ [a]) := by
      apply h.snoc
      intro r hr
      rw [hnone a mem_cons_self] at hr
      exact absurd hr not_mem_nil
    have hrest := ih hfirst fun b hb => hnone b (mem_cons_of_mem _ hb)
    rw [append_assoc] at hrest
    exact hrest

theorem DispatchedWaiting.none (h : DispatchedWaiting s.trace) (hnone : NoDispatch s s') :
    DispatchedWaiting s'.trace := by
  obtain ⟨l, hl, hempty⟩ := hnone
  rw [hl]
  exact h.append hempty

variable {r : RequestId}

theorem Balanced.waiting (h : Balanced s) (hr : r ∈ s.tracker.keys) :
    (replied r s.trace).length < (accepted r s.trace).length := by
  have hanswered := congrArg List.length (h.answered r)
  rw [length_map, length_append] at hanswered
  obtain ⟨client_identity, hget⟩ := mem_keys_iff.mp ((h.tracked r).mpr hr)
  rw [hget] at hanswered
  rw [hanswered]
  exact Nat.lt_succ_self _

/-! ## Client requests -/

variable {now : ℚ}

/-- What is read of a table after a write. -/
theorem read_update {α β : Type} (f : β → α) (g : ℕ → β) (r : ℕ) (b : β) (ref : ℕ) :
    f (update g r b ref) = if ref = r then f b else f (g ref) := by
  rw [update_apply]
  exact apply_ite f _ _ _

theorem OnBoard.client_request (h : OnBoard s connected) {frames : ClientFrames}
    (ho : GlmOrderly now s (.client_request frames)) :
    OnBoard (handle_client_request now frames s) connected := by
  obtain ⟨state, hglm, hplaced⟩ := h
  unfold handle_client_request
  cases frames with
  | malformed => exact ⟨state, hglm, hplaced⟩
  | other client_identity => exact ⟨state, hglm, hplaced⟩
  | request client_identity payload req =>
    dsimp only
    cases hsubmit : s.tracker.submit (req.id now) now with
    | none => exact ⟨state, hglm, hplaced⟩
    | some tracker =>
      obtain ⟨hnew, htracker⟩ : req.id now ∉ s.tracker.keys ∧
          tracker = s.tracker.set (req.id now) ⟨.pending, now, fun _ => none, none⟩ := by
        unfold Tracker.submit at hsubmit
        split at hsubmit
        · cases hsubmit
        · next hout =>
          cases hsubmit
          exact ⟨hout, rfl⟩
      have hbatch := (ho state hglm).resolve_left hnew
      obtain ⟨t, ht⟩ : ∃ t, t = tracker.move (req.id now) .encoder_waiting none none := ⟨_, rfl⟩
      have hget_new : t.get? (req.id now) = some (RequestRecord.move
          ⟨.pending, now, fun _ => none, none⟩ .encoder_waiting none none) := by
        rw [ht]
        apply get?_move_of_allows
        · rw [htracker, get?_set, if_pos rfl]
        · rfl
      have hget : ∀ r, r ≠ req.id now → t.get? r = s.tracker.get? r := by
        intro r hr
        rw [ht, get?_move_ne hr, htracker, get?_set, if_neg hr]
      unfold Server.enqueue
      dsimp only [Server.transition, Server.act]
      rw [hglm, ← ht]
      dsimp only
      split
      · -- the request is refused, and leaves the tracker again
        rw [complete_with_error_eq]
        refine ⟨state, by rw [leave_rest], ?_⟩
        refine hplaced.same ?_ ?_
        · exact congrArg (fun s => s.free_slots Role.denoiser) (leave_rest _ _ _ _ _)
        · intro r
          refine (get?_leave ..).trans ?_
          split
          · next hr => exact (get?_eq_none_iff.mpr (hr ▸ hnew)).symm
          · next hr => exact hget r hr
      · refine ⟨_, rfl, ?_⟩
        refine hplaced.submit hnew hbatch
          (read_update GlmDistributedRequest.client_request_id _ _ _)
          (read_update GlmDistributedRequest.worker_idx _ _ _) ?_ hget
        rw [hget_new]
        rfl

theorem NoDispatch.client_request (s : Server) (now : ℚ) (frames : ClientFrames) :
    NoDispatch s (handle_client_request now frames s) := by
  unfold handle_client_request
  cases frames with
  | malformed => exact refl s
  | other client_identity => exact act s rfl
  | request client_identity payload req =>
    dsimp only
    split
    · exact refl s
    · next tracker _ =>
      obtain ⟨t, ht⟩ : ∃ t, ({ s with
          tracker := tracker, pending := s.pending.set (req.id now) client_identity }.act
            (.accept (req.id now) client_identity now)).transition (req.id now) .encoder_waiting
              none none = t := ⟨_, rfl⟩
      have haccepted : NoDispatch s t := by
        rw [← ht]
        exact ⟨[.accept (req.id now) client_identity now], rfl, fun _ hb => by
          rw [mem_singleton.mp hb]
          rfl⟩
      rw [ht]
      unfold Server.enqueue
      split
      · split
        · exact haccepted.trans (leave t _ _ _ _)
        · exact haccepted.trans (of_eq rfl)
      · exact haccepted.trans (of_eq rfl)

/-! ## The batch of the external server -/

theorem pick_perm (indices queue : List ℕ) :
    ((pick indices queue).1 ++ (pick indices queue).2).Perm queue := by
  unfold pick
  have hperm := (filter_append_perm (fun p : ℕ × ℕ => indices.contains p.2)
    queue.zipIdx).map Prod.fst
  rw [zipIdx_map_fst, map_append] at hperm
  rw [partition_eq_filter_filter]
  exact hperm

theorem foldl_start_ar (ids : List RequestId) : ∀ s : Server, ∃ t : Tracker,
    ids.foldl start_ar s = { s with tracker := t } ∧ (∀ r, r ∉ ids → t.get? r = s.tracker.get? r) ∧
    ∀ r ∈ ids, s.state_of r = some .encoder_waiting ∨ s.state_of r = some .encoder_running →
      (t.get? r).map RequestRecord.state = some .encoder_running := by
  induction ids with
  | nil => exact fun s => ⟨s.tracker, rfl, fun _ _ => rfl, fun _ hr => absurd hr not_mem_nil⟩
  | cons r₀ ids ih =>
    intro s
    obtain ⟨t, ht, hout, hin⟩ := ih (start_ar s r₀)
    have hget : ∀ r, (start_ar s r₀).tracker.get? r =
        if r = r₀ then (s.tracker.get? r).map fun record =>
          if record.state.allows .encoder_running then record.move .encoder_running none none
          else record
        else s.tracker.get? r := fun r => get?_move r
    refine ⟨t, ?_, ?_, ?_⟩
    · rw [foldl_cons, ht]
      rfl
    · intro r hr
      rw [hout r fun hmem => hr (mem_cons_of_mem _ hmem), hget,
        if_neg fun heq : r = r₀ => hr (heq ▸ mem_cons_self)]
    · intro r hr hstate
      -- the request runs after its own transition, and stays so
      have hrunning : r = r₀ → (start_ar s r₀).state_of r = some .encoder_running := by
        intro heq
        unfold Server.state_of at hstate ⊢
        rw [hget, if_pos heq]
        cases hrecord : s.tracker.get? r with
        | none =>
          rw [hrecord] at hstate
          rcases hstate with hstate | hstate
          · cases hstate
          · cases hstate
        | some record =>
          rw [hrecord] at hstate
          rw [Option.map_some]
          rcases hstate with hstate | hstate
          · rw [Option.some.inj hstate]
            rfl
          · rw [Option.some.inj hstate]
            exact hstate
      by_cases hmem : r ∈ ids
      · apply hin r hmem
        by_cases heq : r = r₀
        · exact Or.inr (hrunning heq)
        · unfold Server.state_of at hstate ⊢
          rw [hget, if_neg heq]
          exact hstate
      · rw [hout r hmem]
        exact hrunning ((mem_cons.mp hr).resolve_right hmem)

theorem OnBoard.ar_dispatch (h : OnBoard s connected) (hb : Balanced s)
    (ht : DispatchedWaiting s.trace) (c : Config) (now : ℚ) :
    OnBoard (dispatch_glm_ar_batch_if_ready c now s) connected ∧
      DispatchedWaiting (dispatch_glm_ar_batch_if_ready c now s).trace := by
  obtain ⟨state, hglm, hplaced⟩ := h
  unfold dispatch_glm_ar_batch_if_ready
  rw [hglm]
  dsimp only
  cases hactive : state.active_ar_batch with
  | some batch => exact ⟨⟨state, hglm, hplaced⟩, ht⟩
  | none =>
    cases hqueue : state.pending_ar_requests with
    | nil => exact ⟨⟨state, hglm, hplaced⟩, ht⟩
    | cons r rest =>
      dsimp only
      obtain ⟨indices, output_slots⟩ := gather_ar (batch_max_size c) state.requests
        (state.requests r) 1 rest ([0], (state.requests r).output_count)
      split
      · exact ⟨⟨state, hglm, hplaced⟩, ht⟩
      · have hperm := pick_perm indices (r :: rest)
        rw [← hqueue] at hperm ⊢
        obtain ⟨⟨requests, left⟩, hpick⟩ : ∃ p, pick indices state.pending_ar_requests = p :=
          ⟨_, rfl⟩
        rw [hpick] at hperm ⊢
        obtain ⟨t, hfold, hout, hin⟩ := foldl_start_ar
          (requests.map fun r => (state.requests r).client_request_id) s
        rw [hfold]
        have hwaiting : ∀ ref ∈ requests,
            s.state_of (state.requests ref).client_request_id = some .encoder_waiting :=
          fun ref href => hplaced.waiting ref (hperm.mem_iff.mp (mem_append_left _ href))
        constructor
        · refine ⟨_, rfl, ?_⟩
          refine hplaced.start ?_ hperm ?_ ?_
          · unfold board
            dsimp only
            rw [hactive]
            rfl
          · intro ref href
            have href' : ref ∈ requests := href
            exact hin _ (mem_map_of_mem href') (Or.inl (hwaiting ref href'))
          · intro r' hr'
            apply hout
            intro hmem
            obtain ⟨ref, href, heq⟩ := mem_map.mp hmem
            exact hr' ref href heq
        · apply ht.snoc
          intro r' hr'
          obtain ⟨ref, href, heq⟩ := mem_map.mp hr'
          apply hb.waiting
          rw [← heq]
          exact @Placed.tracked_of_state (board s state) _ _ (hwaiting ref href)

theorem foldl_fail_ar (error : String) (ids : List RequestId) : ∀ s : Server,
    (ids.foldl (fail_ar error) s).glm = s.glm ∧
    (ids.foldl (fail_ar error) s).free_slots = s.free_slots ∧
    ∀ r, (ids.foldl (fail_ar error) s).tracker.get? r =
      if r ∈ ids then none else s.tracker.get? r := by
  induction ids with
  | nil => exact fun s => ⟨rfl, rfl, fun _ => rfl⟩
  | cons r₀ ids ih =>
    intro s
    rw [foldl_cons]
    obtain ⟨hglm, hslots, hget⟩ := ih (fail_ar error s r₀)
    unfold fail_ar at hglm hslots hget ⊢
    rw [complete_with_error_eq] at hglm hslots hget ⊢
    refine ⟨hglm.trans ?_, hslots.trans ?_, ?_⟩
    · rw [leave_rest]
    · rw [leave_rest]
    · intro r
      rw [hget, get?_leave, ← ite_or]
      exact if_congr (or_comm.trans mem_cons.symm) rfl rfl

theorem transition_both_spec {first second : RequestState} {error : Option String}
    (hr : r ∈ s.tracker.keys) {old : RequestState} (hold : s.state_of r = some old)
    (hfirst : old.allows first = true) (hsecond : first.allows second = true) :
    ∃ t : Tracker, s.transition_both r first second error = { s with tracker := t } ∧
      (t.get? r).map RequestRecord.state = some second ∧
      ∀ r', r ≠ r' → t.get? r' = s.tracker.get? r' := by
  obtain ⟨record, hget⟩ := mem_keys_iff.mp hr
  have hstate : record.state = old := by
    unfold Server.state_of at hold
    rw [hget] at hold
    exact Option.some.inj hold
  have hallow : record.state.allows first = true := by
    rw [hstate]
    exact hfirst
  unfold Server.transition_both Tracker.transition
  rw [hget]
  dsimp only
  rw [if_pos hallow]
  refine ⟨_, rfl, ?_, ?_⟩
  · have hmid : (s.tracker.set r (record.move first none none)).get? r
        = some (record.move first none none) := by rw [get?_set, if_pos rfl]
    rw [get?_move_of_allows hmid hsecond]
    rfl
  · intro r' hr'
    rw [get?_move_ne (Ne.symm hr'), get?_set, if_neg (Ne.symm hr')]

theorem values_set_of_notMem {κ ν : Type} [DecidableEq κ] {d : OrderedDict κ ν} {k : κ} {v : ν}
    (h : k ∉ d.keys) : (d.set k v).values = d.values ++ [v] := by
  unfold OrderedDict.values
  rw [items_set_of_notMem h, map_append]
  rfl

theorem client_worker_write (state : GlmState) (r : ℕ) (request_id : RequestId) (ref : ℕ) :
    ((state.write r { state.requests r with request_id := request_id }).requests
      ref).client_request_id = (state.requests ref).client_request_id ∧
    ((state.write r { state.requests r with request_id := request_id }).requests
      ref).worker_idx = (state.requests ref).worker_idx := by
  refine ⟨(read_update GlmDistributedRequest.client_request_id _ _ _ _).trans ?_,
    (read_update GlmDistributedRequest.worker_idx _ _ _ _).trans ?_⟩
  · exact ite_eq_right_iff.mpr fun heq => heq ▸ rfl
  · exact ite_eq_right_iff.mpr fun heq => heq ▸ rfl

theorem OnBoard.finish_all (group : ℕ) (batch : List ℕ) : ∀ {index : ℕ} {s : Server}
    {state : GlmState}, s.glm = some state → state.active_ar_batch = none →
      Placed { board s state with ar_batch := batch } connected →
      (∀ i, index ≤ i → RequestId.glm_distributed group i ∉ state.denoiser_requests.keys) →
      OnBoard ((batch.zipIdx index).foldl (finish_ar group) s) connected := by
  induction batch with
  | nil =>
    intro index s state hglm hactive hplaced _
    refine ⟨state, hglm, ?_⟩
    have hsame : ({ board s state with ar_batch := [] } : Board) = board s state := by
      unfold board
      rw [hactive]
      rfl
    rw [hsame] at hplaced
    exact hplaced
  | cons ref rest ih =>
    intro index s state hglm hactive hplaced hkeys
    rw [zipIdx_cons, foldl_cons]
    have hnext : ∀ i, index + 1 ≤ i →
        RequestId.glm_distributed group i ∉ state.denoiser_requests.keys :=
      fun i hi => hkeys i (Nat.le_of_succ_le hi)
    by_cases htracked : s.tracker.get? (state.requests ref).client_request_id = none
    · -- the request timed out while it was in the batch
      have hskip : finish_ar group s (ref, index) = s := by
        unfold finish_ar
        rw [hglm]
        dsimp only
        rw [if_pos htracked]
      rw [hskip]
      refine ih hglm hactive ?_ hnext
      refine hplaced.drop_batch (sublist_cons_self ref rest) rfl ?_ fun _ _ => rfl
      intro ref' href' hout
      rw [(mem_cons.mp href').resolve_right hout]
      exact get?_eq_none_iff.mp htracked
    · have hkey : (state.requests ref).client_request_id ∈ s.tracker.keys := by
        by_contra hout
        exact htracked (get?_eq_none_iff.mpr hout)
      have hrunning := hplaced.running ref mem_cons_self hkey
      obtain ⟨t, hboth, hstate, hget⟩ := @transition_both_spec s
        (state.requests ref).client_request_id .encoder_done .denoising_waiting none hkey
        .encoder_running hrunning rfl rfl
      obtain ⟨state', hstate'⟩ : ∃ state' : GlmState, state' =
          { state.write ref { state.requests ref with
              request_id := .glm_distributed group index } with
            denoiser_requests := state.denoiser_requests.set (.glm_distributed group index) ref
            pending_denoiser_requests := state.pending_denoiser_requests ++ [ref] } := ⟨_, rfl⟩
      have hfinish : finish_ar group s (ref, index)
          = ({ s with tracker := t } : Server).set_glm state' := by
        unfold finish_ar
        rw [hglm]
        dsimp only
        rw [if_neg htracked, hboth, hstate']
        rfl
      rw [hfinish]
      have hfresh := hkeys index (Nat.le_refl _)
      have hclients := fun x => client_worker_write state ref (.glm_distributed group index) x
      apply ih rfl
      · rw [hstate']
        exact hactive
      · subst hstate'
        exact hplaced.finish rfl (values_set_of_notMem hfresh) (funext fun x => (hclients x).1)
          (funext fun x => (hclients x).2) hkey hstate hget
      · intro i hi
        rw [hstate']
        rw [mem_keys_set]
        rintro (heq | hmem)
        · cases heq
          exact absurd hi (Nat.not_succ_le_self _)
        · exact hnext i hi hmem

theorem NoDispatch.transition_both (s : Server) (request_id : RequestId)
    (first second : RequestState) (error : Option String) :
    NoDispatch s (s.transition_both request_id first second error) := by
  unfold Server.transition_both
  split
  · exact refl s
  · exact of_eq rfl

theorem NoDispatch.ar_result (s : Server) (error : Option String) (group : ℕ) :
    NoDispatch s (process_glm_ar_batch_result error group s) := by
  unfold process_glm_ar_batch_result
  split
  · exact refl s
  · split
    · exact refl s
    · split
      · refine NoDispatch.trans ?_ (foldl ?_ _ _)
        · exact of_eq rfl
        · exact fun s r => leave s r _ _ _
      · refine NoDispatch.trans ?_ (foldl ?_ _ _)
        · exact of_eq rfl
        · intro s entry
          unfold finish_ar
          split
          · exact refl s
          · dsimp only
            split
            · exact refl s
            · exact (transition_both s _ _ _ _).trans (of_eq rfl)

theorem OnBoard.ar_result (h : OnBoard s connected) {error : Option String} {group : ℕ}
    (ho : GlmOrderly now s (.ar_done error group)) :
    OnBoard (process_glm_ar_batch_result error group s) connected := by
  obtain ⟨state, hglm, hplaced⟩ := h
  have hkeys := ho state hglm
  unfold process_glm_ar_batch_result
  rw [hglm]
  dsimp only
  cases hactive : state.active_ar_batch with
  | none => exact ⟨state, hglm, hplaced⟩
  | some requests =>
    have hbatch : (board s state).ar_batch = requests := by
      unfold board
      rw [hactive]
      rfl
    cases error with
    | some error =>
      obtain ⟨hglm', hslots, hget⟩ := foldl_fail_ar error
        (requests.map fun r => (state.requests r).client_request_id)
          (s.set_glm { state with active_ar_batch := none })
      refine ⟨_, hglm'.trans rfl, ?_⟩
      refine hplaced.drop_batch (nil_sublist _) ?_ ?_ ?_
      · exact congrFun hslots Role.denoiser
      · intro ref href _
        rw [hbatch] at href
        apply get?_eq_none_iff.mp
        exact (hget _).trans (if_pos (mem_map_of_mem href))
      · intro r hr
        refine (hget r).trans (if_neg ?_)
        intro hmem
        obtain ⟨ref, href, heq⟩ := mem_map.mp hmem
        rw [← hbatch] at href
        exact hr ref href not_mem_nil heq
    | none =>
      refine OnBoard.finish_all group requests rfl rfl ?_ fun i _ => hkeys i
      have hsame : ({ board (s.set_glm { state with active_ar_batch := none })
          { state with active_ar_batch := none } with ar_batch := requests } : Board)
            = board s state := by
        rw [← hbatch]
        rfl
      rw [hsame]
      exact hplaced

/-! ## The denoisers -/

theorem getD_zipWith_available (slots : List ℤ) (available : List Bool) (w : ℕ)
    (h : 0 < (slots.zipWith (fun n b => if b then n else 0) available).getD w 0) :
    available.getD w false = true ∧ 0 < slots.getD w 0 ∧ w < slots.length := by
  rw [getD_eq_getElem?_getD, getElem?_zipWith] at h
  rw [getD_eq_getElem?_getD, getD_eq_getElem?_getD]
  cases hslots : slots[w]? with
  | none =>
    rw [hslots] at h
    exact absurd h (lt_irrefl 0)
  | some n =>
    cases havailable : available[w]? with
    | none =>
      rw [hslots, havailable] at h
      exact absurd h (lt_irrefl 0)
    | some b =>
      rw [hslots, havailable] at h
      cases b with
      | false => exact absurd h (lt_irrefl 0)
      | true => exact ⟨rfl, h, (List.getElem?_eq_some_iff.mp hslots).1⟩

theorem OnBoard.denoiser_step (h : OnBoard s connected) (hb : Balanced s)
    (ht : DispatchedWaiting s.trace) {b : Bool}
    (hstep : dispatch_glm_denoiser_step s = some (b, s')) :
    OnBoard s' connected ∧ DispatchedWaiting s'.trace := by
  obtain ⟨state, hglm, hplaced⟩ := h
  unfold dispatch_glm_denoiser_step at hstep
  rw [hglm] at hstep
  dsimp only at hstep
  cases hqueue : state.pending_denoiser_requests with
  | nil =>
    rw [hqueue] at hstep
    cases hstep
    exact ⟨⟨state, hglm, hplaced⟩, ht⟩
  | cons ref rest =>
    rw [hqueue] at hstep
    dsimp only at hstep
    split at hstep
    · cases hstep
    · cases hstep
      exact ⟨⟨state, hglm, hplaced⟩, ht⟩
    · next w policy hselect =>
      cases hstep
      obtain ⟨havailable, hpositive, hlt⟩ :=
        getD_zipWith_available _ _ _ (select_with_capacity_free hselect)
      have hconnected := hplaced.known w havailable
      have hfree : (board s state).Free w := by
        by_contra hbusy
        have hzero : (s.free_slots .denoiser).getD w 0 = 0 :=
          (hplaced.counters w hconnected hlt).2 hbusy
        rw [hzero] at hpositive
        exact lt_irrefl 0 hpositive
      have hhead : ref ∈ (board s state).denoiser_queue := by
        unfold board
        rw [hqueue]
        exact mem_cons_self
      obtain ⟨hin, hnone⟩ := hplaced.queued ref hhead
      have hwaiting := (hplaced.stands ref hin hnone).2
      have hkey := Placed.tracked_of_state hwaiting
      obtain ⟨record, hget⟩ := mem_keys_iff.mp hkey
      have hstate : record.state = .denoising_waiting := by
        unfold Board.state_of at hwaiting
        rw [hget] at hwaiting
        exact Option.some.inj hwaiting
      constructor
      · refine ⟨_, rfl, ?_⟩
        refine hplaced.assign hqueue hfree ?_ ?_ ?_ ?_ ?_ ?_
        · funext x
          refine (read_update GlmDistributedRequest.client_request_id _ _ _ x).trans ?_
          exact ite_eq_right_iff.mpr fun heq => heq ▸ rfl
        · exact read_update GlmDistributedRequest.worker_idx _ _ _
        · exact length_add_slots s .denoiser .denoiser w (-1)
        · intro w'
          refine (getD_add_slots s .denoiser .denoiser w w' (-1)).trans ?_
          by_cases hw : w' = w
          · rw [if_pos ⟨rfl, hw, hlt⟩, if_pos hw]
            rfl
          · rw [if_neg fun hall => hw hall.2.1, if_neg hw, add_zero]
            rfl
        · refine ⟨record.move .denoising_running none (some (.denoiser, w)), ?_, rfl, ?_⟩
          · apply get?_move_of_allows hget
            rw [hstate]
            rfl
          · unfold RequestRecord.move
            dsimp only
            rw [if_pos rfl]
        · exact fun r hr => get?_move_ne (Ne.symm hr)
      · have hdispatched : DispatchedWaiting (s.trace ++
            [.dispatch .denoiser (state.requests ref).client_request_id w]) := by
          apply ht.snoc
          intro r hr
          rw [mem_singleton.mp hr]
          exact hb.waiting hkey
        apply hdispatched.snoc
        intro r hr
        exact absurd hr not_mem_nil

theorem OnBoard.drain (n : ℕ) : ∀ {s s' : Server}, OnBoard s connected → Balanced s →
    DispatchedWaiting s.trace → drain dispatch_glm_denoiser_step n s = some s' →
      OnBoard s' connected ∧ DispatchedWaiting s'.trace := by
  induction n with
  | zero =>
    intro s s' h _ ht hdrain
    cases hdrain
    exact ⟨h, ht⟩
  | succ n ih =>
    intro s s' h hb ht hdrain
    unfold DiffusionServer.drain at hdrain
    split at hdrain
    · cases hdrain
    · next hlast =>
      cases hdrain
      exact h.denoiser_step hb ht hlast
    · next hmore =>
      obtain ⟨hnext, ht'⟩ := h.denoiser_step hb ht hmore
      exact ih hnext ((Quiet.denoiser_step hmore).balanced hb) ht' hdrain

theorem foldl_replay (replayed : List ℕ) : ∀ {s : Server} {state : GlmState}, s.glm = some state →
    ∃ (requests : ℕ → GlmDistributedRequest) (t : Tracker), replayed.foldl replay s =
        { s with glm := some { state with requests := requests }, tracker := t } ∧
      (∀ ref, (requests ref).client_request_id = (state.requests ref).client_request_id ∧
        (requests ref).worker_idx =
          if ref ∈ replayed then none else (state.requests ref).worker_idx) ∧
      (∀ r, (∀ ref ∈ replayed, (state.requests ref).client_request_id ≠ r) →
        t.get? r = s.tracker.get? r) ∧ ∀ ref ∈ replayed, ∀ record,
        s.tracker.get? (state.requests ref).client_request_id = some record →
        record.state = .denoising_running ∨ record.state = .denoising_waiting →
          (t.get? (state.requests ref).client_request_id).map RequestRecord.state
            = some .denoising_waiting := by
  induction replayed with
  | nil =>
    intro s state hglm
    refine ⟨state.requests, s.tracker, ?_, fun _ => ⟨rfl, rfl⟩, fun _ _ => rfl, ?_⟩
    · rw [foldl_nil, ← hglm]
    · exact fun ref href => absurd href not_mem_nil
  | cons ref₀ replayed ih =>
    intro s state hglm
    obtain ⟨state', hstate'⟩ : ∃ state', state' =
        state.write ref₀ { state.requests ref₀ with worker_idx := none } := ⟨_, rfl⟩
    have hreplay : replay s ref₀ = (s.set_glm state').transition
        (state.requests ref₀).client_request_id .denoising_waiting none none := by
      unfold replay
      rw [hglm, hstate']
    have hclients : ∀ ref, (state'.requests ref).client_request_id
        = (state.requests ref).client_request_id ∧
          (state'.requests ref).worker_idx
            = if ref = ref₀ then none else (state.requests ref).worker_idx := by
      intro ref
      rw [hstate']
      refine ⟨(read_update GlmDistributedRequest.client_request_id _ _ _ ref).trans ?_,
        read_update GlmDistributedRequest.worker_idx _ _ _ ref⟩
      exact ite_eq_right_iff.mpr fun heq => heq ▸ rfl
    obtain ⟨requests, t, hfold, hrequests, hout, hin⟩ := @ih (replay s ref₀) state'
      (by rw [hreplay]; rfl)
    have hget : ∀ r, (replay s ref₀).tracker.get? r =
        if r = (state.requests ref₀).client_request_id then (s.tracker.get? r).map fun record =>
          if record.state.allows .denoising_waiting then record.move .denoising_waiting none none
          else record
        else s.tracker.get? r := by
      intro r
      rw [hreplay]
      exact get?_move r
    refine ⟨requests, t, ?_, ?_, ?_, ?_⟩
    · rw [foldl_cons, hfold, hreplay, hstate']
      rfl
    · intro ref
      obtain ⟨hclient, hworker⟩ := hrequests ref
      obtain ⟨hclient', hworker'⟩ := hclients ref
      refine ⟨hclient.trans hclient', ?_⟩
      rw [hworker, hworker']
      by_cases hmem : ref ∈ replayed
      · rw [if_pos hmem, if_pos (mem_cons_of_mem _ hmem)]
      · rw [if_neg hmem]
        by_cases hr : ref = ref₀
        · rw [if_pos hr, if_pos (hr ▸ mem_cons_self)]
        · rw [if_neg hr, if_neg fun hcons => hmem ((mem_cons.mp hcons).resolve_left hr)]
    · intro r hr
      rw [hout r fun ref href => ?_, hget, if_neg fun heq => hr ref₀ mem_cons_self heq.symm]
      rw [(hclients ref).1]
      exact hr ref (mem_cons_of_mem _ href)
    · intro ref href record hrecord hstate
      -- the request waits after its own transition, and stays so
      have hmoved : (state.requests ref).client_request_id
          = (state.requests ref₀).client_request_id →
            ∃ record', (replay s ref₀).tracker.get? (state.requests ref).client_request_id
              = some record' ∧ record'.state = .denoising_waiting := by
        intro heq
        rw [hget, if_pos heq, hrecord, Option.map_some]
        rcases hstate with hrunning | hwaiting
        · rw [hrunning]
          exact ⟨_, rfl, rfl⟩
        · rw [hwaiting]
          exact ⟨_, rfl, hwaiting⟩
      by_cases hmem : ∃ ref' ∈ replayed, (state.requests ref').client_request_id
          = (state.requests ref).client_request_id
      · obtain ⟨ref', href', hsame⟩ := hmem
        rw [← hsame]
        have hlater := hin ref' href'
        rw [(hclients ref').1] at hlater
        by_cases heq : (state.requests ref).client_request_id
            = (state.requests ref₀).client_request_id
        · obtain ⟨record', hrecord', hwaiting⟩ := hmoved heq
          exact hlater record' (hsame ▸ hrecord') (Or.inr hwaiting)
        · refine hlater record ?_ hstate
          rw [hsame, hget, if_neg heq]
          exact hrecord
      · have hfirst : ref = ref₀ := by
          rcases mem_cons.mp href with heq | hcons
          · exact heq
          · exact absurd ⟨ref, hcons, rfl⟩ hmem
        obtain ⟨record', hrecord', hwaiting⟩ := hmoved (by rw [hfirst])
        rw [hout _ fun ref' href' => ?_, hrecord', Option.map_some, hwaiting]
        rw [(hclients ref').1]
        exact fun heq => hmem ⟨ref', href', heq⟩

theorem getD_set {α : Type} (l : List α) (i j : ℕ) (a d : α) :
    (l.set i a).getD j d = if j = i ∧ j < l.length then a else l.getD j d := by
  rw [getD_eq_getElem?_getD, getD_eq_getElem?_getD, getElem?_set]
  by_cases hj : j = i
  · subst hj
    rw [if_pos rfl]
    by_cases hlt : j < l.length
    · rw [if_pos hlt, if_pos ⟨rfl, hlt⟩]
      rfl
    · rw [if_neg hlt, if_neg fun h => hlt h.2, getElem?_eq_none (Nat.le_of_not_lt hlt)]
  · rw [if_neg (Ne.symm hj), if_neg fun h => hj h.1]

theorem getD_set_of_lt {α : Type} {l : List α} {j : ℕ} (hlt : j < l.length) (i : ℕ) (a d : α) :
    (l.set i a).getD j d = if j = i then a else l.getD j d := by
  rw [getD_set]
  exact if_congr (and_iff_left hlt) rfl rfl

/-- The slots of the denoisers after the server has set one of them. -/
theorem set_slots_spec (s : Server) (w : ℕ) (n : ℤ) :
    ((s.set_slots .denoiser w n).free_slots .denoiser).length = (s.free_slots .denoiser).length ∧
    ∀ w', w' < (s.free_slots .denoiser).length →
      ((s.set_slots .denoiser w n).free_slots .denoiser).getD w' 0 =
        if w' = w then n else (s.free_slots .denoiser).getD w' 0 := by
  unfold Server.set_slots
  dsimp only
  exact ⟨length_set .., fun w' hlt => getD_set_of_lt hlt w n 0⟩

theorem mem_assigned {state : GlmState} {w ref : ℕ} : ref ∈ state.assigned w ↔
      ref ∈ state.denoiser_requests.values ∧ (state.requests ref).worker_idx = some w := by
  unfold GlmState.assigned
  rw [mem_filter, decide_eq_true_eq]

theorem OnBoard.disconnected (h : OnBoard s connected) (w : ℕ) :
    OnBoard (handle_glm_denoiser_disconnected w s) connected ∧
      NoDispatch s (handle_glm_denoiser_disconnected w s) := by
  obtain ⟨state, hglm, hplaced⟩ := h
  unfold handle_glm_denoiser_disconnected
  rw [hglm]
  dsimp only
  obtain ⟨u, hu⟩ : ∃ u, (s.set_glm { state with
      denoiser_worker_available := state.denoiser_worker_available.set w false }).set_slots
        .denoiser w 0 = u := ⟨_, rfl⟩
  have hu_glm : u.glm = some { state with
      denoiser_worker_available := state.denoiser_worker_available.set w false } := by
    rw [← hu]
    rfl
  obtain ⟨hlength, hslots⟩ := set_slots_spec (s.set_glm { state with
    denoiser_worker_available := state.denoiser_worker_available.set w false }) w 0
  rw [hu] at hlength hslots
  have hu_tracker : u.tracker = s.tracker := by
    rw [← hu]
    rfl
  have hu_trace : u.trace = s.trace := by
    rw [← hu]
    rfl
  rw [hu]
  obtain ⟨requests, t, hfold, hrequests, hout, hin⟩ := foldl_replay (state.assigned w) hu_glm
  rw [hfold]
  rw [hu_tracker] at hout hin
  have hassigned : ∀ {ref}, ref ∈ state.assigned w →
      ref ∈ (board s state).table ∧ (board s state).worker ref = some w :=
    fun href => mem_assigned.mp href
  have hnodup : (board s state).table.Nodup :=
    (nodup_append.mp (nodup_append.mp hplaced.refs_nodup).2.1).2.1
  constructor
  · refine ⟨_, rfl, ?_⟩
    refine hplaced.disconnect hlength (length_set ..) (fun _ => mem_assigned) (hnodup.filter _)
      (funext fun ref => (hrequests ref).1) (fun ref => (hrequests ref).2) ?_ ?_ ?_ ?_
    · intro w'
      refine (getD_set state.denoiser_worker_available w w' false false).trans ?_
      by_cases hw : w' = w
      · rw [if_pos hw]
        by_cases hlt : w' < state.denoiser_worker_available.length
        · rw [if_pos ⟨hw, hlt⟩]
        · rw [if_neg fun hall => hlt hall.2, getD_eq_getElem?_getD,
            getElem?_eq_none (Nat.le_of_not_lt hlt)]
          rfl
      · rw [if_neg hw, if_neg fun hall => hw hall.1]
        rfl
    · exact hslots
    · intro ref href
      obtain ⟨htable, hworker⟩ := hassigned href
      obtain ⟨_, record, hget, hrunning, _⟩ := hplaced.works ref htable w hworker
      exact hin ref href record hget (Or.inl hrunning)
    · exact hout
  · exact NoDispatch.of_eq hu_trace

theorem OnBoard.connected_event (h : OnBoard s connected) (w : ℕ) :
    OnBoard (handle_glm_denoiser_connected w s) (w :: connected) ∧
      NoDispatch s (handle_glm_denoiser_connected w s) := by
  obtain ⟨state, hglm, hplaced⟩ := h
  unfold handle_glm_denoiser_connected
  rw [hglm]
  dsimp only
  have hidle : ({ state with denoiser_worker_available :=
      state.denoiser_worker_available.set w true } : GlmState).assigned w = [] ↔
        ∀ ref ∈ (board s state).table, (board s state).worker ref ≠ some w := by
    rw [eq_nil_iff_forall_not_mem]
    constructor
    · exact fun hnone ref href hworker => hnone ref (mem_assigned.mpr ⟨href, hworker⟩)
    · exact fun hall ref hmem => hall ref (mem_assigned.mp hmem).1 (mem_assigned.mp hmem).2
  have havailable : ∀ w', (state.denoiser_worker_available.set w true).getD w' false =
      if w' = w ∧ w' < (board s state).slots.length then true
      else (board s state).available.getD w' false := by
    intro w'
    rw [getD_set, ← hplaced.length]
    rfl
  split
  · next hnone =>
    constructor
    · refine ⟨_, rfl, hplaced.connect (set_slots_spec _ w 1).1 (length_set ..) w havailable ?_⟩
      intro w' hlt
      exact ((set_slots_spec _ w 1).2 w' hlt).trans
        (if_congr (and_iff_left (hidle.mp hnone)).symm rfl rfl)
    · exact NoDispatch.of_eq rfl
  · next hsome =>
    constructor
    · refine ⟨_, rfl, hplaced.connect rfl (length_set ..) w havailable ?_⟩
      intro w' _
      rw [if_neg fun hall => hsome (hidle.mpr hall.2)]
    · exact NoDispatch.of_eq rfl

theorem glm_transition_both (s : Server) (request_id : RequestId) (first second : RequestState)
    (error : Option String) : (s.transition_both request_id first second error).glm = s.glm ∧
    (s.transition_both request_id first second error).free_slots = s.free_slots ∧
    ∀ r, request_id ≠ r →
      (s.transition_both request_id first second error).tracker.get? r = s.tracker.get? r := by
  unfold Server.transition_both
  cases htr : s.tracker.transition request_id first none none with
  | none => exact ⟨rfl, rfl, fun _ _ => rfl⟩
  | some tracker =>
    refine ⟨rfl, rfl, fun r hr => ?_⟩
    have hfirst : s.tracker.move request_id first none none = tracker := by
      unfold Tracker.move
      rw [htr]
      rfl
    refine (get?_move_ne (Ne.symm hr)).trans ?_
    rw [← hfirst]
    exact get?_move_ne (Ne.symm hr)

theorem values_perm_cons_erase {κ ν : Type} [DecidableEq κ] {d : OrderedDict κ ν} {k : κ} {v : ν}
    (h : d.get? k = some v) : d.values.Perm (v :: (d.erase k).values) :=
  (items_perm_cons_erase h).map Prod.snd

theorem OnBoard.glm_result (h : OnBoard s connected) {frames : ResultFrames}
    (ho : GlmOrderly now s (.frames .denoiser frames)) :
    OnBoard (handle_glm_denoiser_result_frames frames s) connected ∧
      NoDispatch s (handle_glm_denoiser_result_frames frames s) := by
  obtain ⟨state, hglm, hplaced⟩ := h
  unfold handle_glm_denoiser_result_frames
  rw [hglm]
  cases hid : frames.request_id with
  | none => exact ⟨⟨state, hglm, hplaced⟩, NoDispatch.refl s⟩
  | some request_id =>
    dsimp only
    cases hget : state.denoiser_requests.get? request_id with
    | none => exact ⟨⟨state, hglm, hplaced⟩, NoDispatch.refl s⟩
    | some ref =>
      dsimp only
      obtain ⟨w, hworker⟩ := Option.ne_none_iff_exists'.mp (ho state request_id ref hglm hid hget)
      rw [hworker]
      dsimp only [Server.free_worker]
      obtain ⟨error, herror⟩ : ∃ error, result_error (state.requests ref) frames = error :=
        ⟨_, rfl⟩
      obtain ⟨final, hfinal⟩ : ∃ final, (if (truthy (result_error (state.requests ref)
          frames)).isSome then RequestState.failed else RequestState.done) = final := ⟨_, rfl⟩
      rw [hfinal, herror]
      obtain ⟨u, hu⟩ : ∃ u, (s.set_glm { state with
          denoiser_requests := state.denoiser_requests.erase request_id }).set_slots
            .denoiser w 1 = u := ⟨_, rfl⟩
      have hu_glm : u.glm = some { state with
          denoiser_requests := state.denoiser_requests.erase request_id } := by
        rw [← hu]
        rfl
      obtain ⟨hlength, hslots⟩ := set_slots_spec (s.set_glm { state with
        denoiser_requests := state.denoiser_requests.erase request_id }) w 1
      rw [hu] at hlength hslots
      have hu_tracker : u.tracker = s.tracker := by
        rw [← hu]
        rfl
      have hu_trace : u.trace = s.trace := by
        rw [← hu]
        rfl
      rw [hu]
      have hanswer := SameBooks.answer u (state.requests ref).client_request_id error
      obtain ⟨hglm', hslots', hother⟩ := glm_transition_both
        (u.answer (state.requests ref).client_request_id error)
        (state.requests ref).client_request_id .denoising_done final error
      constructor
      · refine ⟨_, (hglm'.trans hanswer.glm).trans hu_glm, ?_⟩
        have hsame : ((((u.answer (state.requests ref).client_request_id
            error).transition_both (state.requests ref).client_request_id .denoising_done final
              error).remove (state.requests ref).client_request_id).free_slots .denoiser)
              = u.free_slots .denoiser :=
          (congrFun hslots' _).trans (congrFun hanswer.free_slots _)
        refine hplaced.result ((congrArg List.length hsame).trans hlength) hworker
          (values_perm_cons_erase hget) ?_ ?_ ?_
        · exact fun w' hlt => (congrArg (fun l => l.getD w' 0) hsame).trans (hslots w' hlt)
        · intro hmem
          exact (mem_keys_erase.mp hmem).2 rfl
        · intro r hr
          have hr' : (state.requests ref).client_request_id ≠ r := hr
          refine (get?_erase _ _ r).trans ?_
          rw [if_neg (Ne.symm hr'), hother r hr', hanswer.tracker, hu_tracker]
          rfl
      · have hfirst : NoDispatch s u := NoDispatch.of_eq hu_trace
        have hreplied := hfirst.trans
          (NoDispatch.answer u (state.requests ref).client_request_id error)
        exact hreplied.trans (NoDispatch.transition_both _ _ _ _ _)

/-! ## Timeouts -/

theorem slots_foldl_time_out (c : Config) (timed_out : List RequestId) : ∀ s : Server,
    ((timed_out.foldl (time_out c) s).free_slots .denoiser).length
      = (s.free_slots .denoiser).length ∧
    ∀ w, (∀ r ∈ timed_out, ∀ record, s.tracker.get? r = some record →
      timeout_role record.state = some .denoiser → record.instance_at .denoiser ≠ some w) →
      ((timed_out.foldl (time_out c) s).free_slots .denoiser).getD w 0
        = (s.free_slots .denoiser).getD w 0 := by
  induction timed_out with
  | nil => exact fun s => ⟨rfl, fun _ _ => rfl⟩
  | cons r₀ timed_out ih =>
    intro s
    rw [foldl_cons]
    obtain ⟨hlength, hslots⟩ := ih (time_out c s r₀)
    -- the slot that the record of the request names is given back first
    obtain ⟨role, idx, error, heq, hidx⟩ := time_out_eq c s r₀
    have hleave : (time_out c s r₀).free_slots = (s.free_slot role idx).free_slots := by
      rw [heq, leave_rest]
    have hlength_u : ((s.free_slot role idx).free_slots .denoiser).length
        = (s.free_slots .denoiser).length := by
      cases idx with
      | none => rfl
      | some i => exact length_add_slots s role .denoiser i 1
    refine ⟨by rw [hlength, hleave, hlength_u], ?_⟩
    intro w hw
    have hfirst : ((s.free_slot role idx).free_slots .denoiser).getD w 0
        = (s.free_slots .denoiser).getD w 0 := by
      cases idx with
      | none => rfl
      | some i =>
        refine (getD_add_slots s role .denoiser i w 1).trans ?_
        rw [if_neg, add_zero]
        rintro ⟨rfl, rfl, -⟩
        obtain ⟨hrole, hinstance⟩ := hidx.resolve_left nofun
        obtain ⟨state, hstate, hrole⟩ := Option.bind_eq_some_iff.mp hrole
        obtain ⟨record, hrecord, rfl⟩ := state_of_eq_some_iff.mp hstate
        unfold Server.instance_of at hinstance
        rw [hrecord] at hinstance
        exact hw r₀ mem_cons_self record hrecord hrole hinstance.symm
    rw [hslots w ?_, hleave, hfirst]
    intro r hr record hrecord
    rw [get?_time_out] at hrecord
    split at hrecord
    · cases hrecord
    · exact hw r (mem_cons_of_mem _ hr) record hrecord

theorem drop_denoiser_requests_spec (timed_out : List RequestId) (l : List (RequestId × ℕ)) :
    ∀ (state : GlmState) (slots : List ℤ), ∃ (table : OrderedDict RequestId ℕ) (slots' : List ℤ),
      drop_denoiser_requests timed_out l state slots
        = ({ state with denoiser_requests := table }, slots') ∧
      table.items = state.denoiser_requests.items.filter (fun p => decide (¬ ∃ q ∈ l, q.1 = p.1 ∧
        (state.requests q.2).client_request_id ∈ timed_out)) ∧ slots'.length = slots.length ∧
      (∀ w, w < slots.length → (∃ q ∈ l, (state.requests q.2).client_request_id ∈ timed_out ∧
        (state.requests q.2).worker_idx = some w) → slots'.getD w 0 = 1) ∧
      ∀ w, (∀ q ∈ l, (state.requests q.2).client_request_id ∈ timed_out →
        (state.requests q.2).worker_idx ≠ some w) → slots'.getD w 0 = slots.getD w 0 := by
  induction l with
  | nil =>
    intro state slots
    refine ⟨state.denoiser_requests, slots, rfl, ?_, rfl, ?_, fun _ _ => rfl⟩
    · symm
      apply filter_eq_self.mpr
      intro p _
      apply decide_eq_true
      rintro ⟨q, hq, _⟩
      exact not_mem_nil hq
    · rintro w _ ⟨q, hq, _⟩
      exact absurd hq not_mem_nil
  | cons q₀ l ih =>
    intro state slots
    obtain ⟨key, ref⟩ := q₀
    unfold drop_denoiser_requests
    by_cases hout : (state.requests ref).client_request_id ∈ timed_out
    · rw [if_pos hout]
      obtain ⟨slots₁, hslots₁⟩ : ∃ slots₁, slots₁ =
          (state.requests ref).worker_idx.elim slots fun w => slots.set w 1 := ⟨_, rfl⟩
      have hlength₁ : slots₁.length = slots.length := by
        rw [hslots₁]
        cases (state.requests ref).worker_idx with
        | none => rfl
        | some w => exact length_set ..
      obtain ⟨table, slots', hdrop, htable, hlength, hone, hsame⟩ := ih { state with
        denoiser_requests := state.denoiser_requests.erase key } slots₁
      refine ⟨table, slots', ?_, ?_, hlength.trans hlength₁, ?_, ?_⟩
      · rw [← hdrop, hslots₁]
        cases (state.requests ref).worker_idx with
        | none => rfl
        | some w => rfl
      · rw [htable]
        unfold OrderedDict.erase
        rw [filter_filter]
        apply filter_congr
        intro p _
        rw [← Bool.decide_and, decide_eq_decide]
        constructor
        · rintro ⟨hnone, hne⟩ ⟨q, hq, hkey, hq_out⟩
          rcases mem_cons.mp hq with heq | hmem
          · rw [heq] at hkey
            exact hne hkey.symm
          · exact hnone ⟨q, hmem, hkey, hq_out⟩
        · intro hnone
          refine ⟨?_, ?_⟩
          · rintro ⟨q, hmem, hkey, hq_out⟩
            exact hnone ⟨q, mem_cons_of_mem _ hmem, hkey, hq_out⟩
          · intro heq
            exact hnone ⟨(key, ref), mem_cons_self, heq.symm, hout⟩
      · rintro w hlt ⟨q, hq, hq_out, hq_worker⟩
        by_cases hrest : ∃ q ∈ l, (state.requests q.2).client_request_id ∈ timed_out ∧
            (state.requests q.2).worker_idx = some w
        · exact hone w (hlength₁ ▸ hlt) hrest
        · rcases mem_cons.mp hq with heq | hmem
          · rw [heq] at hq_worker
            rw [hsame w fun q' hq' hout' hworker' => hrest ⟨q', hq', hout', hworker'⟩, hslots₁,
              hq_worker, Option.elim_some, getD_set, if_pos ⟨rfl, hlt⟩]
          · exact absurd ⟨q, hmem, hq_out, hq_worker⟩ hrest
      · intro w hnone
        rw [hsame w fun q hq => hnone q (mem_cons_of_mem _ hq), hslots₁]
        have hfirst := hnone (key, ref) mem_cons_self hout
        cases hw' : (state.requests ref).worker_idx with
        | none => rfl
        | some w' =>
          rw [Option.elim_some, getD_set, if_neg]
          rintro ⟨heq, _⟩
          rw [heq] at hfirst
          exact hfirst hw'
    · rw [if_neg hout]
      obtain ⟨table, slots', hdrop, htable, hlength, hone, hsame⟩ := ih state slots
      refine ⟨table, slots', hdrop, ?_, hlength, ?_, ?_⟩
      · rw [htable]
        apply filter_congr
        intro p _
        rw [decide_eq_decide, not_iff_not]
        constructor
        · rintro ⟨q, hmem, hq⟩
          exact ⟨q, mem_cons_of_mem _ hmem, hq⟩
        · rintro ⟨q, hmem, hkey, hq_out⟩
          rcases mem_cons.mp hmem with heq | hrest
          · rw [heq] at hq_out
            exact absurd hq_out hout
          · exact ⟨q, hrest, hkey, hq_out⟩
      · rintro w hlt ⟨q, hmem, hq_out, hq_worker⟩
        rcases mem_cons.mp hmem with heq | hrest
        · rw [heq] at hq_out
          exact absurd hq_out hout
        · exact hone w hlt ⟨q, hrest, hq_out, hq_worker⟩
      · exact fun w hnone => hsame w fun q hq => hnone q (mem_cons_of_mem _ hq)

theorem NoDispatch.time_out (c : Config) (s : Server) (r : RequestId) :
    NoDispatch s (time_out c s r) := by
  obtain ⟨role, idx, error, heq, -⟩ := time_out_eq c s r
  have hfreed : NoDispatch s (s.free_slot role idx) := of_eq (by rw [free_slot_rest])
  rw [heq]
  exact hfreed.trans (leave _ r _ _ _)

theorem OnBoard.timeouts (h : OnBoard s connected) (c : Config) (now : ℚ) :
    OnBoard (handle_timeouts c now s) connected ∧ NoDispatch s (handle_timeouts c now s) := by
  obtain ⟨state, hglm, hplaced⟩ := h
  unfold handle_timeouts
  dsimp only
  obtain ⟨timed_out, htimed⟩ : ∃ l, s.tracker.find_timed_out c.timeout_s now = l := ⟨_, rfl⟩
  rw [htimed]
  have hfold := NoDispatch.foldl (NoDispatch.time_out c) timed_out s
  have hmode := foldl_time_out_keeps Server.glm (glm_time_out c) timed_out s
  have hget := fun r => get?_foldl_time_out c r timed_out s
  obtain ⟨hlength, hslots⟩ := slots_foldl_time_out c timed_out s
  obtain ⟨t, ht⟩ : ∃ t, timed_out.foldl (time_out c) s = t := ⟨_, rfl⟩
  rw [ht] at hfold hmode hget hlength hslots ⊢
  obtain ⟨table, slots', hdrop, htable, hlength', hone, hsame⟩ := drop_denoiser_requests_spec
    timed_out state.denoiser_requests.items
      { state with
        pending_ar_requests := state.pending_ar_requests.filter fun r =>
          decide ((state.requests r).client_request_id ∉ timed_out)
        pending_denoiser_requests := state.pending_denoiser_requests.filter fun r =>
          decide ((state.requests r).client_request_id ∉ timed_out) } (t.free_slots .denoiser)
  have hclear : clear_glm timed_out (t.leave_queues timed_out) =
      { t.leave_queues timed_out with
        glm := some
          { state with
            pending_ar_requests := state.pending_ar_requests.filter fun r =>
              decide ((state.requests r).client_request_id ∉ timed_out)
            pending_denoiser_requests := state.pending_denoiser_requests.filter fun r =>
              decide ((state.requests r).client_request_id ∉ timed_out)
            denoiser_requests := table }
        free_slots := Function.update t.free_slots .denoiser slots' } := by
    have hleft : (t.leave_queues timed_out).glm = some state := hmode.trans hglm
    unfold clear_glm
    rw [hleft]
    have hdrop' := hdrop
    unfold Server.leave_queues
    dsimp only
    rw [hdrop']
  rw [hclear]
  have hvalues : table.values = state.denoiser_requests.values.filter fun ref =>
      decide ((state.requests ref).client_request_id ∉ timed_out) := by
    unfold OrderedDict.values
    rw [htable, filter_map]
    congr 1
    apply filter_congr
    intro p hp
    dsimp only [Function.comp]
    rw [decide_eq_decide, not_iff_not]
    constructor
    · rintro ⟨q, hq, hkey, hout⟩
      have hqp : q.2 = p.2 := value_unique
        (show (p.1, q.2) ∈ state.denoiser_requests.items from hkey ▸ hq) hp
      rw [← hqp]
      exact hout
    · exact fun hout => ⟨p, hp, rfl, hout⟩
  have hmem : ∀ {ref}, ref ∈ state.denoiser_requests.values ↔
      ∃ q ∈ state.denoiser_requests.items, q.2 = ref := by
    intro ref
    exact mem_map
  have hupdate : Function.update t.free_slots .denoiser slots' .denoiser = slots' :=
    update_self _ _ _
  constructor
  · refine ⟨_, rfl, ?_⟩
    refine hplaced.expire ((congrArg List.length hupdate).trans (hlength'.trans hlength))
      timed_out rfl rfl hvalues ?_ ?_ ?_
    · rintro w hlt ⟨ref, href, hout, hworker⟩
      refine (congrArg (fun l : List ℤ => l.getD w 0) hupdate).trans ?_
      obtain ⟨q, hq, hq_ref⟩ := hmem.mp href
      subst hq_ref
      exact hone w (hlength ▸ hlt) ⟨q, hq, hout, hworker⟩
    · intro w _ hnone
      refine (congrArg (fun l : List ℤ => l.getD w 0) hupdate).trans ?_
      refine (hsame w ?_).trans (hslots w ?_)
      · exact fun q hq hout => hnone q.2 (hmem.mpr ⟨q, hq, rfl⟩) hout
      · -- the request of such a record is assigned to the worker
        intro r hr record hrecord hrole hinstance
        obtain ⟨ref, href, hclient, hworker⟩ := hplaced.of_timeout_role hrecord hrole
        exact hnone ref href (hclient ▸ hr) (hworker.trans hinstance)
    · exact hget
  · exact hfold.trans (NoDispatch.of_eq rfl)

/-! ## Runs -/

theorem OnBoard.init (hmode : c.glm_distributed_mode_enabled = true) :
    OnBoard (Server.init c) [] := by
  unfold OnBoard Server.init
  rw [hmode]
  refine ⟨_, rfl, ?_⟩
  have hunavailable : ∀ w, ((c.endpoints .denoiser).map fun _ => false).getD w false = false := by
    intro w
    rw [getD_eq_getElem?_getD, getElem?_map]
    cases (c.endpoints .denoiser)[w]? with
    | none => rfl
    | some _ => rfl
  constructor
  · exact nodup_nil
  · exact fun _ href => absurd href not_mem_nil
  · exact fun _ hr => absurd hr not_mem_nil
  · exact fun _ href => absurd href not_mem_nil
  · exact fun _ href => absurd href not_mem_nil
  · exact fun _ href => absurd href not_mem_nil
  · exact nodup_nil
  · exact fun _ href => absurd href not_mem_nil
  · exact fun _ href => absurd href not_mem_nil
  · exact fun _ href => absurd href not_mem_nil
  · exact fun _ href => absurd href not_mem_nil
  · exact (length_map _).trans (length_map _).symm
  · intro w hw
    exact absurd ((hunavailable w).symm.trans hw) Bool.false_ne_true
  · exact fun _ hw => absurd hw not_mem_nil

/-- **One call** of the GLM mode. -/
theorem OnBoard.step (h : OnBoard s connected) (hb : Balanced s) (ht : DispatchedWaiting s.trace)
    {e : Event} (ho : GlmOrderly now s e) (hstep : handle c now e s = some s') :
    OnBoard s' (connects e connected) ∧ DispatchedWaiting s'.trace := by
  obtain ⟨state, hglm, hplaced⟩ := h
  have h : OnBoard s connected := ⟨state, hglm, hplaced⟩
  cases e with
  | client_request frames =>
    cases hstep
    exact ⟨h.client_request ho, ht.none (NoDispatch.client_request s now frames)⟩
  | transfer role msg => exact ho.elim
  | frames role frames =>
    cases hstep
    cases role with
    | encoder => exact ho.elim
    | denoiser =>
      obtain ⟨hkept, hnone⟩ := h.glm_result ho
      unfold handle_frames
      rw [hglm]
      exact ⟨hkept, ht.none hnone⟩
    | decoder => exact ho.elim
  | timeouts =>
    cases hstep
    obtain ⟨hkept, hnone⟩ := h.timeouts c now
    exact ⟨hkept, ht.none hnone⟩
  | drain =>
    unfold handle at hstep
    rw [hglm] at hstep
    cases hstep
    exact ⟨h, ht⟩
  | connected worker_idx =>
    cases hstep
    obtain ⟨hkept, hnone⟩ := h.connected_event worker_idx
    exact ⟨hkept, ht.none hnone⟩
  | disconnected worker_idx =>
    cases hstep
    obtain ⟨hkept, hnone⟩ := h.disconnected worker_idx
    exact ⟨hkept, ht.none hnone⟩
  | ar_done error group =>
    cases hstep
    exact ⟨h.ar_result ho, ht.none (NoDispatch.ar_result s error group)⟩
  | ar_dispatch =>
    cases hstep
    exact h.ar_dispatch hb ht c now
  | denoiser_dispatch =>
    have hstep' : dispatch_glm_denoiser_requests_if_ready s = some s' := hstep
    unfold dispatch_glm_denoiser_requests_if_ready at hstep'
    rw [hglm] at hstep'
    exact h.drain _ hb ht hstep'

theorem GlmRun.on_board (hmode : c.glm_distributed_mode_enabled = true)
    (h : GlmRun c GlmOrderly s connected) : OnBoard s connected ∧ DispatchedWaiting s.trace := by
  induction h with
  | init =>
    refine ⟨OnBoard.init hmode, ?_⟩
    intro n a ha
    exact absurd ha (Option.some_ne_none a).symm
  | step hs he hstep ih => exact ih.1.step hs.reachable.balanced ih.2 he hstep

/-! ## Places -/

theorem filter_client_self {f : ℕ → RequestId} {l : List ℕ} (hnodup : (l.map f).Nodup) {ref : ℕ}
    (href : ref ∈ l) : l.filter (fun x => decide (f x = f ref)) = [ref] := by
  induction l with
  | nil => exact absurd href not_mem_nil
  | cons a l ih =>
    rw [map_cons, nodup_cons] at hnodup
    obtain ⟨hout, hrest⟩ := hnodup
    rcases mem_cons.mp href with heq | hmem
    · subst heq
      have hnone : l.filter (fun x => decide (f x = f ref)) = [] := by
        apply filter_eq_nil_iff.mpr
        intro x hx hd
        exact hout ((of_decide_eq_true hd) ▸ mem_map_of_mem hx)
      rw [filter_cons, if_pos (decide_eq_true rfl), hnone]
    · have hne : f a ≠ f ref := fun heq => hout (heq ▸ mem_map_of_mem hmem)
      rw [filter_cons, if_neg fun hd => hne (of_decide_eq_true hd)]
      exact ih hrest hmem

theorem filter_client_none {f : ℕ → RequestId} {l : List ℕ} (hnone : ∀ ref ∈ l, f ref ≠ r) :
    l.filter (fun x => decide (f x = r)) = [] := by
  apply filter_eq_nil_iff.mpr
  intro x hx hd
  exact hnone x hx (of_decide_eq_true hd)

theorem Placed.places {state : GlmState} (h : Placed (board s state) connected)
    (hr : r ∈ s.tracker.keys) : ∃ p, places state r = [p] ∧
      ∀ w, p = .worker w → state.denoiser_worker_available.getD w false = true := by
  obtain ⟨ref, href, hclient⟩ := h.covered r hr
  subst hclient
  have hmap := h.once
  unfold Board.refs at hmap
  rw [map_append, map_append, nodup_append, nodup_append] at hmap
  obtain ⟨hqueue, ⟨hbatch, htable, _⟩, _⟩ := hmap
  -- no list but that of the request has another request of the same client
  have hnone : ∀ {l : List ℕ}, (∀ x ∈ l, x ∈ (board s state).refs) → ref ∉ l →
      l.filter (fun x => decide ((board s state).client x = (board s state).client ref)) = [] := by
    intro l hsub hout
    apply filter_client_none
    intro x hx heq
    exact hout (h.unique (hsub x hx) href heq ▸ hx)
  have hqueue_sub : ∀ x ∈ (board s state).denoiser_queue, x ∈ (board s state).refs :=
    fun x hx => mem_table (h.queued x hx).1
  unfold Board.refs at href
  rw [mem_append, mem_append] at href
  unfold DiffusionServer.places
  rcases href with hin | hin | hin
  · have hfirst := filter_client_self hqueue hin
    have hsecond := hnone (fun _ => mem_batch) (h.apart.1 hin).1
    have hthird := hnone hqueue_sub fun hmem => (h.apart.1 hin).2 (h.queued ref hmem).1
    have hfourth := hnone (fun _ => mem_table) (h.apart.1 hin).2
    refine ⟨.ar_queue, ?_, fun w hw => by cases hw⟩
    unfold board at hfirst hsecond hthird hfourth ⊢
    dsimp only at hfirst hsecond hthird hfourth ⊢
    rw [hfirst, hsecond, hthird, hfourth]
    rfl
  · have hout : ref ∉ (board s state).ar_queue := fun hmem => (h.apart.1 hmem).1 hin
    have hfirst := hnone (fun _ => mem_queue) hout
    have hsecond := filter_client_self hbatch hin
    have hthird := hnone hqueue_sub fun hmem => h.apart.2 hin (h.queued ref hmem).1
    have hfourth := hnone (fun _ => mem_table) (h.apart.2 hin)
    refine ⟨.ar_batch, ?_, fun w hw => by cases hw⟩
    unfold board at hfirst hsecond hthird hfourth ⊢
    dsimp only at hfirst hsecond hthird hfourth ⊢
    rw [hfirst, hsecond, hthird, hfourth]
    rfl
  · have hout : ref ∉ (board s state).ar_queue := fun hmem => (h.apart.1 hmem).2 hin
    have hfirst := hnone (fun _ => mem_queue) hout
    have hsecond := hnone (fun _ => mem_batch) fun hmem => h.apart.2 hmem hin
    have hfourth := filter_client_self htable hin
    cases hworker : (board s state).worker ref with
    | none =>
      have hstands := (h.stands ref hin hworker).1
      have hsub : ((board s state).denoiser_queue.map (board s state).client).Nodup := by
        apply List.Nodup.map_on _ h.queued_once
        intro x hx y hy heq
        exact h.unique (hqueue_sub x hx) (hqueue_sub y hy) heq
      have hthird := filter_client_self hsub hstands
      refine ⟨.denoiser_queue, ?_, fun w hw => by cases hw⟩
      unfold board at hfirst hsecond hthird hfourth hworker ⊢
      dsimp only at hfirst hsecond hthird hfourth hworker ⊢
      rw [hfirst, hsecond, hthird, hfourth, filterMap_cons, hworker]
      rfl
    | some w =>
      have hthird := hnone hqueue_sub fun hmem => by
        rw [(h.queued ref hmem).2] at hworker
        cases hworker
      refine ⟨.worker w, ?_, ?_⟩
      · unfold board at hfirst hsecond hthird hfourth hworker ⊢
        dsimp only at hfirst hsecond hthird hfourth hworker ⊢
        rw [hfirst, hsecond, hthird, hfourth, filterMap_cons, hworker]
        rfl
      · intro w' hw'
        cases hw'
        exact (h.works ref hin w hworker).1

/-- **Each request is in one place.** In every state of an orderly run of the GLM mode a request
that a client waits for is in one place, and a worker that it is assigned to is available; the
counter of a worker that has connected is one exactly when the worker is available and no request is
assigned to it; and no request was dispatched after it was answered. -/
theorem glm_request_in_one_place (hmode : c.glm_distributed_mode_enabled = true)
    (h : GlmRun c GlmOrderly s connected) : ∃ state, s.glm = some state ∧
      (∀ r, s.pending.get? r ≠ none → ∃ p, places state r = [p] ∧
        ∀ w, p = .worker w → state.denoiser_worker_available.getD w false = true) ∧
      (∀ w ∈ connected, w < (s.free_slots .denoiser).length →
        ((s.free_slots .denoiser).getD w 0 = 1 ↔
          state.denoiser_worker_available.getD w false = true ∧ state.assigned w = [])) ∧
      DispatchedWaiting s.trace := by
  obtain ⟨⟨state, hglm, hplaced⟩, hdispatched⟩ := h.on_board hmode
  refine ⟨state, hglm, ?_, ?_, hdispatched⟩
  · intro r hr
    apply hplaced.places
    apply (h.reachable.balanced.tracked r).mp
    by_contra hout
    exact hr (get?_eq_none_iff.mpr hout)
  · intro w hw hlt
    obtain ⟨hfree, hbusy⟩ := hplaced.counters w hw hlt
    have hiff : (board s state).Free w ↔
        state.denoiser_worker_available.getD w false = true ∧ state.assigned w = [] := by
      refine and_congr_right fun _ => ?_
      rw [eq_nil_iff_forall_not_mem]
      constructor
      · exact fun hall ref hmem => hall ref (mem_assigned.mp hmem).1 (mem_assigned.mp hmem).2
      · exact fun hnone ref href hworker => hnone ref (mem_assigned.mpr ⟨href, hworker⟩)
    rw [← hiff]
    constructor
    · intro hone
      by_contra hnot
      have hzero : (s.free_slots .denoiser).getD w 0 = 0 := hbusy hnot
      rw [hone] at hzero
      cases hzero
    · exact hfree

/-- `small_config` in the GLM mode. -/
def glm_config : Config := { small_config with glm_distributed_mode_enabled := true }

/-- Whether a call meets `GlmOrderly`. -/
def orderly (now : ℚ) (s : Server) (e : Event) : Bool :=
  s.glm.all fun state =>
    match e with
    | .client_request (.request _ _ req) => decide (req.id now ∈ s.tracker.keys) ||
      (state.active_ar_batch.getD []).all fun r =>
        decide ((state.requests r).client_request_id ≠ req.id now)
    | .frames .denoiser frames => (frames.request_id.bind state.denoiser_requests.get?).all fun r =>
      (state.requests r).worker_idx.isSome
    | .ar_done _ group => state.denoiser_requests.keys.all fun key =>
      match key with
      | .glm_distributed group' _ => decide (group' ≠ group)
      | _ => true
    | .transfer _ _ => false
    | .frames _ _ => false
    | _ => true

theorem glm_orderly_of_orderly {now : ℚ} {state : GlmState} {e : Event} (hglm : s.glm = some state)
    (h : orderly now s e = true) : GlmOrderly now s e := by
  unfold orderly at h
  rw [hglm, Option.all_some] at h
  have hself : ∀ state', s.glm = some state' → state' = state :=
    fun _ hstate' => Option.some.inj (hstate'.symm.trans hglm)
  cases e with
  | client_request frames =>
    cases frames with
    | request client_identity payload req =>
      intro state' hstate'
      rw [hself state' hstate']
      simpa using h
    | _ => trivial
  | frames role frames =>
    cases role with
    | denoiser =>
      intro state' request_id r hstate' hid hget
      rw [hself state' hstate'] at hget ⊢
      dsimp only at h
      rw [hid, Option.bind_some, hget] at h
      exact Option.isSome_iff_ne_none.mp h
    | _ => cases h
  | ar_done error group =>
    intro state' hstate' index hmem
    rw [hself state' hstate'] at hmem
    have hall := List.all_eq_true.mp h _ hmem
    exact of_decide_eq_true hall rfl
  | transfer role msg => cases h
  | _ => trivial

/-- Orderly calls, with the workers that have connected. -/
def serve_orderly (c : Config) : List (ℚ × Event) → Server → List ℕ → Option (Server × List ℕ)
  | [], s, connected => some (s, connected)
  | (now, e) :: calls, s, connected =>
    if orderly now s e then
      (handle c now e s).bind fun s' => serve_orderly c calls s' (connects e connected)
    else none

theorem GlmRun.serve_orderly (hmode : c.glm_distributed_mode_enabled = true)
    (calls : List (ℚ × Event)) : ∀ {s s' : Server} {connected connected' : List ℕ},
      GlmRun c GlmOrderly s connected → serve_orderly c calls s connected = some (s', connected') →
          GlmRun c GlmOrderly s' connected' := by
  induction calls with
  | nil =>
    intro s s' connected connected' h hserve
    cases hserve
    exact h
  | cons call calls ih =>
    intro s s' connected connected' h hserve
    unfold DiffusionServer.serve_orderly at hserve
    split at hserve
    · next horderly =>
      obtain ⟨t, hstep, hrest⟩ := Option.bind_eq_some_iff.mp hserve
      obtain ⟨state, hglm, -⟩ := (h.on_board hmode).1
      exact ih (h.step (glm_orderly_of_orderly hglm horderly) hstep) hrest
    · cases hserve

/-- Two requests go through the external server one after the other; the first one runs on the
worker while the second one waits, and after its result the second one runs. -/
def two_request_calls : List (ℚ × Event) :=
  [(0, text_request "client a" "a"), (0, text_request "client b" "b"), (0, .ar_dispatch),
    (1, .ar_done none 7), (1, .ar_dispatch), (2, .connected 0), (2, .denoiser_dispatch),
    (3, .ar_done none 8), (3, .denoiser_dispatch),
    (4, .frames .denoiser ⟨some (.glm_distributed 7 0), none, none, none⟩), (4, .denoiser_dispatch)]

theorem two_requests_in_one_place :
    ∃ s state, serve_orderly glm_config two_request_calls (Server.init glm_config) []
        = some (s, [0]) ∧ s.glm = some state ∧ replied (.client "a") s.trace = ["client a"] ∧
      (∃ p, places state (.client "b") = [p] ∧
        ∀ w, p = .worker w → state.denoiser_worker_available.getD w false = true) ∧
      DispatchedWaiting s.trace := by
  have hrun : ((serve_orderly glm_config two_request_calls (Server.init glm_config) []).map fun p =>
      (p.2, replied (.client "a") p.1.trace, p.1.pending.get? (.client "b")))
        = some ([0], ["client a"], some "client b") := by decide +kernel
  rw [Option.map_eq_some_iff] at hrun
  obtain ⟨⟨s, connected⟩, hserve, hs⟩ := hrun
  rw [Prod.mk.injEq, Prod.mk.injEq] at hs
  obtain ⟨rfl, hreplied, hwaits⟩ := hs
  obtain ⟨state, hglm, hplaces, -, hdispatched⟩ :=
    glm_request_in_one_place rfl (GlmRun.serve_orderly rfl _ GlmRun.init hserve)
  refine ⟨s, state, hserve, hglm, hreplied, hplaces (.client "b") ?_, hdispatched⟩
  rw [hwaits]
  exact Option.some_ne_none _

/-- The calls of the GLM mode, without a condition. -/
def GlmCall (_ : ℚ) (_ : Server) : Event → Prop
  | .transfer _ _ => False
  | .frames .encoder _ => False
  | .frames .decoder _ => False
  | _ => True

/-- The result of a request arrives after its worker disconnected. -/
def late_result_calls : List (ℚ × Event) :=
  [(0, text_request "client" "a"), (0, .ar_dispatch), (1, .ar_done none 7), (1, .connected 0),
    (1, .denoiser_dispatch), (2, .disconnected 0),
    (3, .frames .denoiser ⟨some (.glm_distributed 7 0), none, none, none⟩), (4, .connected 0),
    (4, .denoiser_dispatch)]

/-- An id is used again while the request that timed out is still in the batch. -/
def reused_id_calls : List (ℚ × Event) :=
  [(0, text_request "client" "a"), (0, .ar_dispatch), (1000, .timeouts),
    (1000, text_request "client" "a"), (1001, .ar_done none 7)]

theorem late_result_calls_glm {call : ℚ × Event} (hmem : call ∈ late_result_calls)
    (s : Server) : GlmCall call.1 s call.2 := by
  rw [late_result_calls] at hmem
  simp only [mem_cons, not_mem_nil, or_false] at hmem
  rcases hmem with rfl | rfl | rfl | rfl | rfl | rfl | rfl | rfl | rfl <;> exact trivial

theorem reused_id_calls_glm {call : ℚ × Event} (hmem : call ∈ reused_id_calls)
    (s : Server) : GlmCall call.1 s call.2 := by
  rw [reused_id_calls] at hmem
  simp only [mem_cons, not_mem_nil, or_false] at hmem
  rcases hmem with rfl | rfl | rfl | rfl | rfl <;> exact trivial

/-- Without the conditions each part fails: a worker that never connected has a free slot, a request
is dispatched after it was answered, and a request is in two places. -/
theorem glm_places_fail : (¬ ∀ s, RunOf glm_config GlmCall s → ∀ state, s.glm = some state →
      ∀ w, w < (s.free_slots .denoiser).length → ((s.free_slots .denoiser).getD w 0 = 1 ↔
        state.denoiser_worker_available.getD w false = true ∧ state.assigned w = [])) ∧
    (¬ ∀ s, RunOf glm_config GlmCall s → DispatchedWaiting s.trace) ∧
    (¬ ∀ s, RunOf glm_config GlmCall s → ∀ state, s.glm = some state →
      ∀ r, s.pending.get? r ≠ none → ∃ p, places state r = [p]) := by
  refine ⟨?_, ?_, ?_⟩
  · intro h
    have hfree := (h _ RunOf.init _ rfl 0 (by decide)).mp (by decide)
    exact absurd hfree.1 (by decide)
  · intro h
    have hrun : ((serve_all glm_config late_result_calls (Server.init glm_config)).map fun s =>
        ((s.trace)[5]?, (replied (.client "a") (s.trace.take 5)).length,
          (accepted (.client "a") (s.trace.take 5)).length))
            = some (some (.dispatch .denoiser (.client "a") 0), 1, 1) := by decide +kernel
    rw [Option.map_eq_some_iff] at hrun
    obtain ⟨s, hserve, hs⟩ := hrun
    rw [Prod.mk.injEq, Prod.mk.injEq] at hs
    obtain ⟨hdispatch, hreplied, haccepted⟩ := hs
    have hreach : RunOf glm_config GlmCall s :=
      RunOf.serve_all _ (fun _ hmem => late_result_calls_glm hmem) RunOf.init hserve
    have hlate := h s hreach 5 _ hdispatch (.client "a") (mem_singleton_self _)
    rw [hreplied, haccepted] at hlate
    exact lt_irrefl 1 hlate
  · intro h
    have hrun : ((serve_all glm_config reused_id_calls (Server.init glm_config)).map fun s =>
        (s.pending.get? (.client "a"), s.glm.map fun state => places state (.client "a")))
            = some (some "client", some [.ar_queue, .denoiser_queue]) := by decide +kernel
    rw [Option.map_eq_some_iff] at hrun
    obtain ⟨s, hserve, hs⟩ := hrun
    rw [Prod.mk.injEq] at hs
    obtain ⟨hpending, hplaces⟩ := hs
    rw [Option.map_eq_some_iff] at hplaces
    obtain ⟨state, hglm, hplaces⟩ := hplaces
    have hreach : RunOf glm_config GlmCall s :=
      RunOf.serve_all _ (fun _ hmem => reused_id_calls_glm hmem) RunOf.init hserve
    have hwaiting : s.pending.get? (.client "a") ≠ none := by
      rw [hpending]
      exact Option.some_ne_none _
    obtain ⟨p, hp⟩ := h s hreach state hglm (.client "a") hwaiting
    rw [hplaces] at hp
    cases hp

end LightningH3.DiffusionServer
