/-
Requests of the diffusion scheduler and the admission of requests to a dynamic batch
(`multimodal_gen/runtime/managers/dynamic_batch_admission.py`, and the compatibility checks of
`managers/scheduler.py`).

A request has the fields that the checks read; the values of its sampling parameters come frozen, as
`_freeze_signature_value` makes them. A pipeline configuration is given by what it answers. Costs
are rational numbers. The signature that a request caches is the one it would compute again, and
reasons only go to the metrics, so neither is kept.
-/
import Mathlib.Algebra.Order.Ring.Rat
import Mathlib.Data.List.Infix

set_option autoImplicit false

namespace LightningH3.Scheduler

/-- A field of `SamplingParams`. -/
structure SamplingField where
  name : String
  value : String
  batch_sig_exclude : Bool
  deriving DecidableEq, Repr

/-- `Req` -/
structure Req where
  request_id : String
  is_warmup : Bool
  num_outputs_per_prompt : Option ℤ
  num_inference_steps : ℤ
  width : Option ℤ
  height : Option ℤ
  realtime_session_id : String
  has_session : Bool
  prompt_is_str : Bool
  image_path : Option String
  return_file_paths_only : Bool
  sampling_params : Option (List SamplingField)
  diffusers_kwargs : Option String
  profile : Bool
  profile_all_stages : Bool
  num_profiled_timesteps : ℤ
  server_internal_prewarm : Bool
  return_warmup_result : Bool
  deriving DecidableEq, Repr

/-- What a pipeline configuration answers. -/
structure PipelineConfig where
  supports_dynamic_batching : Bool
  supports_dynamic_batching_for_request : Req → Bool
  supports_native_grouped_requests : Bool
  supports_sequential_dit_inference : Bool
  supports_sequential_multi_output_inference : Bool
  estimate_request_cost : Req → ℚ

structure AdmissionLimit where
  max_batch_size : ℤ
  max_cost : Option ℚ

structure BatchingRule where
  model : Option String
  model_contains : Option String
  resolution : Option String
  device_memory_gb_min : Option ℚ
  device_memory_gb_max : Option ℚ
  offload : Option Bool
  max_batch_size : ℤ
  max_cost : Option ℚ

/-- The arguments of a server, with the memory that a rank reads off its own device. -/
structure ServerArgs where
  batching_mode_dynamic : Bool
  batching_max_size : ℤ
  batching_delay_s : ℚ
  model_path : String
  offload : Bool
  device_memory_gb : Option ℚ
  rules : List BatchingRule
  pipeline_config : PipelineConfig
  warmup_mode_request : Bool
  has_warmup_resolutions : Bool
  warmup_steps : ℤ

/-- The same arguments on a rank with this memory, or with none when it cannot be read. -/
def ServerArgs.on (c : ServerArgs) (device_memory_gb : Option ℚ) : ServerArgs :=
  { c with device_memory_gb := device_memory_gb }

/-- `max(1, int(req.num_outputs_per_prompt or 1))` -/
def Req.output_count (r : Req) : ℤ :=
  match r.num_outputs_per_prompt with
  | none => 1
  | some n => if n = 0 then 1 else max 1 n

def Req.resolution_key (r : Req) : Option String :=
  match r.width, r.height with
  | some width, some height => some (toString width ++ "x" ++ toString height)
  | _, _ => none

/-! ## Admission -/

namespace BatchingRule

/-- A device whose memory is not known passes both bounds. -/
def fits_memory (rule : BatchingRule) (device_memory_gb : Option ℚ) : Bool :=
  device_memory_gb.all fun m =>
    (rule.device_memory_gb_min.all fun bound => !decide (m < bound)) &&
      (rule.device_memory_gb_max.all fun bound => !decide (bound < m))

/-- `matches` -/
def matches_request (rule : BatchingRule) (c : ServerArgs) (resolution : Option String) : Bool :=
  (rule.model.all fun m => m == c.model_path) &&
  (rule.model_contains.all fun m => decide (m.toList <:+: c.model_path.toList)) &&
  (rule.resolution.all fun r => r == "*" || resolution == some r) &&
  (rule.offload.all fun o => o == c.offload) && rule.fits_memory c.device_memory_gb

end BatchingRule

section admission

variable (c : ServerArgs)

def user_max_batch_size : ℤ := max 1 c.batching_max_size

/-- `enabled` -/
def admission_enabled : Bool := c.batching_mode_dynamic && decide (1 < user_max_batch_size c)

def matching_rules (r : Req) : List BatchingRule :=
  c.rules.filter fun rule => rule.matches_request c r.resolution_key

def limit_for (r : Req) : AdmissionLimit :=
  match matching_rules c r with
  | [] => ⟨user_max_batch_size c, none⟩
  | rule :: rules =>
    let config_cap := (rules.map BatchingRule.max_batch_size).foldl min rule.max_batch_size
    let max_batch_size := min (user_max_batch_size c) config_cap
    ⟨max 1 max_batch_size, ((rule :: rules).filterMap BatchingRule.max_cost).min?⟩

def estimate_batch_cost (reqs : List Req) : ℚ :=
  (reqs.map c.pipeline_config.estimate_request_cost).sum

def effective_batch_size (reqs : List Req) : ℤ := (reqs.map Req.output_count).sum

/-- Whether `reject_reason` has a reason. -/
def AdmissionLimit.rejects (limit : AdmissionLimit) (batch_size : ℤ) (batch_cost : ℚ) : Bool :=
  decide (limit.max_batch_size < batch_size) ||
    limit.max_cost.any fun max_cost => decide (max_cost < batch_cost)

/-- Whether `reject_reason_for_candidate` has a reason. -/
def rejects_candidate (current_reqs : List Req) (candidate_req : Req) : Bool :=
  if !admission_enabled c then false
  else
    let proposed := current_reqs ++ [candidate_req]
    (limit_for c (proposed.headD candidate_req)).rejects (effective_batch_size proposed)
      (estimate_batch_cost c proposed)

def batch_is_full (reqs : List Req) : Bool :=
  match reqs with
  | [] => decide (user_max_batch_size c ≤ (reqs.length : ℤ))
  | req :: _ =>
    if !admission_enabled c then decide (user_max_batch_size c ≤ (reqs.length : ℤ))
    else
      let limit := limit_for c req
      decide (limit.max_batch_size ≤ effective_batch_size reqs) ||
        limit.max_cost.any fun max_cost =>
          decide (max_cost < estimate_batch_cost c (reqs ++ [req]))

end admission

/-! ## Compatibility -/

section compatibility

variable (c : ServerArgs)

def sampling_param_signature_items (r : Req) : Option (List (String × String)) :=
  r.sampling_params.map fun fields =>
    (fields.filter fun f => !f.batch_sig_exclude &&
      !(c.pipeline_config.supports_sequential_dit_inference &&
        f.name == "num_outputs_per_prompt")).map fun f => (f.name, f.value)

/-- `_build_dynamic_batch_signature`: the items, the profiling settings and the keyword
arguments. -/
def build_dynamic_batch_signature (r : Req) :
    Option (List (String × String) × Option (Bool × ℤ) × Option String) :=
  (sampling_param_signature_items c r).map fun items =>
    (items, if r.profile then some (r.profile_all_stages, r.num_profiled_timesteps) else none,
      r.diffusers_kwargs)

def has_realtime_session (r : Req) : Bool := r.realtime_session_id != "" || r.has_session

def requires_sequential_multi_output (reqs : List Req) : Bool :=
  c.pipeline_config.supports_sequential_multi_output_inference &&
    !c.pipeline_config.supports_sequential_dit_inference &&
    reqs.any fun r => decide (1 < r.output_count)

def can_dynamic_batch (base_req candidate_req : Req) : Bool :=
  if base_req.is_warmup || candidate_req.is_warmup then false
  else if requires_sequential_multi_output c [base_req, candidate_req] then false
  else if !([base_req, candidate_req].all
      c.pipeline_config.supports_dynamic_batching_for_request) then
    false
  else if has_realtime_session base_req || has_realtime_session candidate_req then false
  else if !base_req.prompt_is_str || !candidate_req.prompt_is_str then false
  else if base_req.image_path.isSome || candidate_req.image_path.isSome then false
  else if base_req.return_file_paths_only != candidate_req.return_file_paths_only then false
  else
    let base_sig := build_dynamic_batch_signature c base_req
    let cand_sig := build_dynamic_batch_signature c candidate_req
    base_sig.isSome && decide (base_sig = cand_sig)

def dynamic_batching_enabled : Bool :=
  admission_enabled c && c.pipeline_config.supports_dynamic_batching

end compatibility

end LightningH3.Scheduler
