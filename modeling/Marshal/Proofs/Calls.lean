import Marshal.Proofs.Agreement

/-!
# Calls

A planner is asked for the converter of a type, or for those of a signature. Both
are a job of the judgement, and `Tells` is how an answer is put together from the
contents that the job gives.
-/

namespace Marshal

open Converter Planner PlanM World

/-- What a planner is asked for. -/
inductive Call where
  | type (ty : TyId)
  | signature (s : Signature)
  deriving DecidableEq

inductive Answer where
  | converter (c : Converter)
  | signature (p : SignaturePlan)
  deriving DecidableEq

namespace Call

/-- The types that a call speaks of. -/
def types : Call → List TyId
  | .type ty => [ty]
  | .signature s => s.params.map Parameter.ty ++ [s.ret]

/-- Makes the call, to a bounded depth. -/
def run (catalog : Catalog) (options : Options) (depth : Nat) : Call → PlanM Answer
  | .type ty => do pure (.converter (← planWithin catalog options depth ty))
  | .signature s => do pure (.signature (← planSignatureWithin catalog options depth s))

/-- What the judgement makes of a call. -/
def job : Call → Except Fault Job
  | .type ty => .ok (.visit ty)
  | .signature s => do
    let convention ← Convention.ofSignature s
    pure (.parts (Part.ofSignature convention s))

end Call

/-- All converters in an answer. -/
def Answer.converters : Answer → List Converter
  | .converter c => [c]
  | .signature p => p.args ++ [p.ret, p.shim]

/-- The recursive types that an answer defers to. -/
def Answer.targets (a : Answer) : List TyId := a.converters.flatMap Converter.targets

/-- Both answers are the same but for the stamps of instances. -/
def Answer.Same : Answer → Answer → Prop
  | .converter c, .converter d => c.content = d.content
  | .signature p, .signature q => p.convention = q.convention ∧
    p.args.map content = q.args.map content ∧ p.ret.content = q.ret.content ∧
      p.shim.content = q.shim.content
  | _, _ => False

/-- The answer to a call whose job gives these contents. -/
def Tells (call : Call) (cs : List Assembly.Content) (a : Answer) : Prop :=
  match call with
  | .type _ => ∃ c : Converter, a = .converter c ∧ cs = [c.content]
  | .signature s => ∃ convention p, Convention.ofSignature s = .ok convention ∧
    a = .signature p ∧ p.convention = convention ∧ (p.args ++ [p.ret]).map content =
      List.zipWith Part.wrap (Part.ofSignature convention s) cs ∧
      p.shim.content = Assembly.shim s convention p.args p.ret

section Telling

variable {call : Call} {cs : List Assembly.Content} {a b : Answer} {u : TyId}

theorem shim_congr (s : Signature) (convention : Convention) {cs ds : List Converter}
    {c d : Converter} (hcs : cs.map content = ds.map content) (hc : c.content = d.content) :
    Assembly.shim s convention cs c = Assembly.shim s convention ds d := by
  have same : cs.map strip = ds.map strip := by
    have := congrArg (List.map bare) hcs
    rwa [List.map_map, List.map_map] at this
  rw [← Assembly.shim_strip cs, ← Assembly.shim_strip ds, same, strip_eq_strip hc]

theorem Tells.same (ha : Tells call cs a) (hb : Tells call cs b) : a.Same b := by
  cases call with
  | type ty =>
      obtain ⟨c, rfl, rfl⟩ := ha
      obtain ⟨d, rfl, hd⟩ := hb
      exact List.singleton_injective hd
  | signature s =>
      obtain ⟨convention, p, hconv, rfl, rfl, hp, hshim⟩ := ha
      obtain ⟨_, q, hconv', rfl, rfl, hq, hshim'⟩ := hb
      have same : p.convention = q.convention := Except.ok.inj (hconv.symm.trans hconv')
      rw [← same] at hq hshim'
      have all := hp.trans hq.symm
      rw [List.map_append, List.map_append] at all
      obtain ⟨args, ret⟩ := List.append_inj' all rfl
      have ret : p.ret.content = q.ret.content := List.singleton_injective ret
      exact ⟨same, args, ret, by rw [hshim, hshim', shim_congr s p.convention args ret]⟩

/-- An answer has what the contents have that it is made of. -/
theorem Tells.has {P : Step → Prop} {cells : Prop} (hP : Step.Marks P cells)
    (ha : Tells call cs a) (hlen : ∀ job, call.job = .ok job → cs.length = job.types.length) :
    (∃ c ∈ a.converters, c.Has P) ↔ ∃ c ∈ cs, (bare c).Has P := by
  have bare_has (c : Converter) : (bare c.content).Has P ↔ c.Has P := has_strip
  cases call with
  | type ty =>
      obtain ⟨c, rfl, rfl⟩ := ha
      simp [Answer.converters, bare_has]
  | signature s =>
      obtain ⟨convention, p, hconv, rfl, rfl, hp, hshim⟩ := ha
      have hlen : cs.length = (Part.ofSignature p.convention s).length := by
        simpa [Job.types] using hlen (.parts (Part.ofSignature p.convention s))
          (by simp [Call.job, hconv])
      rw [← mem_wrapped hlen (P := fun c => (bare c).Has P) (fun _ _ => Part.wrap_has hP), ← hp]
      have shim : p.shim.Has P ↔ (∃ c ∈ p.args, c.Has P) ∨ p.ret.Has P := by
        rw [← bare_has, hshim, Assembly.shim_has hP]
      simp only [Answer.converters, List.mem_append, List.mem_cons, List.not_mem_nil, or_false,
        List.map_append, List.mem_map, List.map_cons, List.map_nil, or_and_right, exists_or,
        exists_eq_left, shim, bare_has, exists_exists_and_eq_and]
      rw [← or_assoc, or_self]

/-- An answer defers to what the contents defer to that it is made of. -/
theorem Tells.mem_targets (ha : Tells call cs a) (hlen : ∀ job, call.job = .ok job →
    cs.length = job.types.length) : u ∈ a.targets ↔ ∃ c ∈ cs, u ∈ (bare c).targets := by
  simp only [Answer.targets, List.mem_flatMap, Converter.mem_targets]
  exact ha.has (Step.marks_target u) hlen

end Telling

/-! ## Making a call -/

section Making

variable {w : World} {rivals : Stock → Stock → Prop} {I : Cache → Prop} {e : Env} {call : Call}
  {d : Nat} {s s' : PlanState} {m m' : Memory}

theorem job_ok {job : Job} (h : call.job = .ok job) : (∃ ty, call = .type ty ∧ job = .visit ty) ∨
    ∃ sig convention, call = .signature sig ∧ Convention.ofSignature sig = .ok convention ∧
      job = .parts (Part.ofSignature convention sig) := by
  cases call with
  | type ty => cases h; exact .inl ⟨ty, rfl, rfl⟩
  | signature sig =>
      cases hs : Convention.ofSignature sig with
      | error f => simp [Call.job, hs] at h
      | ok convention =>
          simp only [Call.job, hs] at h
          cases h
          exact .inr ⟨sig, convention, rfl, hs, rfl⟩

/-- Only a signature has no job, when it has no convention. -/
theorem job_error {f : Fault} (h : call.job = .error f) :
    ∃ sig, call = .signature sig ∧ Convention.ofSignature sig = .error f := by
  cases call with
  | type ty => cases h
  | signature sig =>
      cases hs : Convention.ofSignature sig with
      | ok convention => simp [Call.job, hs] at h
      | error g =>
          obtain rfl : g = f := by simpa [Call.job, hs] using h
          exact ⟨sig, rfl, hs⟩

theorem types_of_job {job : Job} (h : call.job = .ok job) : job.types = call.types := by
  rcases job_ok h with ⟨ty, rfl, rfl⟩ | ⟨sig, convention, rfl, -, rfl⟩
  · rfl
  · simp [Job.types, Call.types, Part.ofSignature, World.ofParams_ty]

theorem asked_of_job {job : Job} (h : call.job = .ok job) : Calm.Asked job := by
  rcases job_ok h with ⟨ty, -, rfl⟩ | ⟨sig, convention, -, -, rfl⟩ <;> trivial

theorem run_type {catalog : Catalog} {options : Options} {ty : TyId} {c : Converter}
    (h : planWithin catalog options d ty s = (.ok c, s')) :
    (Call.type ty).run catalog options d s = (.ok (.converter c), s') := by
  rw [Call.run, bind_ok h]
  rfl

theorem run_signature {catalog : Catalog} {options : Options} {sig : Signature}
    {plan : SignaturePlan} (h : planSignatureWithin catalog options d sig s = (.ok plan, s')) :
    (Call.signature sig).run catalog options d s = (.ok (.signature plan), s') := by
  rw [Call.run, bind_ok h]
  rfl

/-- The run of a signature's parts is the run of the call. -/
theorem signature_run {sig : Signature} {convention : Convention}
    (hs : Convention.ofSignature sig = .ok convention) :
    (Call.signature sig).run w.catalog w.options d = (do
      let cs ← (Part.ofSignature convention sig).mapM
        (Part.run w.catalog w.options d (planWithin w.catalog w.options d))
      let shim ← make (Assembly.shim sig convention cs.dropLast (cs.getLastD .identity))
      pure (.signature ⟨convention, cs.dropLast, cs.getLastD .identity, shim⟩)) := by
  rw [Call.run, planSignatureWithin, forSignature_eq, hs]
  simp [PlanM.ofExcept]

/-- What the result of a call is when its job came to `out`. -/
def Told (call : Call) (out : Verdict) (r : Except Halt Answer) : Prop :=
  match out with
  | .ok (cs, _) => ∃ a, r = .ok a ∧ Tells call cs a
  | .error f => r = .error f.halt

theorem Told.of_gives {out : Verdict} {r : Except Failure Answer} {U : Set TyId}
    (h : out.Gives (Tells call) r U) :
    Told call out (r.mapError Failure.halt) ∧ Failure.wayOf r = Failure.wayOf out := by
  cases out with
  | error f => cases h; exact ⟨rfl, rfl⟩
  | ok result => obtain ⟨a, rfl, ha, -⟩ := h; exact ⟨⟨a, rfl, ha⟩, rfl⟩

/-- A signature without a convention is refused at once. -/
theorem run_refused_call {f : Fault} (hj : call.job = .error f) :
    call.run w.catalog w.options d s = (.error (.fault f), s) := by
  obtain ⟨sig, rfl, hs⟩ := job_error hj
  rw [Call.run, planSignatureWithin, forSignature_eq, hs]
  rfl

theorem dropLast_append {cs : List Converter} (h : cs ≠ []) :
    cs.dropLast ++ [cs.getLastD .identity] = cs := by
  rw [List.getLastD_eq_getLast?, List.getLast?_eq_some_getLast h]
  exact List.dropLast_append_getLast h

/-- A call is a derivation of its job. If it fails, the way to the fault is noted. -/
theorem call_ran (hw : w.arena.Sound) (hI : Heeds rivals I) {job : Job} (hj : call.job = .ok job)
    {r : Except Halt Answer} (hs : Begins w I e call.types s)
    (h : call.run w.catalog w.options d s = (r, s')) :
    Begins w I e call.types s' ∧ s.shared.arena.Within s'.shared.arena ∧
      s'.planner.path = s.planner.path ∧
      (s'.shared.arena.Within w.arena → r ≠ .error .outOfFuel →
        ∃ out, w.Plans rivals e job s.memory out s'.memory ∧ Told call out r ∧
          s'.planner.faultPath = s.planner.noting (Failure.wayOf out)) := by
  have types := types_of_job hj
  rcases job_ok hj with ⟨ty, rfl, rfl⟩ | ⟨sig, convention, rfl, hconv, rfl⟩
  · rcases bind_cases h with ⟨f, hrun, rfl⟩ | ⟨c, s₁, hrun, h⟩
    · obtain ⟨way, ran⟩ := planWithin_ran hw hI d hs hrun
      obtain ⟨used, -, -, hplans⟩ := ran.logged
      refine ⟨ran.begins hs, ran.within, ran.path, fun hb hr => ?_⟩
      cases f with
      | outOfFuel => exact absurd rfl hr
      | fault g => exact ⟨_, hplans hb g rfl, rfl, ran.noted⟩
    · cases h
      have ran : Course w I e _ s [] _ s' := planWithin_ran hw hI d hs hrun
      obtain ⟨used, -, -, hplans⟩ := ran.logged
      exact ⟨ran.begins hs, ran.within, ran.path, fun hb _ =>
        ⟨_, hplans hb, ⟨_, rfl, c, rfl, rfl⟩, ran.noted⟩⟩
  · rw [signature_run hconv] at h
    rw [← types] at hs ⊢
    rcases bind_cases h with ⟨f, hrun, rfl⟩ | ⟨cs, s₁, hrun, h⟩
    · obtain ⟨_ | contents, hres, ran⟩ := parts_ran hw (planWithin_ran hw hI d) hs hrun
      · cases hres
        obtain ⟨way, ran⟩ := ran
        obtain ⟨used, -, -, hplans⟩ := ran.logged
        refine ⟨ran.begins hs, ran.within, ran.path, fun hb hr => ?_⟩
        cases f with
        | outOfFuel => exact absurd rfl hr
        | fault g => exact ⟨_, hplans hb g rfl, rfl, ran.noted⟩
      · cases hres
    · obtain ⟨_ | contents, hres, ran⟩ := parts_ran hw (planWithin_ran hw hI d) hs hrun
      · cases hres
      · have ran : Course w I e _ s [] _ s₁ := ran
        obtain ⟨used, -, -, hplans⟩ := ran.logged
        obtain ⟨shim, s₂, hmake, hshim, hmoves⟩ := make_run (Assembly.shim sig convention
          cs.dropLast (cs.getLastD .identity)) s₁ e
        rw [bind_ok hmake] at h
        cases h
        refine ⟨(ran.begins hs).moves hmoves, hmoves.arena ▸ ran.within,
          hmoves.path.trans ran.path, fun hb _ => ?_⟩
        have plans := hplans (hmoves.arena ▸ hb)
        have hcs : cs.map content =
          List.zipWith Part.wrap (Part.ofSignature convention sig) contents :=
            Except.ok.inj hres
        have same : cs.dropLast ++ [cs.getLastD .identity] = cs :=
            dropLast_append fun hnil => by
          have := congrArg List.length hcs
          rw [hnil, List.length_zipWith, plans.length rfl] at this
          simp [Job.types, Part.ofSignature] at this
        rw [← hmoves.memory] at plans
        refine ⟨_, plans, ⟨_, rfl, convention, _, hconv, rfl, rfl, ?_, hshim⟩,
          hmoves.faultPath.trans ran.noted⟩
        rw [same, hcs]

/-- What the judgement derives without a cache, a call comes to, also if the planner has a cache
to itself. -/
theorem call_executes (hw : w.Ready) {job : Job} (hj : call.job = .ok job) {out : Verdict}
    (h : w.Plans Eq e job m out m') (hc : e.caching = false) (he : w.HonestEnv e)
    (hm : w.Honest m) (hx : ∀ x ∈ call.types, w.arena.Has x) (k : Bool) :
    ∃ n, ∀ d ≥ n, Goes w (e.using k) m m' (call.run w.catalog w.options d)
      (out.Gives (Tells call)) := by
  rw [← types_of_job hj] at hx
  refine deeper (h.executes hw k hc he hm hx) fun d hgoes => ?_
  rcases job_ok hj with ⟨ty, rfl, rfl⟩ | ⟨sig, convention, rfl, hconv, rfl⟩
  · cases out with
    | error f => exact .bind_error hgoes fun _ => rfl
    | ok result =>
        obtain ⟨cs, U⟩ := result
        exact .bind_gives hgoes fun c V hcs =>
          .pure _ ⟨_, rfl, ⟨c, rfl, hcs.1⟩, by rw [Set.union_empty, hcs.2]⟩
  · rw [signature_run hconv]
    cases out with
    | error f => exact .bind_error hgoes fun _ => rfl
    | ok result =>
        obtain ⟨cs, U⟩ := result
        refine .bind_gives hgoes fun made V hmade => ?_
        refine .bind (P := fun shim V => V = ∅ ∧ shim.content =
          Assembly.shim sig convention made.dropLast (made.getLastD .identity))
          (.make fun c hc => ⟨c, rfl, rfl, hc⟩) fun shim _ hshim => .pure _ ?_
        refine ⟨_, rfl, ⟨convention, _, hconv, rfl, rfl, ?_, hshim.2⟩, ?_⟩
        swap
        · rw [hshim.1, Set.union_empty, Set.union_empty, hmade.2]
        rw [dropLast_append, hmade.1]
        rintro rfl
        have := congrArg List.length hmade.1
        rw [List.length_zipWith, h.length rfl] at this
        simp [Job.types, Part.ofSignature] at this

end Making

end Marshal
