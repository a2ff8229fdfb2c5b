import Marshal.Proofs.Answers
import Marshal.Proofs.Depth

/-!
# Functions as values

A plan calls a native function by arranging the arguments, filling in defaults,
converting one by one, and converting the result. The shim makes of the same function
another one: a check of the number of arguments around a wrapper that converts, and
either of them is left out if it has nothing to do. Both come to the same. The proof
takes the shim apart layer by layer, where each layer is one `Alike` step, down to
the arguments as they are `supplied` to the function; a call through the plan is
taken to the same form from the other end.
-/

namespace Marshal

open Planner Run

/-! ## Arguments as they are supplied -/

namespace Run

variable {table : FixTable} {d : Nat} {f g h : Closure} {args : List Value}

/-- The default is put for an absent argument, then it is converted. -/
def supply (table : FixTable) (d : Nat) (e : Value × Option Literal × Converter) : Run Value :=
  convertWithin table d e.2.2 .forward (Adapter.substitute e.1 e.2.1)

theorem mono_convert (table : FixTable) (c : Converter) (dir : Direction) (v : Value) :
    Mono fun d => convertWithin table d c dir v :=
  mono_apply table (c.step dir) v

theorem substituteDefault_run (lit : Literal) (v : Value) :
    applyWithin table (d + 1) (.substituteDefault lit) v =
      pure (Adapter.substitute v (some lit)) := by
  cases v <;> rfl

/-- The step for one argument. -/
def argStep (lit : Option Literal) (c : Converter) : Step :=
  match lit with
  | some lit => .seq [.substituteDefault lit, c.forward]
  | none => c.forward

theorem argSteps_eq (defaults : List (Option Literal)) (cs : List Converter) :
    Assembly.argSteps defaults cs = (defaults.zip cs).map fun e => argStep e.1 e.2 :=
  rfl

/-- An argument step supplies its argument. -/
theorem alike_argStep (lit : Option Literal) (c : Converter) (v : Value) :
    Alike (fun d => applyWithin table d (argStep lit c) v) fun d => supply table d (v, lit, c) := by
  cases lit with
  | none => exact .refl _
  | some lit =>
      refine (alike_seq _ v).trans ?_
      have filled : Alike (fun d => applyWithin table d (.substituteDefault lit) v)
          fun _ => pure (Adapter.substitute v (some lit)) :=
        .shift 1 fun d => substituteDefault_run lit v
      refine (Alike.bind (mono_apply table _ v) (.const _) filled
        fun w => alike_singleton c.forward w).trans ?_
      simp only [pure_bind]
      exact .refl _

theorem alike_argSteps (defaults : List (Option Literal)) (cs : List Converter)
    (args : List Value) :
    Alike (fun d => (args.zip (Assembly.argSteps defaults cs)).mapM fun (v, t) =>
        applyWithin table d t v)
      fun d => (args.zip (defaults.zip cs)).mapM (supply table d) := by
  rw [argSteps_eq, List.zip_map_right]
  simp only [List.mapM_map]
  exact .mapM (f := fun d (e : Value × Option Literal × Converter) =>
      applyWithin table d (argStep e.2.1 e.2.2) e.1)
    (fun _ => mono_apply table _ _) (fun _ => mono_convert table _ _ _)
    fun (v, lit, c) _ => alike_argStep lit c v

/-! ## Wrappers -/

/-- A function that is given as many arguments as it takes is invoked once. -/
theorem callFully_exact {invoke : Invoke} (hargs : args.length = f.arity) :
    callFully invoke f args = invoke f args := by
  have ends : args.drop f.arity = [] := List.drop_eq_nil_of_le (by omega)
  have enough : ¬(args.length < f.arity ∨ f.arity = 0 ∧ args ≠ []) := by
    rintro (hlt | ⟨hzero, hne⟩)
    · omega
    · exact hne (List.eq_nil_of_length_eq_zero (hargs.trans hzero))
  unfold callFully feed
  rw [if_neg enough, ends, ← hargs, List.take_length]
  exact bind_pure _

theorem substituteAll_none : ∀ (vs : List Value) (n : Nat),
    Adapter.substituteAll vs (List.replicate n none) = vs
  | [], _ => by simp [Adapter.substituteAll]
  | _ :: _, 0 => rfl
  | v :: vs, n + 1 => by
      rw [List.replicate_succ, Adapter.substituteAll, substituteAll_none vs n]
      rfl

/-- The arguments are converted, the function is called, its result is converted. -/
def between (prepare : Nat → Run (List Value)) (f : Closure) (finish : Nat → Value → Run Value)
    (d : Nat) : Run Value := do
  let converted ← prepare d
  let result ← callFully (invokeWithin d) f converted
  finish d result

theorem alike_between {prepare prepare' : Nat → Run (List Value)}
    {finish finish' : Nat → Value → Run Value} (hp : Mono prepare) (hp' : Mono prepare')
    (h : Alike prepare prepare')
    (h' : ∀ v, Alike (fun d => finish d v) fun d => finish' d v) :
    Alike (between prepare f finish) (between prepare' f finish') :=
  .bind hp hp' h fun vs => .bind (mono_call f vs) (mono_call f vs) (.refl _) h'

/-- Nothing is converted between the caller and the function. -/
theorem alike_still {prepare : Nat → Run (List Value)} (hp : Mono prepare)
    (h : Alike prepare fun _ => pure args) :
    Alike (between prepare f fun d v => applyWithin table d .identity v)
      fun d => callFully (invokeWithin d) f args := by
  have still : ∀ v, Alike (fun d => applyWithin table d .identity v) fun _ => pure v :=
    alike_identity
  refine (alike_between hp (.const (pure args)) h still).trans (.shift 0 fun d => ?_)
  simp [between]

/-- Invoking a wrapper. -/
theorem alike_convert (token : Nat) (steps : List Step) (ret : Step)
    (hargs : args.length = steps.length) :
    Alike (fun d => invokeWithin d ⟨token, steps.length, .convert table steps ret f⟩ args)
      (between (fun d => (args.zip steps).mapM fun (v, t) => applyWithin table d t v) f
        fun d v => applyWithin table d ret v) := by
  refine .shift 1 fun d => ?_
  unfold invokeWithin
  rw [if_pos hargs]
  rfl

/-- Invoking a check. -/
theorem alike_adapt (token : Nat) (c : Convention) :
    Alike (fun d => invokeWithin d ⟨token, c.arity, .adapt c.countOnly f⟩ args)
      fun d => if args.length = c.arity then callFully (invokeWithin d) f args
        else fail (.arity c.arity args.length) := by
  refine .shift 1 fun d => ?_
  unfold invokeWithin
  refine ite_congr rfl (fun hargs => ?_) fun _ => rfl
  have complete : c.countOnly.complete args = .ok args :=
    (if_pos hargs).trans (congrArg _ (substituteAll_none args c.arity))
  show (ofExcept (c.countOnly.complete args) >>= fun vs => callFully (invokeWithin d) f vs) = _
  rw [complete]
  rfl

theorem alike_of_identities {steps : List Step} (hs : ∀ t ∈ steps, t = .identity)
    (hargs : args.length = steps.length) :
    Alike (fun d => (args.zip steps).mapM fun (v, t) => applyWithin table d t v)
      fun _ => pure args := by
  have each : Alike (fun d => (args.zip steps).mapM fun (v, t) => applyWithin table d t v)
      fun _ => (args.zip steps).mapM fun e => pure e.1 := by
    refine .mapM (f := fun d (e : Value × Step) => applyWithin table d e.2 e.1)
      (g := fun _ e => pure e.1) (fun _ => mono_apply table _ _) (fun _ => .const _) ?_
    intro e he
    rw [hs e.2 (List.of_mem_zip he).2]
    exact alike_identity e.1
  refine each.trans ?_
  rw [List.mapM_pure, List.map_fst_zip (by omega)]
  exact .refl _

theorem settles_newFn {step : Step} {body : Body} {n : Nat} (s : Store)
    (h : ∀ d, applyWithin table (d + 1) step (.fn f) = newFn n body) :
    Settles (fun d => applyWithin table d step (.fn f)) s (.ok (.fn ⟨s.supply, n, body⟩))
      { s with supply := s.supply + 1 } :=
  (mono_apply table step (.fn f)).settles (d := 1) (congrFun (h 0) s)

/-- A wrapper, or the function itself if nothing is converted. -/
theorem wraps (table : FixTable) (steps : List Step) (ret : Step) (s : Store) :
    ∃ h s', Settles (fun d => applyWithin table d (Assembly.wrapFunction steps ret) (.fn f)) s
        (.ok (.fn h)) s' ∧ s'.boxes = s.boxes ∧
      ∀ args : List Value, args.length = steps.length →
        Alike (fun d => callFully (invokeWithin d) h args)
          (between (fun d => (args.zip steps).mapM fun (v, t) => applyWithin table d t v) f
            fun d v => applyWithin table d ret v) := by
  unfold Assembly.wrapFunction
  split
  · next hid =>
      rw [Bool.and_eq_true, List.all_eq_true] at hid
      have still : ∀ t : Step, t.isIdentity = true → t = .identity := by
        intro t ht
        cases t <;> first | rfl | cases ht
      refine ⟨f, s, (mono_apply table _ _).settles (d := 1) rfl, rfl, fun args hargs => .symm ?_⟩
      rw [still ret hid.2]
      exact alike_still (fun d => .mapM (fun _ => mono_apply table _ _ d) _)
        (alike_of_identities (fun t ht => still t (hid.1 t ht)) hargs)
  · refine ⟨_, _, settles_newFn s fun d => rfl, rfl, fun args hargs => ?_⟩
    refine .trans (.shift 0 fun d => ?_) (alike_convert s.supply steps ret hargs)
    exact callFully_exact hargs

/-- The check around the wrapper. -/
theorem checks (table : FixTable) {c : Convention} (steps : List Step) (ret : Step)
    (hsteps : steps.length = c.arity) (s : Store) :
    ∃ g s', Settles (fun d => applyWithin table d
        (.seq [Assembly.wrapFunction steps ret, .adaptArity c.countOnly]) (.fn f)) s
        (.ok (.fn g)) s' ∧ s'.boxes = s.boxes ∧
      (∀ args : List Value, args.length ≠ c.arity → ∀ d st,
        invokeWithin (d + 1) g args st = (.error (.fault (.arity c.arity args.length)), st)) ∧
      ∀ args : List Value, args.length = c.arity →
        Alike (fun d => invokeWithin d g args)
          (between (fun d => (args.zip steps).mapM fun (v, t) => applyWithin table d t v) f
            fun d v => applyWithin table d ret v) := by
  obtain ⟨h, s₁, hwrap, hboxes, hcalls⟩ := wraps (f := f) table steps ret s
  refine ⟨⟨s₁.supply, c.arity, .adapt c.countOnly h⟩, { s₁ with supply := s₁.supply + 1 }, ?_,
    hboxes, fun args hargs d st => ?_, fun args hargs => ?_⟩
  · refine (alike_seq _ _ s _ _).mpr ?_
    refine (settles_bind (mono_apply table _ _)).mpr (.inl ⟨.fn h, s₁, hwrap, ?_⟩)
    exact (alike_singleton _ _ s₁ _ _).mpr (settles_newFn s₁ fun d => rfl)
  · unfold invokeWithin
    rw [if_neg hargs]
    rfl
  · refine (alike_adapt s₁.supply c).trans ?_
    simp only [if_pos hargs]
    exact hcalls args (hargs.trans hsteps.symm)

end Run

/-! ## Both sides of a shim -/

section Halves

variable {table : FixTable} {sig : Signature} {c : Convention} {cs : List Converter}
  {ret shim : Converter} {f : Closure} {args : List Value} {d : Nat}

/-- The arguments of a call through a plan, as they reach the function. -/
def prepared (table : FixTable) (c : Convention) (cs : List Converter) (args : List Value)
    (d : Nat) : Run (List Value) :=
  if args.length = c.arity then
    (args.zip ((c.slots.map fun slot => slot.default.shim?).zip cs)).mapM (supply table d)
  else fail (.arity c.arity args.length)

theorem mono_prepared : Mono (prepared table c cs args) := fun d => by
  unfold prepared
  split
  · exact .mapM (fun e => mono_convert table _ _ _ d) _
  · exact .refl _

/-- The arguments of a call meet the converters of their parameters. By induction on the
slots from the `k`th on. -/
theorem mapM_argConverter (table : FixTable) (d : Nat) (c : Convention) (cs : List Converter) :
    ∀ {slots : List ArgSlot} {k : Nat} {args : List Value},
    slots.map ArgSlot.param = List.range' k slots.length → args.length = slots.length →
      cs.length = k + slots.length →
      ((Adapter.substituteAll args (slots.map fun slot => slot.default.shim?)).zip slots).mapM
          (fun (arg, slot) => do
            let converter ← ofExcept (Plan.argConverter c cs slot)
            convertWithin table d converter .forward arg) =
        (args.zip ((slots.map fun slot => slot.default.shim?).zip (cs.drop k))).mapM
          (supply table d)
  | [], _, [], _, _, _ => rfl
  | slot :: slots, k, v :: args, hparams, hargs, hlen => by
      rw [List.map_cons, List.length_cons, List.range'_succ, List.cons.injEq] at hparams
      obtain ⟨hparam, hparams⟩ := hparams
      have hk : k < cs.length := by simp at hlen; omega
      have found : Plan.argConverter c cs slot = .ok cs[k] := by
        rw [Plan.argConverter, hparam, List.getElem?_eq_getElem hk]
      have hargs : args.length = slots.length := by simpa using hargs
      have ih := mapM_argConverter table d c cs hparams hargs (by simp at hlen; omega)
      rw [List.drop_eq_getElem_cons hk]
      simp only [List.map_cons, Adapter.substituteAll, List.zip_cons_cons, List.mapM_cons, found, ih]
      rfl

theorem callWith_eq {p : Plan} (hp : p.kind = .function c cs ret shim)
    (hc : Convention.ofSignature sig = .ok c) (hcs : cs.length = c.arity)
    (callee : List Value → Run Value) :
    p.callWith (convertWithin table d) callee args = (do
      let converted ← prepared table c cs args d
      let result ← callee converted
      convertWithin table d ret .backward result) := by
  obtain ⟨-, hparams, -, -⟩ := Convention.ofSignature_spec hc
  unfold prepared
  by_cases hargs : args.length = c.arity
  · have met := mapM_argConverter table d c cs
      (hparams.trans List.range_eq_range') hargs (hcs.trans (Nat.zero_add _).symm)
    rw [List.drop_zero] at met
    rw [if_pos hargs, Plan.callWith_prepared hp (Convention.prepare_eq hc hargs), ← met]
    rfl
  · rw [if_neg hargs, Plan.callWith_refused hp hargs]
    rfl

/-- A shim does nothing, or it is a check around a wrapper. -/
theorem shim_cases (hc : Convention.ofSignature sig = .ok c) (hcs : cs.length = c.arity)
    (h : shim.content = Assembly.shim sig c cs ret) :
    (shim = .identity ∧ (∀ a ∈ cs, a = .identity) ∧ ret = .identity ∧
        ∀ slot ∈ c.slots, slot.default.shim? = none) ∨
      shim ≠ .identity ∧
        shim.step .forward = .seq [Assembly.wrapFunction (cs.map Converter.backward) ret.forward,
          .adaptArity c.countOnly] ∧
        shim.step .backward = .seq [Assembly.wrapFunction (Assembly.argSteps
          (c.slots.map fun slot => slot.default.shim?) cs) ret.backward,
          .adaptArity c.countOnly] := by
  obtain ⟨horder, -, -, hplain⟩ := Convention.ofSignature_spec hc
  have still (a : Converter) (ha : a.isIdentity = true) : a = .identity := by
    cases a <;> first | rfl | cases ha
  unfold Assembly.shim at h
  dsimp only at h
  rw [hcs, Convention.shimDefaults_eq horder] at h
  split at h
  · next hnone =>
      simp only [Bool.and_eq_true, Bool.not_eq_true', Assembly.allIdentity,
        List.all_eq_true] at hnone
      cases shim with
      | custom => cases h
      | identity =>
          exact .inl ⟨rfl, fun a ha => still a (hnone.1.2 a ha), still ret hnone.2,
            hplain hnone.1.1.2⟩
  · cases shim with
    | identity => cases h
    | custom stamp forward backward =>
        cases h
        exact .inr ⟨by simp, rfl, rfl⟩

theorem alike_prepared (hargs : args.length = c.arity) :
    Alike (prepared table c cs args) fun d =>
      (args.zip (Assembly.argSteps (c.slots.map fun slot => slot.default.shim?) cs)).mapM
        fun (v, t) => applyWithin table d t v := by
  refine .trans (.shift 0 fun d => ?_) (alike_argSteps _ cs args).symm
  exact if_pos hargs

theorem length_argSteps (hcs : cs.length = c.arity) :
    (Assembly.argSteps (c.slots.map fun slot => slot.default.shim?) cs).length = c.arity := by
  simp [argSteps_eq, Convention.arity, hcs]

/-- Invoking a function with the wrong number of arguments. -/
theorem invokeWithin_of_length_ne {g : Closure} (h : args.length ≠ g.arity) (st : Store) :
    invokeWithin (d + 1) g args st = (.error (.fault (.arity g.arity args.length)), st) := by
  unfold invokeWithin
  rw [if_neg h]
  rfl

/-- What reaches the function is refused if it is not of the right number. -/
theorem alike_refused {g : Closure} (hargs : args.length ≠ c.arity)
    (h : ∀ d st, invokeWithin (d + 1) g args st =
      (.error (.fault (.arity c.arity args.length)), st)) (finish : Nat → Value → Run Value) :
    Alike (fun d => invokeWithin d g args) (between (prepared table c cs args) f finish) := by
  refine .shift 1 fun d => funext fun st => ?_
  rw [h, between, prepared, if_neg hargs]
  rfl

variable (hc : Convention.ofSignature sig = .ok c) (hcs : cs.length = c.arity)
  (hshim : shim.content = Assembly.shim sig c cs ret) (hf : shim = .identity → f.arity = c.arity)
include hc hcs hshim hf

/-- The backward half of a shim makes of a function one that is called by the host just as the
function is called through the plan. -/
theorem backward_half (table : FixTable) (st : Store) :
    ∃ g st', Settles (fun d => convertWithin table d shim .backward (.fn f)) st (.ok (.fn g)) st' ∧
      st'.boxes = st.boxes ∧ ∀ args : List Value, Alike (fun d => invokeWithin d g args)
        (between (prepared table c cs args) f fun d v => convertWithin table d ret .backward v) := by
  rcases shim_cases hc hcs hshim with ⟨rfl, hid, rfl, hnone⟩ | ⟨-, -, hstep⟩
  · refine ⟨f, st, (mono_convert table _ _ _).settles (d := 1) rfl, rfl, fun args => ?_⟩
    by_cases hargs : args.length = c.arity
    · have identities : ∀ t ∈ Assembly.argSteps (c.slots.map fun slot => slot.default.shim?) cs,
          t = .identity := by
        intro t ht
        rw [argSteps_eq, List.mem_map] at ht
        obtain ⟨e, he, rfl⟩ := ht
        obtain ⟨hlit, hconv⟩ := List.of_mem_zip he
        obtain ⟨slot, hslot, hlit⟩ := List.mem_map.mp hlit
        rw [hid _ hconv, ← hlit, hnone slot hslot]
        rfl
      refine .symm ?_
      refine (alike_still mono_prepared ((alike_prepared hargs).trans
        (alike_of_identities identities (hargs.trans (length_argSteps hcs).symm)))).trans
        (.shift 0 fun d => ?_)
      exact callFully_exact (hargs.trans (hf rfl).symm)
    · rw [← hf rfl] at hargs
      refine alike_refused (hf rfl ▸ hargs) (fun d st => ?_) _
      exact hf rfl ▸ invokeWithin_of_length_ne hargs st
  · obtain ⟨g, st', hends, hboxes, hrefuse, hcalls⟩ := checks (f := f) table
      _ ret.backward (length_argSteps hcs) st
    refine ⟨g, st', ?_, hboxes, fun args => ?_⟩
    · unfold convertWithin
      rw [hstep]
      exact hends
    · by_cases hargs : args.length = c.arity
      · exact (hcalls args hargs).trans (alike_between
          (fun d => .mapM (fun _ => mono_apply table _ _ d) _) mono_prepared
          (alike_prepared hargs).symm fun v => .refl _)
      · exact alike_refused hargs (hrefuse args hargs) _

/-- The forward half makes one that the native side calls: it takes exactly the declared number
of arguments, and fills in nothing. -/
theorem forward_half (table : FixTable) (st : Store) :
    ∃ g st', Settles (fun d => convertWithin table d shim .forward (.fn f)) st (.ok (.fn g)) st' ∧
      st'.boxes = st.boxes ∧
      (∀ args : List Value, args.length ≠ c.arity → ∀ d st,
        invokeWithin (d + 1) g args st = (.error (.fault (.arity c.arity args.length)), st)) ∧
      ∀ args : List Value, args.length = c.arity → Alike (fun d => invokeWithin d g args)
        (between (fun d => (args.zip cs).mapM fun (v, a) => convertWithin table d a .backward v) f
          fun d v => convertWithin table d ret .forward v) := by
  have backwards (args : List Value) : Alike
      (fun d => (args.zip (cs.map Converter.backward)).mapM fun (v, t) => applyWithin table d t v)
      fun d => (args.zip cs).mapM fun (v, a) => convertWithin table d a .backward v := by
    rw [List.zip_map_right]
    simp only [List.mapM_map]
    exact .refl _
  have mono (args : List Value) (steps : List Step) :
      Mono fun d => (args.zip steps).mapM fun (v, t) => applyWithin table d t v :=
    fun d => .mapM (fun _ => mono_apply table _ _ d) _
  have mono' (args : List Value) :
      Mono fun d => (args.zip cs).mapM fun (v, a) => convertWithin table d a .backward v :=
    fun d => .mapM (fun _ => mono_convert table _ _ _ d) _
  have length : (cs.map Converter.backward).length = c.arity := by simp [hcs]
  rcases shim_cases hc hcs hshim with ⟨rfl, hid, rfl, -⟩ | ⟨-, hstep, -⟩
  · refine ⟨f, st, (mono_convert table _ _ _).settles (d := 1) rfl, rfl, fun args hargs d st => ?_,
      fun args hargs => ?_⟩
    · rw [← hf rfl] at hargs
      exact hf rfl ▸ invokeWithin_of_length_ne hargs st
    · have identities : ∀ t ∈ cs.map Converter.backward, t = .identity := by
        intro t ht
        obtain ⟨a, ha, rfl⟩ := List.mem_map.mp ht
        rw [hid a ha]
        rfl
      refine .symm ?_
      refine (alike_still (mono' args) ((backwards args).symm.trans
        (alike_of_identities identities (hargs.trans length.symm)))).trans (.shift 0 fun d => ?_)
      exact callFully_exact (hargs.trans (hf rfl).symm)
  · obtain ⟨g, st', hends, hboxes, hrefuse, hcalls⟩ := checks (f := f) table
      _ ret.forward length st
    refine ⟨g, st', ?_, hboxes, hrefuse, fun args hargs => ?_⟩
    · unfold convertWithin
      rw [hstep]
      exact hends
    · exact (hcalls args hargs).trans (alike_between (mono args _) (mono' args) (backwards args)
        fun v => .refl _)

end Halves

/-! ## Shims meet the call -/

namespace Plan

/-- The half of the converter makes, of the first function and from every store, one of which
`P` holds. -/
def Makes (plan : Plan) (shim : Converter) (half : Direction) (f : Closure)
    (P : Closure → Prop) : Prop :=
  ∀ st, ∃ g st', Settles (fun d => convertWithin plan.fixpoints d shim half (.fn f)) st
    (.ok (.fn g)) st' ∧ P g

/-- Invoking `g` is calling `f` through the plan: the plan gives converted arguments to
whatever is called, and `f` gets the same ones. -/
def CalledAs (plan : Plan) (ret : Converter) (f g : Closure) : Prop :=
  ∀ args : List Value, ∃ converted : Nat → Run (List Value),
    (∀ d callee, plan.callWith (convertWithin plan.fixpoints d) callee args = (do
      let values ← converted d
      let result ← callee values
      convertWithin plan.fixpoints d ret .backward result)) ∧
    Alike (fun d => invokeWithin d g args) fun d => do
      let values ← converted d
      let result ← callFully (invokeWithin d) f values
      convertWithin plan.fixpoints d ret .backward result

/-- Invoking `g`, which takes exactly `n` arguments, converts them one by one, applies `f` and
converts the result. -/
def ServedAs (plan : Plan) (n : Nat) (cs : List Converter) (ret : Converter)
    (f g : Closure) : Prop :=
  (∀ args : List Value, args.length ≠ n → ∀ d st,
    invokeWithin (d + 1) g args st = (.error (.fault (.arity n args.length)), st)) ∧
  ∀ args : List Value, args.length = n → Alike (fun d => invokeWithin d g args) fun d => do
    let values ← (args.zip cs).mapM fun (v, c) => convertWithin plan.fixpoints d c .backward v
    let result ← callFully (invokeWithin d) f values
    convertWithin plan.fixpoints d ret .forward result

end Plan

/-- Of every signature that is planned a plan is made, and both halves of its shim do what the
plan does argument by argument. -/
theorem Session.Comes.shims {catalog : Catalog} {options : Options} {S : Session} {p : Planner}
    {i d : Nat} {sig : Signature} {sp : SignaturePlan} {s : PlanState}
    (hS : Comes catalog options S) (hp : S.planners[i]? = some p)
    (hx : ∀ x ∈ (Call.signature sig).types, S.shared.arena.Has x)
    (hrun : planSignatureWithin catalog options d sig ⟨S.shared, p⟩ = (.ok sp, s)) (key : Key) :
    ∃ plan, Plan.make key (.function sp.args sp.ret sp.shim) (some sp.convention)
        s.planner.fixpoints = .ok plan ∧
      ∀ f : Closure, (sp.shim = .identity → f.arity = sig.params.length) →
        plan.Makes sp.shim .backward f (plan.CalledAs sp.ret f) ∧
        plan.Makes sp.shim .forward f (plan.ServedAs sig.params.length sp.args sp.ret f) := by
  have called : (Call.signature sig).run catalog options d ⟨S.shared, p⟩ =
      (.ok (.signature sp), s) := by
    rw [Call.run, PlanM.bind_ok hrun]
    rfl
  obtain ⟨begins, -⟩ := rests_call (w := ⟨catalog, options, S.shared.arena⟩) hS.rests.sound
    (hS.rests.begins hp hx) called
  obtain ⟨hm, hback⟩ := hS.answered hp hx called begins.sound (.refl _)
  obtain ⟨hconv, hargs, harity, hshim⟩ := hback.signature
  have hkind : Plan.conversionOf key (.function sp.args sp.ret sp.shim) (some sp.convention) =
      .ok (.function sp.convention sp.args sp.ret sp.shim) := if_pos hargs.symm
  obtain ⟨plan, hmake⟩ := hm.make hback rfl hkind
  have hplan : plan.kind = .function sp.convention sp.args sp.ret sp.shim :=
    Except.ok.inj ((Plan.make_spec hmake).2.1.symm.trans hkind)
  refine ⟨plan, hmake, fun f hf => ⟨fun st => ?_, fun st => ?_⟩⟩
  · obtain ⟨g, st', hends, -, hcalls⟩ := backward_half hconv hargs hshim
      (fun h => (hf h).trans harity.symm) plan.fixpoints st
    exact ⟨g, st', hends, fun args => ⟨prepared plan.fixpoints sp.convention sp.args args,
      fun d callee => callWith_eq hplan hconv hargs callee, hcalls args⟩⟩
  · obtain ⟨g, st', hends, -, hrefuse, hcalls⟩ := forward_half hconv hargs hshim
      (fun h => (hf h).trans harity.symm) plan.fixpoints st
    rw [harity] at hrefuse hcalls
    exact ⟨g, st', hends, hrefuse, hcalls⟩

namespace Tree

/-- Takes a tree and a depth, which is 1 if it is left out, and gives a tree. -/
def graft : Signature :=
  ⟨[⟨.positional, ty, none⟩, ⟨.optional "depth" (some (.int 1)), Scalar.int.id, none⟩], ty⟩

def callGraft : Except Halt SignaturePlan × PlanState :=
  planSignatureWithin catalog .standard 9 graft ⟨served.shared, .new true⟩

def grafted : SignaturePlan where
  convention := ⟨[⟨0, none, false, .nowhere⟩, ⟨1, some "depth", true, .shim (.int 1)⟩], [0, 1]⟩
  args := [converter, .identity]
  ret := converter
  shim := .custom 4
    (.sequence [.wrapFunction [.recurse ty .backward, .identity] (.recurse ty .forward),
      .adaptArity ⟨2, [none, none]⟩])
    (.sequence [.wrapFunction [.recurse ty .forward, .substituteDefault (.int 1)]
      (.recurse ty .backward), .adaptArity ⟨2, [none, none]⟩])

end Tree

/-- A shim that fills in a default and converts. -/
theorem Session.Comes.shims_graft :
    ∃ plan, Plan.make Tree.key (.function Tree.grafted.args Tree.grafted.ret Tree.grafted.shim)
        (some Tree.grafted.convention) Tree.callGraft.2.planner.fixpoints = .ok plan ∧
      ∀ f : Closure, (Tree.grafted.shim = .identity → f.arity = Tree.graft.params.length) →
        plan.Makes Tree.grafted.shim .backward f (plan.CalledAs Tree.grafted.ret f) ∧
        plan.Makes Tree.grafted.shim .forward f
          (plan.ServedAs Tree.graft.params.length Tree.grafted.args Tree.grafted.ret f) := by
  have ends : planSignatureWithin Tree.catalog .standard 9 Tree.graft
      ⟨Tree.served.shared, .new true⟩ = (.ok Tree.grafted, Tree.callGraft.2) :=
    Prod.ext (by decide +kernel) (by decide +kernel)
  refine Session.Comes.shims Tree.comes_served (i := 1) (p := .new true) ?_ ?_ ends Tree.key
  · decide +kernel
  · decide +kernel

end Marshal
