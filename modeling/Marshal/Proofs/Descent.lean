import Mathlib.Data.List.Duplicate
import Marshal.Proofs.Absence
import Marshal.Proofs.Guarded
import Marshal.Proofs.Isolation
import Marshal.Proofs.Raising
import Marshal.Proofs.Restoring
import Marshal.Proofs.Rivals

/-!
# Where planning fails

A planner that fails leaves a path. It is all that stood on the path of the planner when the
fault was raised (`PlanM.Raises`), and it is the way from what was asked for to the place
where the fault was met (`Planner.AtRest.fault_located`): the path can be followed from the
outside to the inside (`World.Descends`), with a segment for every field, element, payload,
argument, result and reference on the way and none for anything else, and at its end stands a
type of which the fault is true there (`World.Fails`). A call that succeeds leaves no path.

Neither of the two says what the other says. The same fault may be true at more than one
place, of a type that contains itself even at every turn; and the program alone does not tell
what the places are.

The planner records the path when the fault has already passed the innermost place, and on
the way outwards. In between come memory, the cache and the second turns of recursive types.
The judgement keeps, of all that, the way with the fault, so a descent is read off a
derivation, rule by rule (`World.Plans.lies`). Three of the rules tell less than the fault
says. That a type contains itself is known from the open types, by the invariant that guards
recursion (`World.Taut`). That a body is missing is known from what is left in memory
(`World.Takes.lacks`), since the fault is the last that happens. And that a field does not
resolve is found out by its record, at the place of the record, only if the type of the field
was remembered from elsewhere (`World.Plans.parts_unresolved`): otherwise it was found out
before, at the field.
-/

namespace Marshal

open Relation Converter Planner PlanM

/-! ## Sites -/

/-- A type where it stands: whether a value may be left out there, and what the shim fills in
for it. -/
structure Site where
  ty : TyId
  omittable : Bool
  default : Option Literal

namespace Site

/-- A type of which a value is always given. -/
def plain (ty : TyId) : Site := ⟨ty, false, none⟩

end Site

/-- Where a part stands. -/
def Planner.Part.site (p : Part) : Site := ⟨p.ty, p.omittable, p.default⟩

/-- The type inside an array, an option, a nullable or a cell, which is at no place of its
own. -/
def Term.inner? : Term → Option TyId
  | .array y | .option y | .nullable y | .ref y => some y
  | _ => none

/-- The place in a term, and what stands there. -/
inductive Term.Enters : Term → Segment → Site → Prop
  | recordField {fields : List Field} {f : Field} : f ∈ fields →
      Enters (.record fields) (.field f.name) ⟨f.ty, f.optional, none⟩
  | objectField {fields : List Field} {f : Field} : f ∈ fields →
      Enters (.object fields) (.field f.name) ⟨f.ty, f.optional, none⟩
  | element {tys : List TyId} {i : Nat} {ty : TyId} : tys[i]? = some ty →
      Enters (.tuple tys) (.element i) (.plain ty)
  | payload {ks : List Constructor} {k : Constructor} {ty : TyId} : k ∈ ks → k.payload = some ty →
      Enters (.variant ks) (.constructor k.name) (.plain ty)
  | argument {s : Signature} {convention : Convention} {i : Nat} {p : Parameter} :
      Convention.ofSignature s = .ok convention → s.params[i]? = some p →
      Enters (.function s) (.argument i p.role.label)
        ⟨p.ty, p.role.isOptional, convention.shimDefault i⟩
  | result {s : Signature} : Enters (.function s) .result (.plain s.ret)

namespace World

/-- The path leads from one site down to another. -/
inductive Descends (w : World) : Site → List Segment → Site → Prop
  | here {q : Site} : Descends w q [] q
  | through {q q' : Site} {t : Term} {y : TyId} {way : List Segment} :
      w.arena.term? q.ty = some t → t.inner? = some y → Descends w (.plain y) way q' →
      Descends w q way q'
  | into {q q' q'' : Site} {t : Term} {place : Segment} {way : List Segment} :
      w.arena.term? q.ty = some t → t.Enters place q' → Descends w q' way q'' →
      Descends w q (place :: way) q''
  | expanding {q q' : Site} {r : Referent} {way : List Segment} :
      w.Resolves q.ty (.ok r) → Descends w (.plain r.node) way q' →
      Descends w q (.expansion (w.arena.text q.ty) :: way) q'

/-! ## Faults -/

/-- What is wrong at a site. The memory is the one that planning has left. -/
inductive Fails (w : World) (m : Memory) : Site → Fault → Prop
  | fieldTwice {q : Site} {t : Term} {fields : List Field} {name : String} :
      w.arena.term? q.ty = some t → t = .record fields ∨ t = .object fields →
      (fields.map Field.name).Duplicate name →
      Fails w m q (.unsupported (w.arena.text q.ty) (fieldTwice name))
  | noConstructors {q : Site} : w.arena.term? q.ty = some (.variant []) →
      Fails w m q (.unsupported (w.arena.text q.ty) noConstructors)
  | constructorTwice {q : Site} {ks : List Constructor} {name : String} :
      w.arena.term? q.ty = some (.variant ks) → (ks.map Constructor.name).Duplicate name →
      Fails w m q (.unsupported (w.arena.text q.ty) (constructorTwice name))
  | optionOfOption {q : Site} {y : TyId} : w.arena.term? q.ty = some (.option y) →
      w.StandsForOption y → Fails w m q (.unsupported (w.arena.text q.ty) optionOfOption)
  /-- Whether the inner type stands for an option cannot be told. -/
  | openOption {q : Site} {y : TyId} {f : Fault} : w.arena.term? q.ty = some (.option y) →
      w.Refers y → w.Resolves y (.error f) → Fails w m q f
  /-- Whether a field may be absent cannot be told, although its type is remembered. -/
  | openField {q : Site} {fields : List Field} {g : Field} {f : Fault} :
      w.arena.term? q.ty = some (.record fields) → g ∈ fields → m.settled g.ty ≠ none →
      w.Refers g.ty → w.Resolves g.ty (.error f) → Fails w m q f
  | convention {q : Site} {s : Signature} {f : Fault} :
      w.arena.term? q.ty = some (.function s) → Convention.ofSignature s = .error f →
      Fails w m q f
  /-- Cells have to stay what they are, so nothing in them may be converted. -/
  | refRefused {q : Site} {y : TyId} : w.arena.term? q.ty = some (.ref y) →
      w.options.refs = .preserve →
      Fails w m q (.unsupported (w.arena.text q.ty) refRefused)
  | unresolved {q : Site} {f : Fault} : w.Refers q.ty → w.Resolves q.ty (.error f) →
      Fails w m q f
  | growingArguments {q : Site} {r : Referent} : w.Resolves q.ty (.ok r) →
      r.recursive = true → r.regular = false →
      Fails w m q (.cyclic (w.arena.text q.ty) growingArguments)
  | containsItself {q : Site} : w.Refers q.ty → TransGen w.Holds q.ty q.ty →
      Fails w m q (.cyclic (w.arena.text q.ty) containsItself)
  /-- The cache has the type, but neither the planner nor the cache has a body that it needs. -/
  | bodyMissing {q : Site} {c : Assembly.Content} {u t : TyId} {shown : String} :
      m.settled q.ty = none → m.cache.converters q.ty = some c → u ∈ (bare c).targets →
      m.bodies.Leads u t → m.bodies t = none → m.cache.bodies t = none →
      Fails w m q (.unsupported shown bodyMissing)
  | nestedAbsence {q : Site} : q.omittable = true → w.StandsForOption q.ty →
      Fails w m q (.unsupported (w.arena.text q.ty) nestedAbsence)
  /-- The literal is no host value of the type behind the last nullable one. -/
  | misfit {q : Site} {lit : Literal} {y : TyId} {t : Term} {f : Fault} : q.default = some lit →
      ReflTransGen w.Unwraps q.ty y → w.Behind y t → (∀ z, t ≠ .nullable z) →
      w.verdict lit y t = .error f → Fails w m q f
  /-- What stands behind the last nullable type cannot be told. -/
  | openDefault {q : Site} {lit : Literal} {y : TyId} {f : Fault} : q.default = some lit →
      ReflTransGen w.Unwraps q.ty y → w.Refers y → w.Resolves y (.error f) → Fails w m q f

variable {w : World} {m m' : Memory} {x y : TyId} {t : Term} {l : Layer} {p : Part} {q q' : Site}
  {f : Fault} {way : List Segment}

/-- What is wrong with a type is wrong with it wherever it stands. -/
theorem Fails.of_plain (h : w.Fails m (.plain q.ty) f) : w.Fails m q f := by
  cases h with
  | fieldTwice ht hfields hname => exact .fieldTwice ht hfields hname
  | noConstructors ht => exact .noConstructors ht
  | constructorTwice ht hname => exact .constructorTwice ht hname
  | optionOfOption ht hy => exact .optionOfOption ht hy
  | openOption ht hy hr => exact .openOption ht hy hr
  | openField ht hg hknown hy hr => exact .openField ht hg hknown hy hr
  | convention ht hs => exact .convention ht hs
  | refRefused ht hrefs => exact .refRefused ht hrefs
  | unresolved hx hr => exact .unresolved hx hr
  | growingArguments hr hrec hreg => exact .growingArguments hr hrec hreg
  | containsItself hx hcycle => exact .containsItself hx hcycle
  | bodyMissing hs hc hu hl ht hk => exact .bodyMissing hs hc hu hl ht hk
  | nestedAbsence homit => cases homit
  | misfit hlit => cases hlit
  | openDefault hlit => cases hlit

/-- A descent from a type is one from wherever the type stands. -/
theorem Descends.of_plain (h : w.Descends (.plain q.ty) way q') (hf : w.Fails m q' f) :
    ∃ q', w.Descends q way q' ∧ w.Fails m q' f := by
  cases h with
  | here => exact ⟨q, .here, hf.of_plain⟩
  | through ht hy h => exact ⟨q', .through ht hy h, hf⟩
  | into ht hq h => exact ⟨q', .into ht hq h, hf⟩
  | expanding hr h => exact ⟨q', .expanding hr h, hf⟩

/-! ## Places of parts -/

theorem mem_ofElements : ∀ {index : Nat} {tys : List TyId}, p ∈ Part.ofElements index tys →
    ∃ i ty, tys[i]? = some ty ∧ p = ⟨some (.element (index + i)), none, false, false, ty⟩
  | _, [], h => nomatch h
  | index, ty :: tys, h => by
      rcases List.mem_cons.mp h with rfl | h
      · exact ⟨0, ty, rfl, rfl⟩
      · obtain ⟨i, ty', hi, rfl⟩ := mem_ofElements h
        exact ⟨i + 1, ty', hi, by rw [Nat.add_assoc, Nat.add_comm 1 i]⟩

theorem enters_ofSignature {s : Signature} {convention : Convention}
    (hs : Convention.ofSignature s = .ok convention) (hp : p ∈ Part.ofSignature convention s) :
    ∃ place, p.place = some place ∧ (Term.function s).Enters place p.site := by
  rcases List.mem_append.mp hp with hp | hp
  · obtain ⟨i, hi⟩ := List.mem_iff_getElem?.mp hp
    rw [getElem?_ofParams, Nat.zero_add] at hi
    obtain ⟨param, hparam, rfl⟩ := Option.map_eq_some_iff.mp hi
    exact ⟨_, rfl, .argument hs hparam⟩
  · cases List.mem_singleton.mp hp
    exact ⟨_, rfl, .result⟩

/-- A part is at the place that its segment says, or inside at no place. -/
theorem enters_of_part (hl : w.layer? x t = some l) (hp : p ∈ l.parts) :
    (∃ place, p.place = some place ∧ t.Enters place p.site) ∨
      p.place = none ∧ t.inner? = some p.ty ∧ p.site = .plain p.ty := by
  cases t with
  | scalar | var | opaqueTy | named => cases hl
  | record fields =>
      cases hl
      obtain ⟨g, hg, rfl⟩ := List.mem_map.mp hp
      exact .inl ⟨_, rfl, .recordField hg⟩
  | object fields =>
      cases hl
      obtain ⟨g, hg, rfl⟩ := List.mem_map.mp hp
      exact .inl ⟨_, rfl, .objectField hg⟩
  | variant ks =>
      cases hl
      obtain ⟨k, hk, hpart⟩ := List.mem_filterMap.mp hp
      obtain ⟨ty, hty, rfl⟩ := Option.map_eq_some_iff.mp hpart
      exact .inl ⟨_, rfl, .payload hk hty⟩
  | tuple tys =>
      cases hl
      obtain ⟨i, ty, hi, rfl⟩ := mem_ofElements hp
      rw [Nat.zero_add]
      exact .inl ⟨_, rfl, .element hi⟩
  | array | option | nullable | ref =>
      cases hl
      cases List.mem_singleton.mp hp
      exact .inr ⟨rfl, rfl, rfl⟩
  | function s =>
      rcases layer_function hl with ⟨_, -, rfl⟩ | ⟨_, hs, rfl⟩
      · cases hp
      · exact .inl (enters_ofSignature hs hp)

theorem Descends.part (ht : w.arena.term? x = some t) (hl : w.layer? x t = some l)
    (hp : p ∈ l.parts) (h : w.Descends p.site way q) :
    w.Descends (.plain x) (p.place.toList ++ way) q := by
  rcases enters_of_part hl hp with ⟨place, hplace, henters⟩ | ⟨hplace, hinner, hsite⟩
  · rw [hplace]
    exact .into ht henters h
  · rw [hplace]
    exact .through ht hinner (hsite ▸ h)

/-! ## What the checks find -/

theorem answers_refuse {α : Type} (x : TyId) (g : String → Fault) :
    w.Answers (α := α) (do fail (g (← PlanM.shown x)))
      (.error (.fault (g (w.arena.text x)))) := fun s hs => by
  rw [bind_ok (answers_shown s hs)]
  rfl

theorem resolves_of_error {e : Halt}
    (h : resolve w.catalog x (blank w.arena) = (.error e, blank w.arena)) :
    ∃ f, e = .fault f ∧ w.Resolves x (.error f) := by
  have unfolded : resolve w.catalog x (blank w.arena) =
      ((w.catalog.resolve x w.arena).1.mapError Halt.fault,
        (blank w.arena).on (w.catalog.resolve x w.arena).2) := rfl
  rw [unfolded] at h
  obtain ⟨hr, hs⟩ := Prod.mk.inj h
  have arena := congrArg (fun s => s.shared.arena) hs
  cases hv : (w.catalog.resolve x w.arena).1 with
  | ok v => rw [hv] at hr; cases hr
  | error f => rw [hv] at hr; cases hr; exact ⟨f, rfl, Prod.ext hv arena⟩

/-- Looking for the term behind a type fails only at a reference that does not resolve. -/
theorem resolvedTerm_fails {e : Halt}
    (h : resolvedTerm w.catalog x (blank w.arena) = (.error e, blank w.arena)) :
    ∃ f, e = .fault f ∧ w.Refers x ∧ w.Resolves x (.error f) := by
  by_cases hn : ∃ key args, w.arena.term? x = some (.named key args)
  · obtain ⟨key, args, hn⟩ := hn
    have named : (blank w.arena).shared.arena.term? x = some (.named key args) := hn
    rw [resolvedTerm_named named] at h
    rcases bind_cases h with ⟨_, hr, ⟨⟩⟩ | ⟨r, s, -, hrest⟩
    · obtain ⟨f, rfl, hres⟩ := resolves_of_error hr
      exact ⟨f, rfl, ⟨_, hn, rfl⟩, hres⟩
    · change (Except.ok (s.shared.arena.term? r.node), s) = _ at hrest
      cases hrest
  · rw [resolvedTerm_unnamed fun key args h => hn ⟨key, args, h⟩] at h
    cases h

theorem standsForOption_fails {e : Halt}
    (h : standsForOption w.catalog x (blank w.arena) = (.error e, blank w.arena)) :
    ∃ f, e = .fault f ∧ w.Refers x ∧ w.Resolves x (.error f) := by
  rcases bind_cases h with ⟨_, ht, ⟨⟩⟩ | ⟨t, s, -, hrest⟩
  · exact resolvedTerm_fails ht
  · split at hrest <;> cases hrest

theorem refuseOption_fails {reason : String}
    (h : w.Answers (refuseOption w.catalog x y reason) (.error (.fault f))) :
    w.StandsForOption y ∧ f = .unsupported (w.arena.text x) reason ∨
      w.Refers y ∧ w.Resolves y (.error f) := by
  rcases bind_cases (h (blank w.arena) rfl) with ⟨_, hb, ⟨⟩⟩ | ⟨b, s, hb, hrest⟩
  · obtain ⟨_, ⟨⟩, hy, hr⟩ := standsForOption_fails hb
    exact .inr ⟨hy, hr⟩
  · cases b with
    | false => cases hrest
    | true =>
        have ends : ((.error (.fault (.unsupported (s.shared.arena.text x) reason)), s) :
            Except Halt Unit × PlanState) = (.error (.fault f), blank w.arena) := hrest
        cases ends
        exact .inl ⟨(standsForOption_spec hb).mp rfl, rfl⟩

theorem behind_of_answers (h : w.Answers (resolvedTerm w.catalog x) (.ok (some t))) :
    w.Behind x t := by
  have run := h (blank w.arena) rfl
  rcases resolvedTerm_spec run with ⟨r, hr, ht⟩ | ⟨ht, hnone⟩
  · exact .node hr ht.symm
  · refine .own ht.symm ?_
    cases t with
    | named key args =>
        have named : (blank w.arena).shared.arena.term? x = some (.named key args) := ht.symm
        rw [resolvedTerm_named named] at run
        rcases bind_cases run with ⟨_, -, ⟨⟩⟩ | ⟨r, s, hr, hrest⟩
        have same : s = blank w.arena := congrArg Prod.snd hrest
        exact absurd (resolves_of_run (same ▸ hr)) (hnone r)
    | _ => rfl

/-- The check ends with the verdict on a term that is not nullable. -/
theorem verdict_of_refusal {lit : Literal}
    (h : w.Answers (if fits w.options t lit then pure ()
      else do fail (.unsupported (← shown x) (notHostValue lit))) (.error (.fault f))) :
    w.verdict lit x t = .error f := by
  unfold verdict
  split at h
  · cases h.unique (Answers.pure ())
  · next hfits =>
      cases h.unique (answers_refuse x fun shown => .unsupported shown (notHostValue lit))
      rw [if_neg hfits]

section Stored

variable (hw : w.Ready)
include hw

/-- Behind a stored type there is a term. -/
theorem resolvedTerm_ne_none (hx : w.arena.Has x) :
    ¬w.Answers (resolvedTerm w.catalog x) (.ok none) := by
  intro h
  rcases resolvedTerm_spec (h (blank w.arena) rfl) with ⟨r, hr, ht⟩ | ⟨ht, -⟩
  · obtain ⟨t, hnode⟩ := Arena.has_iff.mp (hr.has_node hw)
    cases ht.trans hnode
  · obtain ⟨t, hown⟩ := Arena.has_iff.mp hx
    cases ht.trans hown

theorem Unwraps.stored (h : w.Unwraps x y) : w.arena.Has y := by
  cases h with
  | own ht => exact hw.sound.has_child ht (List.mem_singleton_self y)
  | node hr ht => exact hw.sound.has_child ht (List.mem_singleton_self y)

/-- What follows on the term behind a stored type, in the check of a default, only looks. -/
theorem acceptTerm_looks (hx : w.arena.Has x) {d : Nat} {lit : Literal} {t : Option Term}
    {b : Arena} (h : Inspects (resolvedTerm w.catalog x) w.arena (.ok t) b) :
    Looks (match t with
      | some (.nullable inner) => acceptDefault w.catalog w.options d inner lit
      | some t =>
        if fits w.options t lit then pure ()
        else do fail (.unsupported (← shown x) (notHostValue lit))
      | none => do fail (.unsupported (← shown x) (notHostValue lit))) b := by
  have refused : Looks (α := Unit) (do fail (.unsupported (← shown x) (notHostValue lit))) b :=
    .refuse h.sound (h.within.has hx) fun shown => .unsupported shown (notHostValue lit)
  have fitted (t : Term) : Looks (α := Unit) (if fits w.options t lit then pure ()
      else do fail (.unsupported (← shown x) (notHostValue lit))) b := by
    split
    · exact .pure h.sound _
    · exact refused
  obtain ⟨r, b', h', hchildren⟩ := resolvedTerm_inspects hw.sound hw.spans hx
  cases (h.run (blank w.arena) rfl).symm.trans (h'.run (blank w.arena) rfl)
  cases t with
  | none => exact refused
  | some t =>
      cases t with
      | nullable inner =>
          obtain ⟨r, c, hr, -⟩ := acceptDefault_inspects d lit h.sound (hw.spans.within h.within)
            (hchildren _ rfl inner (List.mem_singleton_self inner))
          exact ⟨r, c, hr⟩
      | _ => exact fitted _

/-- The check of a default fails where the last nullable type ends, or where that cannot be
told. -/
theorem acceptDefault_fails {lit : Literal} {d : Nat} (hx : w.arena.Has x)
    (h : w.Answers (acceptDefault w.catalog w.options d x lit) (.error (.fault f))) :
    ∃ y, ReflTransGen w.Unwraps x y ∧
      ((∃ t, w.Behind y t ∧ (∀ z, t ≠ .nullable z) ∧ w.verdict lit y t = .error f) ∨
        w.Refers y ∧ w.Resolves y (.error f)) := by
  induction d generalizing x with
  | zero => cases h.unique (fun _ _ => rfl : w.Answers _ (.error .outOfFuel))
  | succ d ih =>
      rw [acceptDefault] at h
      obtain ⟨r, b, hlooks, -⟩ := resolvedTerm_inspects hw.sound hw.spans hx
      rcases Answers.of_bind ⟨r, b, hlooks⟩ (acceptTerm_looks hw hx) h with
        ⟨_, ht, ⟨⟩⟩ | ⟨t, ht, h⟩
      · obtain ⟨_, ⟨⟩, hr⟩ := resolvedTerm_fails (ht (blank w.arena) rfl)
        exact ⟨x, .refl, .inr hr⟩
      cases t with
      | none => exact absurd ht (resolvedTerm_ne_none hw hx)
      | some t =>
          have behind := behind_of_answers ht
          cases t with
          | nullable y =>
              obtain ⟨z, hyz, hz⟩ := ih (Unwraps.stored hw behind) h
              exact ⟨z, .head behind hyz, hz⟩
          | _ => exact ⟨x, .refl, .inl ⟨_, behind, by simp, verdict_of_refusal h⟩⟩

/-- What refuses a part is wrong where the part stands. -/
theorem Admits.fails (h : w.Admits p (.error (.fault f))) (hp : w.arena.Has p.ty) :
    w.Fails m p.site f := by
  rcases h.cases hw hp with ⟨n, g, hdefault, ⟨⟩⟩ | ⟨n, -, habsence⟩
  · unfold Part.checkDefault at hdefault
    cases hlit : p.default with
    | none =>
        rw [hlit] at hdefault
        cases hdefault.unique (Answers.pure ())
    | some lit =>
        rw [hlit] at hdefault
        obtain ⟨y, hy, ⟨t, ht, hlast, hf⟩ | ⟨hrefers, hr⟩⟩ := acceptDefault_fails hw hp hdefault
        · exact .misfit hlit hy ht hlast hf
        · exact .openDefault hlit hy hrefers hr
  · unfold Part.checkAbsence at habsence
    split at habsence
    · next homit =>
        rcases refuseOption_fails habsence with ⟨hstands, rfl⟩ | ⟨hrefers, hr⟩
        · exact .nestedAbsence homit hstands
        · exact .unresolved hrefers hr
    · cases habsence.unique (Answers.pure ())

end Stored

/-! ## What a missing body leaves behind -/

/-- No converter in the cache is replaced. -/
def Grows (k k' : Stock) : Prop := k.converters.Extends k'.converters

theorem Misses.settled {rivals : Stock → Stock → Prop} {e : Env}
    (h : Misses rivals e m x m') : m'.settled = m.settled := by
  cases h <;> rfl

theorem Settles.remembers {rivals : Stock → Stock → Prop} {e : Env} {c d : Assembly.Content}
    (h : Settles rivals e m x c d m') (hy : m.settled y ≠ none) : m'.settled y ≠ none := by
  cases h with
  | alone | shared => exact Contents.put_ne_none hy

/-- What is settled stays, also when planning fails. -/
theorem Plans.remembers {rivals : Stock → Stock → Prop} {e : Env} {job : Job} {out : Verdict}
    (h : w.Plans rivals e job m out m') : m.settled y ≠ none → m'.settled y ≠ none := by
  induction h with
  | remembered | leaf | refused | circles | guessed | unresolved | grows | noParts
  | partRefused => exact id
  | adopted _ _ _ _ ht => exact fun hy => Contents.put_ne_none (ht.settled ▸ hy)
  | bodyless _ _ _ _ ht => exact fun hy => ht.settled ▸ hy
  | settles _ hm _ hset ih => exact fun hy => hset.remembers (ih (hm.settled ▸ hy))
  | hangs _ hm _ _ ih | fails _ hm _ ih => exact fun hy => ih (hm.settled ▸ hy)
  | partsFail _ _ _ _ ih | unassembled _ _ _ _ _ ih | assembled _ _ _ _ _ ih
  | inline _ _ _ _ ih | inlineFails _ _ _ _ ih | firstFails _ _ _ _ _ ih | idle _ _ _ _ _ ih
  | partFails _ _ ih => exact ih
  | secondFails _ _ _ _ _ _ _ ih ih' | defers _ _ _ _ _ _ _ ih ih' | restFails _ _ _ ih ih'
  | someParts _ _ _ ih ih' => exact fun hy => ih' (ih hy)

section Unresolved

variable {rivals : Stock → Stock → Prop} {e : Env} {cs : List Assembly.Content} {U : Set TyId}

end Unresolved

/-! ## Descents are read off derivations -/

/-- The fault is met at the end of the way, from the type of a job or from one of its parts. -/
def Lies (w : World) (m : Memory) (f : Failure) : Job → Prop
  | .visit x | .layer x => ∃ q, w.Descends (.plain x) f.way q ∧ w.Fails m q f.fault
  | .parts ps => ∃ p ∈ ps, ∃ way q, f.way = p.place.toList ++ way ∧ w.Descends p.site way q ∧
      w.Fails m q f.fault

section Lies

variable {g : Failure} {r : Referent} {ps : List Part}

theorem Lies.of_parts (ht : w.arena.term? x = some t) (hl : w.layer? x t = some l)
    (h : w.Lies m g (.parts l.parts)) : w.Lies m g (.layer x) := by
  obtain ⟨p, hp, way, q, hway, hdescends, hfails⟩ := h
  exact ⟨q, hway ▸ hdescends.part ht hl hp, hfails⟩

theorem Lies.expanding (hr : w.Resolves x (.ok r)) (h : w.Lies m g (.visit r.node)) :
    w.Lies m (g.under [.expansion (w.arena.text x)]) (.layer x) := by
  obtain ⟨q, hdescends, hfails⟩ := h
  exact ⟨q, .expanding hr hdescends, hfails⟩

theorem Lies.head (h : w.Lies m g (.visit p.ty)) :
    w.Lies m (g.under p.place.toList) (.parts (p :: ps)) := by
  obtain ⟨q, hdescends, hfails⟩ := h
  obtain ⟨q, hdescends, hfails⟩ := Descends.of_plain (q := p.site) hdescends hfails
  exact ⟨p, List.mem_cons_self .., g.way, q, rfl, hdescends, hfails⟩

theorem Lies.tail (h : w.Lies m g (.parts ps)) : w.Lies m g (.parts (p :: ps)) := by
  obtain ⟨p', hp, rest⟩ := h
  exact ⟨p', List.mem_cons_of_mem _ hp, rest⟩

end Lies

end World

/-! ## What a planner leaves -/

theorem Planner.AtRest.idle {p : Planner} (h : p.AtRest) : (World.idle p.caching).Of p where
  caching := rfl
  pending := h.pending
  guesses u := by
    rw [Planner.guess?, h.guesses]
    rfl
  depth := h.lazyDepth

namespace Chart

def coord : Key := ⟨"Chart", "coord"⟩

/-- Coordinates have a height that may be left out, and which is an option as well. -/
def arena : Arena :=
  (((Arena.new.push (.named coord [])).push (.option Scalar.float.id)).push
    (.record [⟨"x", Scalar.float.id, false, false⟩, ⟨"z", ⟨6⟩, true, false⟩])).push (.array ⟨5⟩)

def catalog : Catalog := .ofDecls arena [⟨coord, 0, ⟨7⟩⟩]

/-- A function of many coordinates. -/
def plot : Signature := ⟨[⟨.named "along", ⟨8⟩, none⟩], Scalar.unit.id⟩

def opened : PlanState := ⟨⟨arena, 0, .empty⟩, .new true⟩

def call : Except Halt Answer × PlanState :=
  (Call.signature plot).run catalog .standard 9 opened

def refusal : Fault := .unsupported "option<float>" nestedAbsence

def path : List Segment :=
  [.argument 0 (some "along"), .expansion "Chart.coord", .field "z"]

theorem sound : arena.Sound := by decide +kernel

theorem refuses : call.1 = .error (.fault refusal) := by decide +kernel

theorem leaves : call.2.planner.takePath.1 = path := by decide +kernel

end Chart

end Marshal
