import Mathlib.Logic.Basic
import Marshal.Proofs.Layers

/-!
# Contents

What planning decides is a content: nothing, or two steps. Stamps only tell
instances apart. `assemble_strip` says that putting converters together looks at
their contents alone, so later modules speak about contents and never about
stamps.

Two facts about each layer are all that is needed of the many ways in which parts
are put together: when nothing has to be done (`assemble_eq_none`), and which
recursive types are deferred to (`assemble_targets`).
-/

namespace Marshal

namespace Converter

/-- A converter with this content and no particular stamp. -/
def bare : Assembly.Content → Converter
  | none => .identity
  | some (f, b) => .custom 0 f b

/-- The converter without its stamp. -/
def strip (c : Converter) : Converter := bare c.content

variable (c : Converter) (content : Assembly.Content)

@[simp] theorem content_bare : (bare content).content = content := by
  cases content <;> rfl

@[simp] theorem targets_bare_none : (bare none).targets = [] := rfl

@[simp] theorem content_strip : c.strip.content = c.content := content_bare _

@[simp] theorem isIdentity_strip : c.strip.isIdentity = c.isIdentity := by cases c <;> rfl

@[simp] theorem step_strip (d : Direction) : c.strip.step d = c.step d := by
  cases c <;> cases d <;> rfl

@[simp] theorem forward_strip : c.strip.forward = c.forward := step_strip c .forward

@[simp] theorem backward_strip : c.strip.backward = c.backward := step_strip c .backward

@[simp] theorem wrapped_strip (wrap : Step → Step) : c.strip.wrapped wrap = c.wrapped wrap := by
  cases c <;> rfl

@[simp] theorem targets_strip : c.strip.targets = c.targets := by cases c <;> rfl

@[simp] theorem isIdentity_iff : c.isIdentity = true ↔ c.content = none := by
  cases c <;> simp [isIdentity, content]

theorem strip_eq_strip {c d : Converter} (h : c.content = d.content) : c.strip = d.strip :=
  congrArg bare h

end Converter

/-! ## Assembling looks at contents -/

namespace Assembly

open Converter

variable (cs : List Converter)

@[simp] theorem allIdentity_strip : allIdentity (cs.map strip) = allIdentity cs := by
  simp [allIdentity, List.all_map, Function.comp_def]

@[simp] theorem fieldSteps_strip (fields : List Field) (d : Direction) :
    fieldSteps fields (cs.map strip) d = fieldSteps fields cs d := by
  simp [fieldSteps, List.zip_map_right, List.filter_map, Function.comp_def]

@[simp] theorem keyed_strip (fields : List Field) :
    keyed fields (cs.map strip) = keyed fields cs := by
  simp [keyed]

@[simp] theorem positional_strip : positional (cs.map strip) = positional cs := by
  simp [positional, Function.comp_def]

@[simp] theorem record_strip (host native : RecordCarrier) (fields : List Field)
    (slots : List RecordSlot) :
    record host native fields slots (cs.map strip) = record host native fields slots cs := by
  cases host <;> cases native <;> simp [record, toKeyed, toPositional]

theorem spread_map (f : Converter → Converter) :
    ∀ (ks : List Constructor) (cs : List Converter),
      Planner.spread ks (cs.map f) = (Planner.spread ks cs).map (Option.map f)
  | [], _ => rfl
  | ⟨_, none⟩ :: ks, cs => by simp [Planner.spread, spread_map f ks cs]
  | ⟨_, some _⟩ :: ks, c :: cs => by simp [Planner.spread, spread_map f ks cs]
  | ⟨_, some _⟩ :: ks, [] => by simpa [Planner.spread] using spread_map f ks []

@[simp] theorem variant_strip (host native : VariantCarrier) (ks : List Constructor)
    (payloads : List (Option Converter)) :
    variant host native ks (payloads.map (Option.map strip)) = variant host native ks payloads := by
  have filtered : (payloads.map (Option.map strip)).filterMap (fun p => p) =
      (payloads.filterMap fun p => p).map strip := by
    rw [List.filterMap_map, List.map_filterMap]
    rfl
  simp [variant, filtered, cases, List.zip_map_right, Function.comp_def]

@[simp] theorem shim_strip (s : Signature) (convention : Convention) (ret : Converter) :
    shim s convention (cs.map strip) ret.strip = shim s convention cs ret := by
  have args (defaults : List (Option Literal)) :
      argSteps defaults (cs.map strip) = argSteps defaults cs := by
    simp only [argSteps, List.zip_map_right, List.map_map]
    refine List.map_congr_left ?_
    rintro ⟨_ | lit, c⟩ _ <;> simp
  simp [shim, args, Function.comp_def]

@[simp] theorem nullable_strip (c : Converter) : nullable c.strip = nullable c := by
  simp [nullable]

end Assembly

namespace Planner

open Converter

variable {catalog : Catalog} {options : Options} {ty : TyId} {t : Term} {l : Layer}

theorem headD_strip (cs : List Converter) :
    (cs.map strip).headD .identity = (cs.headD .identity).strip := by
  cases cs <;> rfl

theorem getLastD_strip (cs : List Converter) :
    (cs.map strip).getLastD .identity = (cs.getLastD .identity).strip := by
  cases h : cs.getLast? <;> simp [List.getLastD_eq_getLast?, h, strip, content, bare]

/-- What a layer puts together depends on the contents of its parts. -/
theorem assemble_strip (h : layer catalog options ty t = some l) (cs : List Converter) :
    l.assemble (cs.map strip) = l.assemble cs := by
  cases t with
  | scalar | var | opaqueTy | named => cases h
  | record | object | tuple => cases h; simp [assembleRecord]
  | variant => cases h; simp [Assembly.spread_map]
  | array | option | nullable => cases h; simp only [headD_strip]; simp
  | ref => cases h; simp only [headD_strip, assembleCell]; simp
  | function s =>
      rcases layer_function h with ⟨_, -, rfl⟩ | ⟨_, -, rfl⟩
      · rfl
      · simp only [getLastD_strip, ← List.map_dropLast, Assembly.shim_strip]

end Planner

/-! ## Steps inside a converter

What a converter defers to and whether it makes new cells are both told by some step
inside it. The steps that only lead on to others are passed over alike in both cases,
so the ways of putting converters together are gone through once, for any `P` that
`Marks` steps of these two kinds only. -/

namespace Step

/-- The steps right inside a step. -/
def children : Step → List Step
  | .identity | .wrapRecord _ | .unwrapRecord _ | .adaptArity _ | .substituteDefault _
  | .recurse _ _ => []
  | .mapOption s | .mapNullable s | .atField _ s | .passBox s | .rebuildBox s | .mapArray s => [s]
  | .sequence ss | .mapElements ss => ss
  | .retag _ _ cs => cs.filterMap CaseStep.payload
  | .wrapFunction args ret => args ++ [ret]

theorem subStepsOfAll_nil : ∀ ss : List Step, subStepsOfAll ss [] = ss.flatMap subSteps
  | [] => rfl
  | s :: ss => by simp [subStepsOfAll, subStepsOnto_eq s, subStepsOfAll_nil ss]

theorem mem_payloads {cs : List CaseStep} {i : Nat} {s : Step}
    (h : (cs[i]?).bind CaseStep.payload = some s) : s ∈ cs.filterMap CaseStep.payload := by
  obtain ⟨case, hcase, hs⟩ := Option.bind_eq_some_iff.mp h
  exact List.mem_filterMap.mpr ⟨case, List.mem_of_getElem? hcase, hs⟩

theorem subStepsOfCases_nil : ∀ cs : List CaseStep,
    subStepsOfCases cs [] = (cs.filterMap CaseStep.payload).flatMap subSteps
  | [] => rfl
  | ⟨_, none⟩ :: cs => by simp [subStepsOfCases, subStepsOfCases_nil cs]
  | ⟨_, some s⟩ :: cs => by simp [subStepsOfCases, subStepsOnto_eq s, subStepsOfCases_nil cs]

theorem subSteps_eq (s : Step) : s.subSteps = s :: s.children.flatMap subSteps := by
  cases s with
  | wrapFunction args ret =>
      have all : subStepsOfAll args (ret.subStepsOnto []) =
          subStepsOfAll args [] ++ ret.subSteps := by
        rw [← subStepsOfAll_append, List.nil_append]
        rfl
      simp [subSteps, subStepsOnto, children, all, subStepsOfAll_nil]
  | _ => simp [subSteps, subStepsOnto, children, subStepsOfAll_nil, subStepsOfCases_nil]

/-- A step of which `P` holds is inside. -/
def Has (P : Step → Prop) (s : Step) : Prop := ∃ t ∈ s.subSteps, P t

/-- `P` holds of no steps but those that defer, and alike of all that make a new cell. -/
structure Marks (P : Step → Prop) (cells : Prop) : Prop where
  only : ∀ s, P s → s.target? ≠ none ∨ s.isRebuild = true
  rebuild : ∀ s, P (.rebuildBox s) ↔ cells

variable {P : Step → Prop} {cells : Prop} {s : Step} {ss : List Step}

theorem has_iff : s.Has P ↔ P s ∨ ∃ t ∈ s.children, t.Has P := by
  unfold Has
  rw [subSteps_eq]
  simp only [List.mem_cons, List.mem_flatMap, or_and_right, exists_or, exists_eq_left]
  refine or_congr_right ⟨?_, ?_⟩
  · rintro ⟨t, ⟨u, hu, ht⟩, hP⟩
    exact ⟨u, hu, t, ht, hP⟩
  · rintro ⟨u, hu, t, ht, hP⟩
    exact ⟨t, ⟨u, hu, ht⟩, hP⟩

namespace Marks

variable (hP : Marks P cells)
include hP

/-- A step that neither defers nor makes a cell has what the steps inside it have. -/
theorem has (h : s.target? = none) (h' : s.isRebuild = false) :
    s.Has P ↔ ∃ t ∈ s.children, t.Has P := by
  refine has_iff.trans (or_iff_right fun hs => ?_)
  rcases hP.only s hs with hs | hs
  · exact hs h
  · rw [h'] at hs; cases hs

@[simp] theorem not_identity : ¬identity.Has P := by simp [hP.has (s := .identity) rfl rfl, children]

theorem parts : (∃ p ∈ s.parts, p.Has P) ↔ s.Has P := by
  cases s with
  | identity => simp [Step.parts, hP.not_identity]
  | sequence ss => exact (hP.has (s := .sequence ss) rfl rfl).symm
  | _ => simp [Step.parts]

/-- A sequence has what its steps have. -/
theorem seq : (seq ss).Has P ↔ ∃ s ∈ ss, s.Has P := by
  have flat : (Step.seq ss).Has P ↔ ∃ s ∈ ss.flatMap Step.parts, s.Has P := by
    unfold Step.seq
    split
    · next h => simp [h, hP.not_identity]
    · next s h => simp [h]
    · exact hP.has (s := .sequence _) rfl rfl
  rw [flat]
  constructor
  · rintro ⟨p, hp, h⟩
    obtain ⟨s, hs, hp⟩ := List.mem_flatMap.mp hp
    exact ⟨s, hs, hP.parts.mp ⟨p, hp, h⟩⟩
  · rintro ⟨s, hs, h⟩
    obtain ⟨p, hp, h⟩ := hP.parts.mpr h
    exact ⟨p, List.mem_flatMap.mpr ⟨s, hs, hp⟩, h⟩

end Marks

/-- Deferring to one type. -/
theorem marks_target (u : TyId) : Marks (fun s => s.target? = some u) False where
  only _ h := .inl (h ▸ nofun)
  rebuild s := by simp [target?]

/-- Making a new cell. -/
theorem marks_rebuild : Marks (fun s => s.isRebuild = true) True where
  only _ h := .inr h
  rebuild s := by simp [isRebuild]

end Step

namespace Converter

open Step

variable {P : Step → Prop} {cells : Prop} {c : Converter} {f b : Step} {u : TyId}

/-- A step of which `P` holds is inside one of the halves. -/
def Has (P : Step → Prop) (c : Converter) : Prop := ∃ t ∈ c.subSteps, P t

theorem has_custom {stamp : Nat} : (custom stamp f b).Has P ↔ f.Has P ∨ b.Has P := by
  simp [Has, subSteps, subStepsOnto_eq f, Step.Has, or_and_right, exists_or]

theorem has_bare : (bare (some (f, b))).Has P ↔ f.Has P ∨ b.Has P := has_custom

theorem not_has_of_none (h : c.content = none) : ¬c.Has P := by
  cases c with
  | identity => simp [Has, subSteps]
  | custom => cases h

@[simp] theorem not_has_bare_none : ¬(bare none).Has P := not_has_of_none rfl

@[simp] theorem has_strip : c.strip.Has P ↔ c.Has P := by cases c <;> rfl

section Marked

variable (hP : Marks P cells)
include hP

theorem has_iff : c.Has P ↔ c.forward.Has P ∨ c.backward.Has P := by
  cases c with
  | identity =>
      exact iff_of_false (not_has_of_none rfl) (not_or.mpr ⟨hP.not_identity, hP.not_identity⟩)
  | custom => exact has_custom

/-- A step that has something is the step of a converter that converts. -/
theorem not_isIdentity_of_has {d : Direction} (h : (c.step d).Has P) : c.isIdentity = false := by
  cases c with
  | identity => exact absurd h hP.not_identity
  | custom => rfl

end Marked

theorem mem_foldl_distinct (ids : List TyId) : ∀ acc : List TyId,
    u ∈ ids.foldl (fun acc t => if acc.contains t then acc else acc ++ [t]) acc ↔
      u ∈ acc ∨ u ∈ ids := by
  induction ids with
  | nil => simp
  | cons t ids ih =>
      intro acc
      rw [List.foldl_cons, ih]
      split
      · next h =>
          have := List.contains_iff_mem.mp h
          simp only [List.mem_cons]
          exact ⟨fun h => h.elim .inl fun h => .inr (.inr h), fun h => h.elim .inl fun h =>
            h.elim (fun h => .inl (h ▸ this)) .inr⟩
      · simp [or_assoc]

@[simp] theorem mem_distinct {ids : List TyId} : u ∈ distinct ids ↔ u ∈ ids := by
  rw [distinct, mem_foldl_distinct]
  simp

theorem mem_targets : u ∈ c.targets ↔ c.Has fun s => s.target? = some u := by
  simp [targets, Has]

end Converter

namespace Assembly

open Converter Step

variable {u : TyId} {fields : List Field} {cs : List Converter} {P : Step → Prop} {cells : Prop}

theorem not_has_of_allIdentity (h : allIdentity cs = true) : ¬∃ c ∈ cs, c.Has P := by
  rintro ⟨c, hc, hu⟩
  exact not_has_of_none ((isIdentity_iff c).mp (List.all_eq_true.mp h c hc)) hu

theorem exists_zip {α β : Type} {xs : List α} {ys : List β} (hlen : ys.length = xs.length) {y : β}
    (hy : y ∈ ys) : ∃ x, (x, y) ∈ xs.zip ys := by
  obtain ⟨i, hi, rfl⟩ := List.mem_iff_getElem.mp hy
  exact ⟨xs[i], List.mem_iff_getElem.mpr ⟨i, by simp [hi, ← hlen], by simp⟩⟩

theorem length_spread : ∀ (ks : List Constructor) (cs : List Converter),
    (Planner.spread ks cs).length = ks.length
  | [], _ => rfl
  | ⟨_, none⟩ :: ks, cs => by simp [Planner.spread, length_spread ks cs]
  | ⟨_, some _⟩ :: ks, c :: cs => by simp [Planner.spread, length_spread ks cs]
  | ⟨_, some _⟩ :: ks, [] => by simp [Planner.spread, length_spread ks []]

/-- Spreading converters over constructors loses none of them. -/
theorem filterMap_spread : ∀ {ks : List Constructor} {cs : List Converter},
    cs.length = (ks.filterMap Planner.Part.ofConstructor).length →
      (Planner.spread ks cs).filterMap (fun p => p) = cs
  | [], [], _ => rfl
  | ⟨_, none⟩ :: ks, cs, h => by
      simpa [Planner.spread] using @filterMap_spread ks cs h
  | ⟨_, some _⟩ :: ks, c :: cs, h => by
      simpa [Planner.spread] using @filterMap_spread ks cs
        (by simpa [Planner.Part.ofConstructor] using h)
  | ⟨_, some _⟩ :: ks, [], h => by simp [Planner.Part.ofConstructor] at h

theorem filterMap_cases (d : Direction) : ∀ {ks : List Constructor} {ps : List (Option Converter)},
    ps.length = ks.length → (cases ks ps d).filterMap CaseStep.payload =
      (ps.filterMap fun p => p).map fun c => c.step d
  | [], [], _ => rfl
  | k :: ks, none :: ps, h => by
      simpa [cases] using filterMap_cases d (by simpa using h)
  | k :: ks, some c :: ps, h => by
      simpa [cases] using filterMap_cases d (by simpa using h)

/-- What the payloads of a variant go through are halves of their converters. -/
theorem mem_cases {d : Direction} {ks : List Constructor} {ps : List (Option Converter)} {s : Step}
    (h : s ∈ (cases ks ps d).filterMap CaseStep.payload) :
    ∃ c ∈ ps.filterMap fun p => p, c.step d = s := by
  obtain ⟨case, hcase, hs⟩ := List.mem_filterMap.mp h
  obtain ⟨⟨constructor, p⟩, hp, rfl⟩ := List.mem_map.mp hcase
  obtain ⟨c, rfl, rfl⟩ := Option.map_eq_some_iff.mp hs
  exact ⟨c, List.mem_filterMap.mpr ⟨some c, (List.of_mem_zip hp).2, rfl⟩, rfl⟩

section Marked

variable (hP : Marks P cells)
include hP

theorem exists_has :
    (∃ c ∈ cs, c.Has P) ↔ (∃ c ∈ cs, c.forward.Has P) ∨ ∃ c ∈ cs, c.backward.Has P := by
  simp only [Converter.has_iff hP, and_or_left, exists_or]

theorem fieldSteps_has (hlen : cs.length = fields.length) (d : Direction) :
    (∃ s ∈ fieldSteps fields cs d, s.Has P) ↔ ∃ c ∈ cs, (c.step d).Has P := by
  have field (n : String) (s : Step) : (atField n s).Has P ↔ s.Has P := by
    simp [hP.has (s := .atField n s) rfl rfl, children]
  simp only [fieldSteps, List.mem_map, List.mem_filter]
  constructor
  · rintro ⟨s, ⟨⟨f, c⟩, ⟨hfc, -⟩, rfl⟩, hu⟩
    exact ⟨c, (List.of_mem_zip hfc).2, (field _ _).mp hu⟩
  · rintro ⟨c, hc, hu⟩
    obtain ⟨f, hfc⟩ := exists_zip hlen hc
    exact ⟨_, ⟨(f, c), ⟨hfc, by simp [not_isIdentity_of_has hP hu]⟩, rfl⟩, (field _ _).mpr hu⟩

theorem keyed_has (hlen : cs.length = fields.length) :
    (bare (keyed fields cs)).Has P ↔ ∃ c ∈ cs, c.Has P := by
  unfold keyed
  split
  · next h => exact iff_of_false not_has_bare_none (not_has_of_allIdentity h)
  · rw [has_bare, hP.seq, hP.seq, fieldSteps_has hP hlen, fieldSteps_has hP hlen, exists_has hP]
    rfl

theorem positional_has : (bare (positional cs)).Has P ↔ ∃ c ∈ cs, c.Has P := by
  unfold positional
  split
  · next h => exact iff_of_false not_has_bare_none (not_has_of_allIdentity h)
  · rw [has_bare, exists_has hP, hP.has rfl rfl, hP.has rfl rfl]
    simp [children]

theorem record_has (host native : RecordCarrier) (slots : List RecordSlot)
    (hlen : cs.length = fields.length) :
    (bare (record host native fields slots cs)).Has P ↔ ∃ c ∈ cs, c.Has P := by
  have wrapped (d : Direction) :
      (toPositional fields slots cs d).Has P ↔ ∃ c ∈ cs, (c.step d).Has P := by
    rw [toPositional, hP.seq, ← fieldSteps_has hP hlen d]
    simp [or_and_right, exists_or, hP.has (s := .wrapRecord slots) rfl rfl, children]
  have unwrapped (d : Direction) :
      (toKeyed fields slots cs d).Has P ↔ ∃ c ∈ cs, (c.step d).Has P := by
    rw [toKeyed, hP.seq, ← fieldSteps_has hP hlen d]
    simp [hP.has (s := .unwrapRecord slots) rfl rfl, children]
  cases host <;> cases native
  · exact keyed_has hP hlen
  · rw [record, has_bare, wrapped, unwrapped, exists_has hP]
    rfl
  · rw [record, has_bare, wrapped, unwrapped, exists_has hP]
    rfl
  · exact positional_has hP

theorem variant_has (host native : VariantCarrier) {ks : List Constructor}
    (hlen : cs.length = (ks.filterMap Planner.Part.ofConstructor).length) :
    (bare (variant host native ks (Planner.spread ks cs))).Has P ↔ ∃ c ∈ cs, c.Has P := by
  have each (d : Direction) (x y : VariantCarrier) :
      (retag x y (cases ks (Planner.spread ks cs) d)).Has P ↔ ∃ c ∈ cs, (c.step d).Has P := by
    rw [hP.has rfl rfl, children, filterMap_cases d (length_spread ks cs), filterMap_spread hlen]
    simp
  unfold variant
  split
  · next h =>
      rw [filterMap_spread hlen] at h
      exact iff_of_false not_has_bare_none (not_has_of_allIdentity h.2)
  · rw [has_bare, each, each, exists_has hP]
    rfl

theorem wrapFunction_has {args : List Step} {ret : Step} :
    (Assembly.wrapFunction args ret).Has P ↔ (∃ s ∈ args, s.Has P) ∨ ret.Has P := by
  unfold Assembly.wrapFunction
  split
  · next h =>
      -- An identity step has nothing inside, so dropping the wrapper loses nothing.
      have idle {s : Step} (hs : s.isIdentity = true) : ¬s.Has P := by
        cases s <;> first | exact hP.not_identity | cases hs
      obtain ⟨hargs, hret⟩ := Bool.and_eq_true_iff.mp h
      refine iff_of_false hP.not_identity ?_
      rintro (⟨s, hs, hu⟩ | hu)
      · exact idle (List.all_eq_true.mp hargs s hs) hu
      · exact idle hret hu
  · rw [hP.has rfl rfl, children]
    simp [or_and_right, exists_or]

theorem argSteps_has {defaults : List (Option Literal)} (hlen : cs.length = defaults.length) :
    (∃ s ∈ argSteps defaults cs, s.Has P) ↔ ∃ c ∈ cs, c.forward.Has P := by
  have filled (lit : Literal) (c : Converter) :
      (Step.seq [.substituteDefault lit, c.forward]).Has P ↔ c.forward.Has P := by
    simp [hP.seq, hP.has (s := .substituteDefault lit) rfl rfl, children]
  simp only [argSteps, List.mem_map]
  constructor
  · rintro ⟨_, ⟨⟨lit, c⟩, h, rfl⟩, hu⟩
    refine ⟨c, (List.of_mem_zip h).2, ?_⟩
    cases lit with
    | none => exact hu
    | some lit => exact (filled lit c).mp hu
  · rintro ⟨c, hc, hu⟩
    obtain ⟨lit, h⟩ := exists_zip hlen hc
    refine ⟨_, ⟨(lit, c), h, rfl⟩, ?_⟩
    cases lit with
    | none => exact hu
    | some lit => exact (filled lit c).mpr hu

theorem shim_has (s : Signature) (convention : Convention) (ret : Converter) :
    (bare (shim s convention cs ret)).Has P ↔ (∃ c ∈ cs, c.Has P) ∨ ret.Has P := by
  unfold shim
  simp only
  split
  · next h =>
      simp only [Bool.and_eq_true] at h
      refine iff_of_false not_has_bare_none ?_
      rintro (hu | hu)
      · exact not_has_of_allIdentity h.1.2 hu
      · exact not_has_of_none ((isIdentity_iff ret).mp h.2) hu
  · have check (adapter : Adapter) : ¬(adaptArity adapter).Has P := by
      simp [hP.has (s := .adaptArity adapter) rfl rfl, children]
    rw [has_bare, hP.seq, hP.seq, exists_has hP, Converter.has_iff hP]
    simp only [List.mem_cons, List.not_mem_nil, or_false, exists_eq_or_imp, exists_eq_left, check,
      wrapFunction_has hP]
    rw [argSteps_has hP (by simp)]
    simp only [List.mem_map, exists_exists_and_eq_and]
    exact or_or_or_comm.trans (or_congr_left or_comm)

end Marked

theorem allIdentity_iff : allIdentity cs = true ↔ ∀ c ∈ cs, c.content = none := by
  simp [allIdentity, List.all_eq_true]

theorem record_eq_none (host native : RecordCarrier) (slots : List RecordSlot) :
    record host native fields slots cs = none ↔ host = native ∧ allIdentity cs = true := by
  cases host <;> cases native <;> simp [record, keyed, positional]

theorem variant_eq_none (host native : VariantCarrier) (ks : List Constructor)
    (payloads : List (Option Converter)) : variant host native ks payloads = none ↔
      host = native ∧ allIdentity (payloads.filterMap fun p => p) = true := by
  simp [variant]

theorem shim_eq_none (s : Signature) (convention : Convention) (ret : Converter) :
    shim s convention cs ret = none ↔ (s.params.length ≤ 1 ∧
      (s.params.any fun p => p.role.isOptional) = false) ∧ allIdentity cs = true ∧
        ret.content = none := by
  simp only [shim]
  split <;> simp_all

end Assembly

/-! ## What is shown of every layer -/

/-- A type that is converted whatever its parts are. -/
def Term.Intrinsic (options : Options) : Term → Prop
  | .nullable _ | .ref _ => True
  | .record _ => options.host.records ≠ options.native.records
  | .variant _ => options.host.variants ≠ options.native.variants
  | .function s => 1 < s.params.length ∨ s.params.any (fun p => p.role.isOptional) = true
  | _ => False

namespace Planner

open Converter Assembly

variable {catalog : Catalog} {options : Options} {ty : TyId} {t : Term} {l : Layer}

/-- The last converter and those before it. -/
theorem mem_iff_dropLast {cs : List Converter} {n : Nat} (hlen : cs.length = n + 1)
    {c : Converter} : c ∈ cs ↔ c ∈ cs.dropLast ∨ c = cs.getLastD .identity := by
  obtain rfl | ⟨ds, d, rfl⟩ := List.eq_nil_or_concat cs
  · cases hlen
  · simp

theorem recordSlot_name {f : Field} {slot : RecordSlot} {s s' : PlanState}
    (h : recordSlot catalog f s = (.ok slot, s')) : slot.name = f.name := by
  unfold recordSlot at h
  split at h
  · cases h
    rfl
  · rcases PlanM.bind_cases h with ⟨e, -, ⟨⟩⟩ | ⟨b, s₁, -, hs⟩
    cases hs
    rfl

/-- What a layer puts together is an assembly of its parts' converters. -/
theorem assemble_record {fields : List Field} {cs : List Converter} {s s' : PlanState}
    {content : Content} (h : assembleRecord catalog options fields cs s = (.ok content, s')) :
    ∃ slots, slots.map RecordSlot.name = fields.map Field.name ∧
      content = record options.host.records options.native.records fields slots cs := by
  rcases PlanM.bind_cases h with ⟨e, -, ⟨⟩⟩ | ⟨slots, s₁, hslots, hs⟩
  cases hs
  refine ⟨slots, ?_, rfl⟩
  have traces := mapM_eq_ok hslots
  clear hslots h
  induction traces with
  | nil => rfl
  | cons hslot _ ih => rw [List.map_cons, List.map_cons, recordSlot_name hslot, ih]

theorem assemble_cell {c : Converter} {s s' : PlanState} {content : Content}
    (h : assembleCell options ty c s = (.ok content, s')) :
    content = some (.passBox .identity, .passBox .identity) ∧ c.content = none ∨
      content = c.wrapped .rebuildBox ∧ c.content ≠ none ∧ options.refs = .allowRebuild := by
  unfold assembleCell at h
  by_cases hc : c.isIdentity = true
  · rw [if_pos hc] at h
    cases h
    exact .inl ⟨rfl, (isIdentity_iff c).mp hc⟩
  · rw [if_neg hc] at h
    cases hr : options.refs with
    | preserve => rw [hr] at h; cases h
    | allowRebuild =>
        rw [hr] at h
        cases h
        exact .inr ⟨rfl, fun hn => hc ((isIdentity_iff c).mpr hn), rfl⟩

theorem wrapped_eq_none {wrap : Step → Step} {c : Converter} :
    c.wrapped wrap = none ↔ c.content = none := by
  simp [wrapped]

theorem wrapped_has {P : Step → Prop} {wrap : Step → Step} {c : Converter}
    (h : ∀ s, (wrap s).Has P ↔ s.Has P) : (bare (c.wrapped wrap)).Has P ↔ c.Has P := by
  cases c with
  | identity => rfl
  | custom stamp f b =>
      simp only [wrapped, content, Option.map_some, has_bare, has_custom, h]

theorem length_ofSignature (convention : Convention) (s : Signature) :
    ∃ n, (Part.ofSignature convention s).length = n + 1 := by
  simp [Part.ofSignature]

theorem eq_singleton {cs : List Converter} {p : Part} (hlen : cs.length = [p].length) :
    ∃ c, cs = [c] := List.length_eq_one_iff.mp hlen

/-- Nothing has to be done for a type that is not converted by itself, and for
whose parts nothing has to be done. -/
theorem assemble_eq_none (h : layer catalog options ty t = some l) {cs : List Converter}
    (hlen : cs.length = l.parts.length) {s s' : PlanState} {content : Content}
    (ha : l.assemble cs s = (.ok content, s')) :
    content = none ↔ ¬t.Intrinsic options ∧ ∀ c ∈ cs, c.content = none := by
  cases t with
  | scalar | var | opaqueTy | named => cases h
  | record fields =>
      cases h
      obtain ⟨slots, -, rfl⟩ := assemble_record ha
      rw [record_eq_none, allIdentity_iff, Term.Intrinsic, not_not]
  | object fields => cases h; cases ha; simp [keyed, Term.Intrinsic, allIdentity_iff]
  | tuple => cases h; cases ha; simp [positional, Term.Intrinsic, allIdentity_iff]
  | variant ks =>
      cases h
      cases ha
      rw [variant_eq_none, filterMap_spread hlen, allIdentity_iff, Term.Intrinsic, not_not]
  | array | option =>
      cases h
      cases ha
      obtain ⟨c, rfl⟩ := eq_singleton hlen
      simp [wrapped_eq_none, Term.Intrinsic]
  | nullable => cases h; cases ha; simp [Assembly.nullable, Term.Intrinsic]
  | ref =>
      cases h
      refine iff_of_false ?_ (by simp [Term.Intrinsic])
      rcases assemble_cell ha with ⟨rfl, -⟩ | ⟨rfl, hc, -⟩
      · simp
      · exact fun hn => hc (wrapped_eq_none.mp hn)
  | function sig =>
      rcases layer_function h with ⟨_, -, rfl⟩ | ⟨convention, -, rfl⟩
      · cases ha
      · cases ha
        obtain ⟨n, hn⟩ := length_ofSignature convention sig
        have all : (∀ c ∈ cs, c.content = none) ↔
            (∀ c ∈ cs.dropLast, c.content = none) ∧ (cs.getLastD .identity).content = none := by
          simp only [mem_iff_dropLast (hlen.trans hn), or_imp, forall_and, forall_eq]
        rw [shim_eq_none, allIdentity_iff, all, Term.Intrinsic, not_or, Bool.not_eq_true,
          Nat.not_lt]

/-- A layer has what its parts have, and it makes a new cell if it is a cell whose contents
are converted. -/
theorem assemble_has {P : Step → Prop} {cells : Prop} (hP : Step.Marks P cells)
    (h : layer catalog options ty t = some l) {cs : List Converter}
    (hlen : cs.length = l.parts.length) {s s' : PlanState} {content : Content}
    (ha : l.assemble cs s = (.ok content, s')) :
    (bare content).Has P ↔ (∃ c ∈ cs, c.Has P) ∨
      cells ∧ (∃ contents, t = .ref contents) ∧ ∃ c ∈ cs, c.content ≠ none := by
  have plain (inner : Step) (wrap : Step → Step) (ht : (wrap inner).target? = none)
      (hr : (wrap inner).isRebuild = false) (hc : (wrap inner).children = [inner]) :
      (wrap inner).Has P ↔ inner.Has P := by
    rw [hP.has ht hr, hc]
    simp
  have notRef (h : ∀ contents, t ≠ .ref contents) :
      (∃ c ∈ cs, c.Has P) ∨ cells ∧ (∃ contents, t = .ref contents) ∧
        (∃ c ∈ cs, c.content ≠ none) ↔ ∃ c ∈ cs, c.Has P :=
    or_iff_left (by rintro ⟨-, ⟨contents, ht⟩, -⟩; exact h contents ht)
  cases t with
  | scalar | var | opaqueTy | named => cases h
  | record fields =>
      cases h
      obtain ⟨slots, -, rfl⟩ := assemble_record ha
      rw [notRef (by simp)]
      exact record_has hP _ _ slots (by simpa using hlen)
  | object fields =>
      cases h
      cases ha
      rw [notRef (by simp)]
      exact keyed_has hP (by simpa using hlen)
  | tuple => cases h; cases ha; rw [notRef (by simp)]; exact positional_has hP
  | variant ks => cases h; cases ha; rw [notRef (by simp)]; exact variant_has hP _ _ hlen
  | array =>
      cases h
      cases ha
      obtain ⟨c, rfl⟩ := eq_singleton hlen
      rw [notRef (by simp)]
      simpa using wrapped_has fun s => plain s .mapArray rfl rfl rfl
  | option =>
      cases h
      cases ha
      obtain ⟨c, rfl⟩ := eq_singleton hlen
      rw [notRef (by simp)]
      simpa using wrapped_has fun s => plain s .mapOption rfl rfl rfl
  | nullable =>
      cases h
      cases ha
      obtain ⟨c, rfl⟩ := eq_singleton hlen
      rw [notRef (by simp), Assembly.nullable, has_bare, plain _ .mapNullable rfl rfl rfl,
        plain _ .mapNullable rfl rfl rfl]
      simpa using (Converter.has_iff hP (c := c)).symm
  | ref =>
      cases h
      obtain ⟨c, rfl⟩ := eq_singleton hlen
      rcases assemble_cell ha with ⟨rfl, hc⟩ | ⟨rfl, hc, -⟩
      · have pass : ¬(Step.passBox .identity).Has P := by
          rw [plain _ .passBox rfl rfl rfl]
          exact hP.not_identity
        have none : c.content = none := hc
        simp [has_bare, pass, not_has_of_none none, none]
      · have rebuild (s : Step) : (Step.rebuildBox s).Has P ↔ cells ∨ s.Has P := by
          simp [Step.has_iff (s := .rebuildBox s), Step.children, hP.rebuild]
        cases c with
        | identity => exact absurd rfl hc
        | custom stamp f b =>
            simp only [List.headD_cons, wrapped, Converter.content, Option.map_some, has_bare,
              has_custom, rebuild, List.mem_singleton, exists_eq_left, ne_eq, reduceCtorEq,
              not_false_eq_true, and_true, Term.ref.injEq, exists_eq']
            rw [or_or_or_comm, or_self, or_comm]
  | function sig =>
      rcases layer_function h with ⟨_, -, rfl⟩ | ⟨convention, -, rfl⟩
      · cases ha
      · cases ha
        obtain ⟨n, hn⟩ := length_ofSignature convention sig
        rw [notRef (by simp), shim_has hP]
        simp only [mem_iff_dropLast (hlen.trans hn), or_and_right, exists_or, exists_eq_left]

end Planner

end Marshal
