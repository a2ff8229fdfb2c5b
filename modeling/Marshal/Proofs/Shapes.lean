import Marshal.Proofs.Checks

/-!
# The shape of planned steps

Steps describe more than planners put together. In a planned converter the keys that a
positional record is given are different, defaults are filled in nowhere but among the
arguments of a function wrapper, and there are function wrappers only where a function type is
reached. `Orderly` is that shape, and every canonical content has it (`World.Canon.orderly`), so
what is proved of orderly steps holds of planned converters.
-/

namespace Marshal

open Converter

namespace Step

/-- Where values pass, this is a step of the planner's making. It wraps a function only if
`functions` holds, and what it defers to is in `Q`. -/
inductive Orderly (functions : Prop) (Q : TyId → Prop) : Step → Prop
  | identity : Orderly functions Q .identity
  | wrapRecord (slots : List RecordSlot) : Orderly functions Q (.wrapRecord slots)
  | unwrapRecord {slots : List RecordSlot} : (slots.map RecordSlot.name).Nodup →
      Orderly functions Q (.unwrapRecord slots)
  | mapOption {s : Step} : Orderly functions Q s → Orderly functions Q (.mapOption s)
  | mapNullable {s : Step} : Orderly functions Q s → Orderly functions Q (.mapNullable s)
  | atField {name : String} {s : Step} :
      Orderly functions Q s → Orderly functions Q (.atField name s)
  | adaptArity (adapter : Adapter) : functions → Orderly functions Q (.adaptArity adapter)
  | passBox (s : Step) : Orderly functions Q (.passBox s)
  | rebuildBox {s : Step} : Orderly functions Q s → Orderly functions Q (.rebuildBox s)
  | sequence {ss : List Step} : (∀ s ∈ ss, Orderly functions Q s) →
      Orderly functions Q (.sequence ss)
  | mapElements {ss : List Step} : (∀ s ∈ ss, Orderly functions Q s) →
      Orderly functions Q (.mapElements ss)
  | mapArray {s : Step} : Orderly functions Q s → Orderly functions Q (.mapArray s)
  | retag {source target : VariantCarrier} {cases : List CaseStep} :
      (∀ s ∈ cases.filterMap CaseStep.payload, Orderly functions Q s) →
      Orderly functions Q (.retag source target cases)
  | wrapFunction (args : List Step) (ret : Step) : functions →
      Orderly functions Q (.wrapFunction args ret)
  | recurse {ty : TyId} (d : Direction) : Q ty → Orderly functions Q (.recurse ty d)

namespace Orderly

variable {functions : Prop} {Q : TyId → Prop} {s : Step}

theorem parts (h : Orderly functions Q s) : ∀ p ∈ s.parts, Orderly functions Q p := by
  cases s with
  | identity => intro p hp; cases hp
  | sequence ss => cases h with | sequence all => exact all
  | _ => intro p hp; cases List.mem_singleton.mp hp; exact h

theorem seq {ss : List Step} (h : ∀ s ∈ ss, Orderly functions Q s) :
    Orderly functions Q (.seq ss) := by
  have flat : ∀ p ∈ ss.flatMap Step.parts, Orderly functions Q p := by
    intro p hp
    obtain ⟨s, hs, hp⟩ := List.mem_flatMap.mp hp
    exact (h s hs).parts p hp
  unfold Step.seq
  split
  · exact .identity
  · next p hp => exact flat p (by simp [hp])
  · exact .sequence flat

end Orderly

end Step

namespace Converter

/-- Both halves are orderly. -/
def Orderly (functions : Prop) (Q : TyId → Prop) (c : Converter) : Prop :=
  ∀ d, Step.Orderly functions Q (c.step d)

variable {functions : Prop} {Q : TyId → Prop} {f b : Step} {cs : List Converter} {c : Converter}

theorem orderly_identity : Orderly functions Q .identity := fun d => by cases d <;> exact .identity

theorem orderly_none : (bare none).Orderly functions Q := orderly_identity

theorem orderly_some (hf : Step.Orderly functions Q f) (hb : Step.Orderly functions Q b) :
    (bare (some (f, b))).Orderly functions Q
  | .forward => hf
  | .backward => hb

theorem orderly_strip : c.strip.Orderly functions Q ↔ c.Orderly functions Q := by simp [Orderly]

theorem Orderly.wrapped (h : c.Orderly functions Q) {wrap : Step → Step}
    (hwrap : ∀ s, Step.Orderly functions Q s → Step.Orderly functions Q (wrap s)) :
    (bare (c.wrapped wrap)).Orderly functions Q := by
  cases c with
  | identity => exact orderly_identity
  | custom stamp f b => exact orderly_some (hwrap f (h .forward)) (hwrap b (h .backward))

theorem orderly_headD (h : ∀ c ∈ cs, c.Orderly functions Q) :
    (cs.headD .identity).Orderly functions Q := by
  cases cs with
  | nil => exact orderly_identity
  | cons c cs => exact h c (List.mem_cons_self ..)

end Converter

/-! ## Assemblies -/

namespace Assembly

open Step

variable {functions : Prop} {Q : TyId → Prop} {fields : List Field} {cs : List Converter}

theorem orderly_fieldSteps (h : ∀ c ∈ cs, c.Orderly functions Q) (d : Direction) :
    ∀ s ∈ fieldSteps fields cs d, Step.Orderly functions Q s := by
  intro s hs
  obtain ⟨⟨f, c⟩, hfc, rfl⟩ := List.mem_map.mp hs
  exact .atField (h c (List.of_mem_zip (List.mem_filter.mp hfc).1).2 d)

theorem orderly_keyed (h : ∀ c ∈ cs, c.Orderly functions Q) :
    (bare (keyed fields cs)).Orderly functions Q := by
  unfold keyed
  split
  · exact orderly_none
  · exact orderly_some (.seq (orderly_fieldSteps h _)) (.seq (orderly_fieldSteps h _))

theorem orderly_positional (h : ∀ c ∈ cs, c.Orderly functions Q) :
    (bare (positional cs)).Orderly functions Q := by
  have all (d : Direction) : ∀ s ∈ cs.map (fun c => c.step d), Step.Orderly functions Q s := by
    intro s hs
    obtain ⟨c, hc, rfl⟩ := List.mem_map.mp hs
    exact h c hc d
  unfold positional
  split
  · exact orderly_none
  · exact orderly_some (.mapElements (all .forward)) (.mapElements (all .backward))

theorem orderly_record (host native : RecordCarrier) {slots : List RecordSlot}
    (hslots : (slots.map RecordSlot.name).Nodup) (h : ∀ c ∈ cs, c.Orderly functions Q) :
    (bare (record host native fields slots cs)).Orderly functions Q := by
  have wrapped (d : Direction) : Step.Orderly functions Q (toPositional fields slots cs d) := by
    refine .seq fun s hs => ?_
    rcases List.mem_append.mp hs with hs | hs
    · exact orderly_fieldSteps h d s hs
    · cases List.mem_singleton.mp hs
      exact .wrapRecord slots
  have unwrapped (d : Direction) : Step.Orderly functions Q (toKeyed fields slots cs d) := by
    refine .seq fun s hs => ?_
    rcases List.mem_cons.mp hs with rfl | hs
    · exact .unwrapRecord hslots
    · exact orderly_fieldSteps h d s hs
  cases host <;> cases native
  · exact orderly_keyed h
  · exact orderly_some (wrapped _) (unwrapped _)
  · exact orderly_some (unwrapped _) (wrapped _)
  · exact orderly_positional h

theorem orderly_variant (host native : VariantCarrier) (ks : List Constructor)
    (payloads : List (Option Converter))
    (h : ∀ c ∈ payloads.filterMap fun p => p, c.Orderly functions Q) :
    (bare (variant host native ks payloads)).Orderly functions Q := by
  have all (d : Direction) :
      ∀ s ∈ (cases ks payloads d).filterMap CaseStep.payload, Step.Orderly functions Q s := by
    intro s hs
    obtain ⟨c, hc, rfl⟩ := mem_cases hs
    exact h c hc d
  unfold variant
  split
  · exact orderly_none
  · exact orderly_some (.retag (all .forward)) (.retag (all .backward))

/-- Only the outer layer of a function's converter is run on a function. -/
theorem orderly_shim (hf : functions) (s : Signature) (convention : Convention) (ret : Converter) :
    (bare (shim s convention cs ret)).Orderly functions Q := by
  have wrapper (args : List Step) (ret : Step) :
      Step.Orderly functions Q
        (.seq [wrapFunction args ret, .adaptArity convention.countOnly]) := by
    refine .seq fun s hs => ?_
    rcases List.mem_cons.mp hs with rfl | hs
    · unfold wrapFunction
      split
      · exact .identity
      · exact .wrapFunction args ret hf
    · cases List.mem_singleton.mp hs
      exact .adaptArity _ hf
  unfold shim
  simp only
  split
  · exact orderly_none
  · exact orderly_some (wrapper _ _) (wrapper _ _)

end Assembly

/-! ## Canonical contents -/

namespace Planner

open Assembly

theorem mem_spread {c : Converter} : ∀ {ks : List Constructor} {cs : List Converter},
    c ∈ (spread ks cs).filterMap (fun p => p) → c ∈ cs
  | [], _, h => by cases h
  | ⟨_, none⟩ :: ks, cs, h => mem_spread (by simpa [spread] using h)
  | ⟨_, some _⟩ :: ks, c :: cs, h => by
      rcases List.mem_cons.mp h with rfl | h
      · exact List.mem_cons_self ..
      · exact List.mem_cons_of_mem _ (mem_spread h)
  | ⟨_, some _⟩ :: ks, [], h => mem_spread (by simpa [spread] using h)

end Planner

namespace World

open Planner PlanM Assembly

variable {w : World} {x : TyId} {t : Term} {l : Layer} {content : Content} {functions : Prop}
  {Q : TyId → Prop}

/-- A recursive type whose converter a planner may defer to. -/
def Deferrable (w : World) (x : TyId) : Prop := w.Good x ∧ w.Recursive x ∧ w.Converts x

/-- What a layer puts together of orderly converters is orderly. -/
theorem assemble_orderly {cs : List Converter} (hl : w.layer? x t = some l)
    (hbefore : w.Answers l.before (.ok ())) (ha : w.Answers (l.assemble cs) (.ok content))
    (hfunction : ∀ sig, t = .function sig → functions) (hcs : ∀ c ∈ cs, c.Orderly functions Q) :
    (bare content).Orderly functions Q := by
  have run := ha (blank w.arena) rfl
  cases t with
  | scalar | var | opaqueTy | named => cases hl
  | record fields =>
      cases hl
      obtain ⟨slots, hnames, rfl⟩ := assemble_record run
      exact orderly_record _ _ (hnames ▸ uniqueFields_spec hbefore) hcs
  | object => cases hl; cases run; exact orderly_keyed hcs
  | tuple => cases hl; cases run; exact orderly_positional hcs
  | variant ks =>
      cases hl
      cases run
      exact orderly_variant _ _ ks _ fun c hc => hcs c (mem_spread hc)
  | array => cases hl; cases run; exact (orderly_headD hcs).wrapped fun _ => .mapArray
  | option => cases hl; cases run; exact (orderly_headD hcs).wrapped fun _ => .mapOption
  | nullable =>
      cases hl
      cases run
      exact orderly_some (.mapNullable (orderly_headD hcs .forward))
        (.mapNullable (orderly_headD hcs .backward))
  | ref =>
      cases hl
      rcases assemble_cell run with ⟨rfl, -⟩ | ⟨rfl, -⟩
      · exact orderly_some (.passBox _) (.passBox _)
      · exact (orderly_headD hcs).wrapped fun _ => .rebuildBox
  | function sig =>
      rcases layer_function hl with ⟨_, -, rfl⟩ | ⟨convention, -, rfl⟩
      · cases run
      · cases run
        exact orderly_shim (hfunction sig rfl) sig convention _

/-- Canonical contents are orderly. They defer to types that are reached, and wrap functions only
if a function type is reached. -/
theorem Canon.orderly (h : w.Canon x content) : w.Good x →
    (∀ y sig, w.Reach x y → w.arena.term? y = some (.function sig) → functions) →
    (∀ y, w.Reach x y → w.Deferrable y → Q y) → (bare content).Orderly functions Q := by
  induction h with
  | leaf | idle => exact fun _ _ _ => orderly_none
  | @layer x t l cs content ht hl hb ha hc hcs ih =>
      intro hx hfunction hQ
      refine assemble_orderly hl hb hcs (fun sig ht' => hfunction x sig .refl (ht' ▸ ht)) ?_
      intro c hmem
      rw [zipWith_wrap] at hmem
      obtain ⟨_, hwrapped, rfl⟩ := List.mem_map.mp hmem
      obtain ⟨p, hp, rfl⟩ := List.mem_map.mp hwrapped
      have edge : w.Edge x p.ty := .part ht hl hp
      have part := ih p hp (hx.edge edge) (fun y sig hy => hfunction y sig (.head edge hy))
        fun y hy => hQ y (.head edge hy)
      rcases p.bare_wrap _ with hp | hp <;> rw [hp]
      · exact part
      · exact part.wrapped fun _ => .mapOption
  | inline hr _ _ ih =>
      intro hx hfunction hQ
      have edge := Edge.node hr
      exact ih (hx.edge edge) (fun y sig hy => hfunction y sig (.head edge hy))
        fun y hy => hQ y (.head edge hy)
  | deferring hrec hconv =>
      intro hx _ hQ
      have recurse (d : Direction) : Step.Orderly functions Q (.recurse _ d) :=
        .recurse d (hQ _ .refl ⟨hx, hrec, hconv⟩)
      exact orderly_some (recurse _) (recurse _)

end World

/-! ## What a session plans -/

section Sessions

open Planner PlanM

variable {catalog : Catalog} {options : Options} {S : Session} {p : Planner} {d i : Nat}
  {ty : TyId} {c : Converter} {s : PlanState} {functions : Prop}

/-- After a call, the body of a type that converters defer to is the right one. -/
theorem Session.Comes.body (hS : Comes catalog options S) (hp : S.planners[i]? = some p)
    (hx : S.shared.arena.Has ty)
    (hrun : planWithin catalog options d ty ⟨S.shared, p⟩ = (.ok c, s)) {b : Arena} (hb : b.Sound)
    (hsb : s.shared.arena.Within b) {u : TyId} {body : Converter}
    (hu : World.Deferrable ⟨catalog, options, b⟩ u)
    (hbody : s.planner.fixpoints.find? u = some body) :
    World.Body ⟨catalog, options, b⟩ u body.content := by
  obtain ⟨-, -, calm, -⟩ := hS.planned hp hx hrun hb hsb
  obtain ⟨hgood, hrec, hconv⟩ := hu
  have stored : s.memory.bodies u = some body.content := by
    show (s.planner.fixpoints.find? u).map content = _
    rw [hbody]
    rfl
  exact not_not.mp fun hnot => calm.right u ⟨hgood, hrec, hconv, _, stored, hnot⟩

/-- The converter of a type and the bodies that come with it are orderly. -/
theorem Session.Comes.orderly (hS : Comes catalog options S) (hp : S.planners[i]? = some p)
    (hx : S.shared.arena.Has ty)
    (hrun : planWithin catalog options d ty ⟨S.shared, p⟩ = (.ok c, s)) {b : Arena} (hb : b.Sound)
    (hsb : s.shared.arena.Within b)
    (hfunction : ∀ y sig, World.Reach ⟨catalog, options, b⟩ ty y →
      b.term? y = some (.function sig) → functions) :
    ∃ Q : TyId → Prop, c.Orderly functions Q ∧
      ∀ u body, Q u → s.planner.fixpoints.find? u = some body → body.Orderly functions Q := by
  let w : World := ⟨catalog, options, b⟩
  obtain ⟨hgood, hcanon, -, -⟩ := hS.planned hp hx hrun hb hsb
  refine ⟨fun u => w.Reach ty u ∧ w.Deferrable u, orderly_strip.mp ?_, ?_⟩
  · exact hcanon.orderly hgood hfunction fun y hy hdefer => ⟨hy, hdefer⟩
  · rintro u body ⟨hreach, hdefer⟩ hbody
    obtain ⟨r, hr, hc⟩ := hS.body hp hx hrun hb hsb hdefer hbody
    have toNode : w.Reach ty r.node := hreach.tail (.node hr)
    refine orderly_strip.mp (hc.orderly (hdefer.1.edge (.node hr)) ?_ ?_)
    · exact fun y sig hy => hfunction y sig (toNode.trans hy)
    · exact fun y hy hdefer => ⟨toNode.trans hy, hdefer⟩

end Sessions

end Marshal
