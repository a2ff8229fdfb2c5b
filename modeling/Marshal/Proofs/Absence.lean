import Marshal.Proofs.Defaults

/-!
# Where absence nests

A value that may be left out must not be one that is absent itself, or what is left out
could mean two things. The planner therefore refuses an option, an optional field and an
optional parameter whose type stands for an option. That is not all of it: what is nullable
hands absence on to the type inside, so a nullable of an option admits absence as well, and
no check looks that far.

Said exactly: in all that is planned no omittable position stands for an option, and so the
ones that admit absence are those that stand for a nullable of a type that admits it
(`Session.Comes.absence_nests`). Beyond that nothing is asked of an option
(`World.Good.option_iff`), so all of them do occur.

The checks are made where a type's layer is planned, and a type that is reached may have
been remembered, found in the cache or guessed. But a type that was planned is good, and
then everything below it is (`Good.reach`); of a good type the checks have passed, whoever
made them (`Good.omittable`). Only the parameters of the signature itself, which is no
type of the arena, need the derivation.
-/

namespace Marshal

open Converter Planner PlanM

/-- The types at the positions of a term that may be left out. -/
def Term.omittable : Term → List TyId
  | .option inner => [inner]
  | .record fields | .object fields => (fields.filter Field.optional).map Field.ty
  | .function s => (s.params.filter fun p => p.role.isOptional).map Parameter.ty
  | _ => []

/-- The types of the positions that may be left out in what is asked for itself. -/
def Call.omittable : Call → List TyId
  | .type _ => []
  | .signature s => (Term.function s).omittable

namespace World

variable {w : World} {x y z : TyId} {t : Term} {l : Layer} {p : Part}

/-- The type is an option or stands for one, or is nullable and its inner type admits
absence. -/
inductive AdmitsAbsence (w : World) : TyId → Prop
  | option {x y : TyId} : w.Behind x (.option y) → AdmitsAbsence w x
  | nullable {x y : TyId} : w.Unwraps x y → AdmitsAbsence w y → AdmitsAbsence w x

/-! ## Options -/

theorem standsForOption_iff : w.StandsForOption x ↔ ∃ y, w.Behind x (.option y) := by
  refine exists_congr fun y => ⟨?_, ?_⟩
  · rintro (h | ⟨r, hr, h⟩)
    · exact .own h rfl
    · exact .node hr h
  · rintro (⟨h, -⟩ | ⟨hr, h⟩)
    · exact .inl h
    · exact .inr ⟨_, hr, h⟩

/-- What admits absence and is no option stands for a nullable that hands it on. -/
theorem admitsAbsence_iff (hx : ¬w.StandsForOption x) :
    w.AdmitsAbsence x ↔ ∃ y, w.Unwraps x y ∧ w.AdmitsAbsence y := by
  constructor
  · rintro (h | ⟨hxy, hy⟩)
    · exact absurd (standsForOption_iff.mpr ⟨_, h⟩) hx
    · exact ⟨_, hxy, hy⟩
  · rintro ⟨y, hxy, hy⟩
    exact .nullable hxy hy

/-! ## What the checks say -/

theorem refuseOption_spec {reason : String}
    (h : w.Answers (refuseOption w.catalog x y reason) (.ok ())) : ¬w.StandsForOption y := by
  rcases bind_cases (h (blank w.arena) rfl) with ⟨_, -, ⟨⟩⟩ | ⟨b, s, hb, hrest⟩
  cases b with
  | true => cases hrest
  | false =>
      cases hrest
      rw [← standsForOption_spec hb]
      exact Bool.false_ne_true

/-- An omittable part that was admitted stands for no option. -/
theorem Admits.no_option (h : w.Admits p (.ok ())) (hw : w.Ready) (hp : w.arena.Has p.ty)
    (homit : p.omittable = true) : ¬w.StandsForOption p.ty := by
  rcases h.cases hw hp with ⟨_, _, -, ⟨⟩⟩ | ⟨_, -, habsence⟩
  rw [Part.checkAbsence, if_pos homit] at habsence
  exact refuseOption_spec habsence

/-! ## Positions that may be left out -/

/-- The part of a function at an optional parameter is omittable. -/
theorem omittable_ofSignature (convention : Convention) {s : Signature}
    (hy : y ∈ (Term.function s).omittable) :
    ∃ p ∈ Part.ofSignature convention s, p.omittable = true ∧ p.ty = y := by
  obtain ⟨q, hq, rfl⟩ := List.mem_map.mp hy
  obtain ⟨hq, hopt⟩ := List.mem_filter.mp hq
  obtain ⟨i, hi⟩ := List.mem_iff_getElem?.mp hq
  refine ⟨Part.ofParam convention (0 + i) q, List.mem_append_left _ ?_, hopt, rfl⟩
  exact List.mem_of_getElem? (i := i) (by rw [getElem?_ofParams, hi]; rfl)

/-- An omittable position is an omittable part of the layer, unless the type is an option
or refused at once. -/
theorem mem_omittable (hl : w.layer? x t = some l) (hy : y ∈ t.omittable) :
    (∃ p ∈ l.parts, p.omittable = true ∧ p.ty = y) ∨ t = .option y ∨ ∃ f, l.before = fail f := by
  cases t with
  | scalar | var | opaqueTy | named | variant | tuple | array | nullable | ref => cases hy
  | record fields | object fields =>
      cases hl
      obtain ⟨f, hf, rfl⟩ := List.mem_map.mp hy
      obtain ⟨hf, hopt⟩ := List.mem_filter.mp hf
      exact .inl ⟨Part.ofField f, List.mem_map_of_mem hf, hopt, rfl⟩
  | option inner => exact .inr (.inl (congrArg Term.option (List.mem_singleton.mp hy).symm))
  | function s =>
      rcases layer_function hl with ⟨f, -, rfl⟩ | ⟨convention, -, rfl⟩
      · exact .inr (.inr ⟨f, rfl⟩)
      · exact .inl (omittable_ofSignature convention hy)

/-- In a type that can be planned no omittable position stands for an option. -/
theorem Good.omittable (hx : w.Good x) (hw : w.Ready) (ht : w.arena.term? x = some t)
    (hy : y ∈ t.omittable) : ¬w.StandsForOption y := by
  obtain ⟨c, hc⟩ := hx.fine.canon
  rcases leaf_or_layer_or_reference (w := w) x t with hleaf | ⟨l, hl⟩ | href
  · cases t <;> first | cases hleaf; done | cases hy
  · obtain ⟨hbefore, hadmits, -⟩ := hc.layer_inv ht hl
    rcases mem_omittable hl hy with ⟨p, hp, homit, rfl⟩ | rfl | ⟨f, hf⟩
    · obtain ⟨d, hd⟩ := (hx.edge (.part ht hl hp)).fine.canon
      exact (hadmits p hp).no_option hw (Arena.has_of_term? hd.term?.choose_spec) homit
    · cases hl
      exact refuseOption_spec hbefore
    · rw [hf] at hbefore
      cases hbefore.unique (.fail f)
  · cases t <;> first | cases href; done | cases hy

theorem Good.accepts_option (hy : w.Good y) (hn : ¬w.StandsForOption y) {reason : String} :
    w.Answers (refuseOption w.catalog x y reason) (.ok ()) := by
  obtain ⟨t, ht, hterm⟩ := hy.behind
  intro s hs
  have stands : standsForOption w.catalog y s = (.ok false, s) := by
    rw [standsForOption, bind_ok (hterm s hs)]
    cases t with
    | option z => exact absurd (standsForOption_iff.mpr ⟨z, ht⟩) hn
    | _ => rfl
  rw [refuseOption, bind_ok stands]
  rfl

/-- An option is planned exactly if its inner type is, and stands for no option. -/
theorem Good.option_iff (hw : w.Ready) (ht : w.arena.term? x = some (.option y)) :
    w.Good x ↔ w.Good y ∧ ¬w.StandsForOption y := by
  constructor
  · intro hx
    have inner : y ∈ (Term.option y).omittable := List.mem_singleton_self y
    exact ⟨hx.edge (.child ht rfl inner), hx.omittable hw ht inner⟩
  · rintro ⟨hy, hn⟩
    have before : w.Answers (refuseOption w.catalog x y optionOfOption) (.ok ()) :=
      hy.accepts_option hn
    intro z hxz
    rcases hxz.cases_head with rfl | ⟨u, hxu, huz⟩
    · obtain ⟨c, hc⟩ := hy.fine.canon
      have admits : ∀ p ∈ [Part.inner y], w.Admits p (.ok ()) := by
        intro p hp
        cases List.mem_singleton.mp hp
        exact ⟨0, fun _ _ _ _ => rfl⟩
      refine ⟨⟨_, .of_parts ht rfl before admits (.cons hc .nil) (.pure _)⟩,
        .intro x fun u hu => ?_⟩
      cases hu with
      | part ht' hl hp hlazy =>
          cases ht.symm.trans ht'
          cases hl
          cases List.mem_singleton.mp hp
          cases hlazy
      | node hr => cases hr.isReference ht
    · obtain ⟨p, hp, rfl⟩ := (edge_iff_part ht rfl before).mp hxu
      cases List.mem_singleton.mp hp
      exact hy z huz

/-- In what was planned for a call, itself or below, a type is left out. -/
def LeavesOut (w : World) (call : Call) (y : TyId) : Prop :=
  y ∈ call.omittable ∨
    ∃ x ∈ call.types, ∃ z t, w.Reach x z ∧ w.arena.term? z = some t ∧ y ∈ t.omittable

/-- The derivation of a call has passed the checks of all that is left out in it. -/
theorem Calm.leaves_out {k : Bool} {m m' : Memory} {call : Call} {job : Job}
    {cs : List Assembly.Content} {U : Set TyId} (hm : w.Calm k m) (hw : w.Ready)
    (hx : ∀ x ∈ call.types, w.arena.Has x) (hj : call.job = .ok job)
    (hplans : w.Plans Eq (idle k) job m (.ok (cs, U)) m') (hy : w.LeavesOut call y) :
    ¬w.StandsForOption y := by
  have types := types_of_job hj
  rcases hy with hy | ⟨x, hmem, z, t, hxz, ht, hy⟩
  · rcases job_ok hj with ⟨ty, rfl, -⟩ | ⟨s, convention, rfl, -, rfl⟩
    · cases hy
    · obtain ⟨p, hp, homit, rfl⟩ := omittable_ofSignature convention hy
      have admits : w.Admits p (.ok ()) :=
        SpeaksAll.admits (((hm.stands _).speaks fair_eq hplans).2 _ _ rfl) p hp
      exact admits.no_option hw (hx _ (types ▸ List.mem_map_of_mem hp)) homit
  · obtain ⟨-, all⟩ := hm.result fair_eq (asked_of_job hj) hplans
    obtain ⟨_, -, hgood, -⟩ := exists_of_mem_right all.flip (types ▸ hmem)
    exact (hgood.reach hxz).omittable hw ht hy

end World

/-! ## In a session -/

/-- In all that a planner accepts, no omittable position stands for an option. The ones that
admit absence stand for a nullable that hands it on to a type inside. -/
theorem Session.Comes.absence_nests {catalog : Catalog} {options : Options} {S : Session}
    {p : Planner} {i d : Nat} {call : Call} {a : Answer} {s : PlanState}
    (hS : Comes catalog options S) (hp : S.planners[i]? = some p)
    (hx : ∀ x ∈ call.types, S.shared.arena.Has x)
    (hrun : call.run catalog options d ⟨S.shared, p⟩ = (.ok a, s)) {b : Arena} (hb : b.Sound)
    (hsb : s.shared.arena.Within b) {y : TyId}
    (hy : World.LeavesOut ⟨catalog, options, b⟩ call y) :
    ¬World.StandsForOption ⟨catalog, options, b⟩ y ∧
      (World.AdmitsAbsence ⟨catalog, options, b⟩ y ↔ ∃ z,
        World.Unwraps ⟨catalog, options, b⟩ y z ∧ World.AdmitsAbsence ⟨catalog, options, b⟩ z) := by
  obtain ⟨begins, hw, hm⟩ := hS.begins hp hx hrun hb hsb
  obtain ⟨-, hwithin⟩ := rests_call (w := ⟨catalog, options, b⟩) hb begins hrun
  have stored : ∀ x ∈ call.types, b.Has x := fun x hmem => (hwithin.trans hsb).has (hx x hmem)
  obtain ⟨-, -, ⟨_, -, ⟨⟩⟩ | ⟨job, out, hj, hplans, told⟩⟩ :=
    World.Calm.called begins hw hm hrun (by simp) hsb
  cases out with
  | error f => cases told
  | ok result =>
      obtain ⟨cs, U⟩ := result
      have plain := hm.leaves_out hw stored hj hplans hy
      exact ⟨plain, World.admitsAbsence_iff plain⟩

/-! ### Absence in a nullable in an option -/

namespace Husk

/-- An option of an integer, a nullable of that, and an option of the nullable. -/
def arena : Arena :=
  ((Arena.new.push (.option Scalar.int.id)).push (.nullable ⟨5⟩)).push (.option ⟨6⟩)

def catalog : Catalog := .ofDecls arena []

def world : World := ⟨catalog, .standard, arena⟩

def opened : Session := ⟨⟨arena, 0, .empty⟩, [.new true]⟩

/-- A planner is asked for the outer option. -/
def call : Except Halt Answer × PlanState :=
  (Call.type ⟨7⟩).run catalog .standard 9 ⟨opened.shared, .new true⟩

/-- Absence passes by twice. -/
def converter : Converter :=
  .custom 1 (.mapOption (.mapNullable .identity)) (.mapOption (.mapNullable .identity))

theorem sound : arena.Sound := by decide +kernel

theorem comes_opened : Session.Comes catalog .standard opened :=
  .joins true (.opens sound (by decide))

theorem call_spec : call.1 = .ok (.converter converter) ∧ call.2.shared.arena = arena := by
  decide +kernel

end Husk

/-- The outer option is accepted. Its inner type is no option, and it admits absence. -/
theorem Session.Comes.absence_nests_husk :
    Husk.call.1 = .ok (.converter Husk.converter) ∧ Husk.world.LeavesOut (.type ⟨7⟩) ⟨6⟩ ∧
      ¬Husk.world.StandsForOption ⟨6⟩ ∧ Husk.world.AdmitsAbsence ⟨6⟩ := by
  obtain ⟨result, arena⟩ := Husk.call_spec
  have ends : Husk.call = (.ok (.converter Husk.converter), Husk.call.2) := by
    rw [← result, Prod.mk.eta]
  have inner : Husk.world.LeavesOut (.type ⟨7⟩) ⟨6⟩ :=
    .inr ⟨⟨7⟩, List.mem_singleton_self _, ⟨7⟩, .option ⟨6⟩, .refl, by decide +kernel,
      List.mem_singleton_self _⟩
  have later : Husk.call.2.shared.arena.Within Husk.arena := arena ▸ .refl _
  have nullable : Husk.world.Unwraps ⟨6⟩ ⟨5⟩ := .own (by decide +kernel) rfl
  have option : Husk.world.Behind ⟨5⟩ (.option Scalar.int.id) := .own (by decide +kernel) rfl
  obtain ⟨plain, admits⟩ := Session.Comes.absence_nests Husk.comes_opened (i := 0)
    (p := .new true) rfl (by decide +kernel) ends Husk.sound later inner
  exact ⟨result, inner, plain, admits.mpr ⟨⟨5⟩, nullable, .option option⟩⟩

end Marshal
