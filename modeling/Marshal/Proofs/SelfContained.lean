import Mathlib.Order.Bounds.Defs
import Marshal.Proofs.Answers
import Marshal.Proofs.Holdings
import Marshal.Proofs.Published

/-!
# Plans are self-contained

A plan is made of an answer with the bodies that the planner has, at once or when the
planner has gone on with other calls. All bodies that are needed are there, and the
plan takes no others: its table is the least one that is closed under following
targets (`Plan.make_least`). So a run of a converter of the plan finds every body it
comes to, whatever the value (`FixTable.Serves`), and the wrappers that it adds take
the table along with them.
-/

namespace Marshal

open Converter Planner Relation

/-! ## The table of a plan -/

/-- The sets of types that have the roots, and with a type all targets of its body. -/
def FixTable.ClosedFrom (t : FixTable) (roots : List TyId) : Set (Set TyId) :=
  {K | (∀ u ∈ roots, u ∈ K) ∧ ∀ u ∈ K, ∀ body, t.find? u = some body → ∀ v ∈ body.targets, v ∈ K}

namespace Plan

variable {available : FixTable} {key : Key} {found : Finding} {convention : Option Convention}
  {plan : Plan} {u v : TyId} {c : Converter}

theorem leads_of_body {t : FixTable} (h : t.find? u = some c) (hv : v ∈ c.targets) :
    t.contents.Leads u v :=
  .single ⟨c.content, by rw [FixTable.contents, h]; rfl, (targets_strip c).symm ▸ hv⟩

theorem mem_ids {t : FixTable} (h : t.Sorted) : u ∈ t.ids ↔ t.find? u ≠ none := by
  rw [Option.ne_none_iff_exists', FixTable.ids, List.mem_map]
  constructor
  · rintro ⟨⟨_, c⟩, hmem, rfl⟩
    exact ⟨c, h.find?_eq_some.mpr hmem⟩
  · rintro ⟨c, hc⟩
    exact ⟨(u, c), h.find?_eq_some.mp hc, rfl⟩

section Made

variable (h : make key found convention available = .ok plan)
include h

/-- The plan has a body for exactly what is led to from its converters. -/
theorem make_ids : u ∈ plan.fixpoints.ids ↔
    ∃ r ∈ plan.converters.flatMap targets, available.contents.Leads r u := by
  obtain ⟨-, -, sorted, hfind, hall⟩ := make_spec h
  rw [mem_ids sorted, hfind, ← FixTable.mem_needed]
  split
  · next hu => simpa [hu] using hall u hu
  · next hu => simp [hu]

theorem make_body (hu : u ∈ plan.fixpoints.ids) :
    plan.fixpoints.find? u = available.find? u := by
  obtain ⟨-, -, sorted, hfind, -⟩ := make_spec h
  have there := (mem_ids sorted).mp hu
  rw [hfind] at there ⊢
  split
  · rfl
  · next hn => rw [if_neg hn] at there; exact absurd rfl there

/-- The bodies that a plan holds are the least set with the targets of its converters that is
closed under targets. -/
theorem make_least :
    IsLeast (available.ClosedFrom (plan.converters.flatMap targets)) {u | u ∈ plan.fixpoints.ids} := by
  refine ⟨⟨fun u hu => (make_ids h).mpr ⟨u, hu, .refl⟩, fun u hu body hbody v hv => ?_⟩, ?_⟩
  · obtain ⟨r, hr, hl⟩ := (make_ids h).mp hu
    exact (make_ids h).mpr ⟨r, hr, hl.trans (leads_of_body hbody hv)⟩
  · rintro K ⟨roots, closed⟩ u hu
    obtain ⟨r, hr, hl⟩ := (make_ids h).mp hu
    clear hu
    induction hl with
    | refl => exact roots r hr
    | tail _ hstep ih =>
        obtain ⟨content, hcontent, hv⟩ := hstep
        obtain ⟨body, hbody, rfl⟩ := Option.map_eq_some_iff.mp hcontent
        exact closed _ ih body hbody _ ((targets_strip body) ▸ hv)

/-- The plan has all bodies for its own converters and bodies. -/
theorem make_covers (hc : c ∈ plan.converters ++ plan.fixpoints.entries.map Prod.snd)
    (d : Direction) : plan.fixpoints.Covers (c.step d) := by
  obtain ⟨-, -, sorted, -, -⟩ := make_spec h
  obtain ⟨⟨roots, closed⟩, -⟩ := make_least h
  have targets : ∀ u ∈ c.targets, u ∈ plan.fixpoints.ids := by
    intro u hu
    rcases List.mem_append.mp hc with hc | hc
    · exact roots u (List.mem_flatMap.mpr ⟨c, hc, hu⟩)
    · obtain ⟨⟨t, _⟩, hmem, rfl⟩ := List.mem_map.mp hc
      have hbody := sorted.find?_eq_some.mpr hmem
      have ht : t ∈ plan.fixpoints.ids := List.mem_map.mpr ⟨_, hmem, rfl⟩
      exact closed t ht _ (make_body h ht ▸ hbody) u hu
  intro u hu v hl
  have first : u ∈ plan.fixpoints.ids := by
    refine targets u ?_
    rw [mem_targets, Converter.has_iff (Step.marks_target u)]
    cases d
    · exact .inl hu
    · exact .inr hu
  rw [← mem_ids sorted]
  induction hl with
  | refl => exact first
  | tail _ hstep ih =>
      obtain ⟨content, hcontent, hv⟩ := hstep
      obtain ⟨body, hbody, rfl⟩ := Option.map_eq_some_iff.mp hcontent
      exact closed _ ih body (make_body h ih ▸ hbody) _ ((targets_strip body) ▸ hv)

end Made

end Plan

/-! ## Running with the table -/

/-- With the table the converter runs on every value: no body is missed, and a wrapper in the
result or in a cell was there before or has the bodies that its steps come to. -/
structure FixTable.Serves (t : FixTable) (c : Converter) : Prop where
  finds : ∀ d depth v st h st', Run.convertWithin t depth c d v st = (.error h, st') → ¬Run.Lacks h
  equips : ∀ d depth v st r st', Run.convertWithin t depth c d v st = (.ok r, st') →
    ∀ a, (r.Holds a ∨ ∃ u ∈ st'.boxes, u.Holds a) →
      a.Equipped ∨ v.Holds a ∨ ∃ u ∈ st.boxes, u.Holds a

theorem FixTable.serves_of_covers {t : FixTable} {c : Converter}
    (h : ∀ d, t.Covers (c.step d)) : t.Serves c where
  finds d depth v st e st' hrun := by
    have safe := Run.guard_lookups.applyWithin depth (h d) (v := v) (fun _ _ => trivial) st trivial
    rw [show Run.applyWithin t depth (c.step d) v st = _ from hrun] at safe
    exact safe.2
  equips d depth v st r st' hrun a := by
    let Q : Atom → Prop := fun a => a.Equipped ∨ v.Holds a ∨ ∃ u ∈ st.boxes, u.Holds a
    have before : ∀ u ∈ st.boxes, u.All Q := fun u hu a ha => .inr (.inr ⟨u, hu, ha⟩)
    obtain ⟨cells, result⟩ := (Run.guard_covers (Q := Q) (fun _ => .inl)).applyWithin depth (h d)
      (fun a ha => .inr (.inl ha)) st before
    rw [show Run.applyWithin t depth (c.step d) v st = _ from hrun] at cells result
    rintro (ha | ⟨u, hu, ha⟩)
    · exact result a ha
    · exact cells u hu a ha

/-! ## Later in a session -/

namespace Session

variable {catalog : Catalog} {options : Options} {S S' : Session} {p : Planner} {i : Nat}

/-- What a session may come to next. -/
inductive Next (catalog : Catalog) (options : Options) (S : Session) : Session → Prop
  | joins (caching : Bool) :
      Next catalog options S { S with planners := S.planners ++ [.new caching] }
  | grows {a : Arena} : S.shared.arena.Within a → a.Sound →
      Next catalog options S { S with shared := { S.shared with arena := a } }
  | calls {i : Nat} {p : Planner} {call : Call} {d : Nat} {r : Except Halt Answer}
      {s : PlanState} : S.planners[i]? = some p → (∀ x ∈ call.types, S.shared.arena.Has x) →
      call.run catalog options d ⟨S.shared, p⟩ = (r, s) → r ≠ .error .outOfFuel →
      Next catalog options S (S.after i s)

/-- What a session may come to later. -/
def Later (catalog : Catalog) (options : Options) : Session → Session → Prop :=
  ReflTransGen (Next catalog options)

theorem Comes.next (hS : Comes catalog options S) (h : Next catalog options S S') :
    Comes catalog options S' := by
  cases h with
  | joins k => exact .joins k hS
  | grows hsa ha => exact .grows hS hsa ha
  | calls hp hx hrun hr => exact .calls hS hp hx hrun hr

theorem Comes.later (hS : Comes catalog options S) (h : Later catalog options S S') :
    Comes catalog options S' := by
  induction h with
  | refl => exact hS
  | tail _ hnext ih => exact ih.next hnext

/-- Every planner stays, and keeps a body for all that it has a body for. -/
def Keeps (S S' : Session) : Prop :=
  S.shared.arena.Within S'.shared.arena ∧ ∀ (i : Nat) (p : Planner), S.planners[i]? = some p →
    ∃ p' : Planner, S'.planners[i]? = some p' ∧ ∀ u, p.fixpoints.contents u ≠ none →
      p'.fixpoints.contents u ≠ none

theorem Keeps.refl (S : Session) : S.Keeps S := ⟨.refl _, fun _ p hp => ⟨p, hp, fun _ h => h⟩⟩

theorem Keeps.trans {T : Session} (h : S.Keeps S') (h' : S'.Keeps T) : S.Keeps T := by
  refine ⟨h.1.trans h'.1, fun i p hp => ?_⟩
  obtain ⟨q, hq, hpq⟩ := h.2 i p hp
  obtain ⟨r, hr, hqr⟩ := h'.2 i q hq
  exact ⟨r, hr, fun u hu => hqr u (hpq u hu)⟩

theorem Next.keeps (hS : Comes catalog options S) (h : Next catalog options S S') :
    S.Keeps S' := by
  cases h with
  | joins k =>
      refine ⟨.refl _, fun i p hp => ⟨p, ?_, fun _ h => h⟩⟩
      exact List.getElem?_append_left (List.getElem?_eq_some_iff.mp hp).1 ▸ hp
  | grows hsa ha => exact ⟨hsa, fun i p hp => ⟨p, hp, fun _ h => h⟩⟩
  | @calls j q call d r s hq hx hrun hr =>
      have begins := rests_call (w := ⟨catalog, options, S.shared.arena⟩) hS.rests.sound
        (hS.rests.begins hq hx) hrun
      refine ⟨begins.2, fun i p hp => ?_⟩
      by_cases hij : j = i
      · subst hij
        cases hq.symm.trans hp
        refine ⟨s.planner, by simp [Session.after, (List.getElem?_eq_some_iff.mp hq).1],
          fun u hu => ?_⟩
        let w : World := ⟨catalog, options, s.shared.arena⟩
        have calm := hS.calm (b := s.shared.arena) begins.1.sound begins.2
        obtain ⟨-, -, ⟨f, hj, rfl⟩ | ⟨job, out, hj, hplans, -⟩⟩ := World.Calm.called (w := w)
          (hS.rests.begins hq hx) ⟨begins.1.sound, begins.1.spans⟩
          (calm.planners q (List.mem_of_getElem? hq)) hrun hr (.refl _)
        · cases (run_refused_call (w := w) hj).symm.trans hrun
          exact hu
        · exact (hplans.keeps World.fair_eq
            ((calm.planners q (List.mem_of_getElem? hq)).stands job)
            (World.Calm.due (asked_of_job hj))).grows u hu
      · exact ⟨p, by simpa [Session.after, List.getElem?_set_ne hij] using hp, fun _ h => h⟩

theorem Later.keeps (hS : Comes catalog options S) (h : Later catalog options S S') :
    S.Keeps S' := by
  induction h with
  | refl => exact .refl S
  | tail hlater hnext ih => exact ih.trans (hnext.keeps (hS.later hlater))

end Session

/-! ## Plans of a session -/

/-- No call fails because a body was not published. Of an answer a plan can be made at any later
time, unless the planner's finding and the convention do not go together; its table has exactly
the bodies that are needed, and all its converters run with it on every value. Calls of functions
miss a body only where a wrapper is called that was made without it. -/
theorem Session.Comes.self_contained {catalog : Catalog} {options : Options} {S : Session}
    {p : Planner} {call : Call} {d i : Nat} {r : Except Halt Answer} {s : PlanState}
    (hS : Comes catalog options S) (hp : S.planners[i]? = some p)
    (hx : ∀ x ∈ call.types, S.shared.arena.Has x)
    (hrun : call.run catalog options d ⟨S.shared, p⟩ = (r, s)) :
    (∀ f, r = .error (.fault f) → ¬f.Unpublished) ∧
      (∀ a, r = .ok a → ∀ S' p', Later catalog options (S.after i s) S' →
        S'.planners[i]? = some p' → ∀ key,
          (∃ plan, Plan.make key a.finding a.convention? p'.fixpoints = .ok plan) ∧
          ∀ convention,
            (∀ f, Plan.make key a.finding convention p'.fixpoints = .error f →
              Plan.conversionOf key a.finding convention = .error f) ∧
            ∀ plan, Plan.make key a.finding convention p'.fixpoints = .ok plan →
              plan.converters = a.converters ∧
              IsLeast (p'.fixpoints.ClosedFrom (plan.converters.flatMap targets))
                {u | u ∈ plan.fixpoints.ids} ∧
              (∀ u ∈ plan.fixpoints.ids, plan.fixpoints.find? u = p'.fixpoints.find? u) ∧
              ∀ c ∈ plan.converters ++ plan.fixpoints.entries.map Prod.snd,
                plan.fixpoints.Serves c) ∧
      (∀ table args ret, (Atom.wrapper table args ret).Equipped →
        ∀ callee depth token n vs st h st',
          Run.invokeWithin (depth + 1) ⟨token, n, .convert table args ret callee⟩ vs st =
            (.error h, st') → Run.Lacks h →
          ∃ converted st₁, Run.callFully (Run.invokeWithin depth) callee converted st₁ =
            (.error h, st')) ∧
      ∀ depth f args, f.Equipped → (∀ v ∈ args, v.Equipped) →
        Run.Safe Marshal.Equipped Value.Equipped (Run.invokeWithin depth f args) := by
  refine ⟨?_, ?_, fun _ _ _ hw _ _ _ _ _ _ _ _ => Run.wrapper_blameless hw,
    fun depth => (Run.calls_safe depth).1⟩
  · rintro f rfl
    exact hS.published hp hx hrun
  · rintro a rfl S' p' hlater hp' key
    have after : Comes catalog options (S.after i s) := .calls hS hp hx hrun nofun
    have keeps := hlater.keeps after
    have hS' := after.later hlater
    have here : (S.after i s).planners[i]? = some s.planner := by
      simp [Session.after, (List.getElem?_eq_some_iff.mp hp).1]
    obtain ⟨q, hq, hgrows⟩ := keeps.2 i _ here
    cases hq.symm.trans hp'
    have hback := ((hS.answered hp hx hrun hS'.rests.sound keeps.1).2).later hgrows
    have calm := (hS'.calm hS'.rests.sound (.refl _)).planners p' (List.mem_of_getElem? hp')
    refine ⟨?_, fun convention => ⟨fun f hf => ?_, fun plan hplan => ?_⟩⟩
    · obtain ⟨kind, hkind⟩ := hback.conversion key
      exact calm.make hback rfl hkind
    · cases hkind : Plan.conversionOf key a.finding convention with
      | error g =>
          rw [Plan.make, hkind] at hf
          cases hf
          rfl
      | ok kind =>
          obtain ⟨plan, hplan⟩ := calm.make hback rfl hkind
          cases hplan.symm.trans hf
    · exact ⟨Answer.converters_of_kind (Plan.make_spec hplan).2.1, Plan.make_least hplan,
        fun u => Plan.make_body hplan, fun c hc =>
          FixTable.serves_of_covers (Plan.make_covers hplan hc)⟩

/-- The plan of trees, whose converter comes from the cache. -/
theorem Session.Comes.self_contained_tree :
    ∃ plan, Plan.make Tree.key (.value Tree.converter) none ⟨[(Tree.ty, Tree.body)]⟩ = .ok plan ∧
      plan.converters = [Tree.converter] ∧
      IsLeast (FixTable.ClosedFrom ⟨[(Tree.ty, Tree.body)]⟩ (plan.converters.flatMap targets))
        {u | u ∈ plan.fixpoints.ids} ∧
      ∀ c ∈ plan.converters ++ plan.fixpoints.entries.map Prod.snd, plan.fixpoints.Serves c := by
  have ends : (Call.type Tree.ty).run Tree.catalog .standard 9 ⟨Tree.served.shared, .new true⟩ =
      (.ok (.converter Tree.converter), (Tree.call Tree.served (.new true)).2) :=
    PlanM.bind_ok Tree.planWithin_served
  have here : (Tree.served.planners.set 1 (Tree.call Tree.served (.new true)).2.planner)[1]? =
      some (Tree.call Tree.served (.new true)).2.planner :=
    List.getElem?_set_self (by decide +kernel)
  obtain ⟨-, answered, -⟩ := Session.Comes.self_contained Tree.comes_served (i := 1)
    (p := .new true) (by decide +kernel) (by decide +kernel) ends
  obtain ⟨⟨plan, hplan⟩, made⟩ := answered _ rfl _ _ .refl here Tree.key
  obtain ⟨hconverters, hleast, -, hserves⟩ := (made _).2 plan hplan
  rw [Tree.fixpoints_served] at hplan hleast
  exact ⟨plan, hplan, hconverters, hleast, hserves⟩

end Marshal
