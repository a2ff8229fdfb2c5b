import Mathlib.Order.BooleanAlgebra.Set
import Marshal.Proofs.Adequacy
import Marshal.Proofs.Truth

/-!
# The planner follows the judgement

The other direction: what the judgement derives for a planner that does not use the
cache, the planner does, whenever it may go deep enough (`Plans.executes`). So does a
planner that is alone with its cache, for it finds nothing there but what it has
settled itself. The arena is the final one, so nothing is added to it on the way.

`Goes` describes such work by the memory that it finds and leaves, and by what
holds of its result and of the open types that it used.
-/

namespace Marshal

open Converter Planner PlanM World

/-! ## Work in a final arena -/

/-- The surroundings of a planner that may use the cache. -/
def Env.using (e : Env) (caching : Bool) : Env := { e with caching }

/-- What the planner may find in the cache is what it has settled itself. -/
def PlanState.Alone (s : PlanState) : Prop :=
  s.planner.caching = true → s.shared.cache.Quiet ∧
    s.memory.cache.converters = s.memory.settled

/-- A state in which the judgement sees these surroundings and this memory, of a planner that
shares nothing. -/
structure At (w : World) (e : Env) (m : Memory) (s : PlanState) : Prop where
  arena : s.shared.arena = w.arena
  env : e.Of s.planner
  settled : s.memory.settled = m.settled
  bodies : s.memory.bodies = m.bodies
  alone : s.Alone

/-- From `s` on, these types were used, and the memory is `m'`. If the work failed, it did so
at `way`. -/
structure Reaches (w : World) (e : Env) (m' : Memory) (s : PlanState) (way : List Segment)
    (used : List TyId) (s' : PlanState) : Prop extends At w e m' s' where
  uses : s'.planner.uses = s.planner.uses ++ used
  path : s'.planner.path = s.planner.path
  noted : s'.planner.faultPath = s.planner.noting way

/-- Started in any state with `m` in memory, the work leaves `m'`; its result and the
open types that it used satisfy `Q`. -/
def Goes {α : Type} (w : World) (e : Env) (m m' : Memory) (x : PlanM α)
    (Q : Except Failure α → Set TyId → Prop) : Prop :=
  ∀ s, At w e m s → ∃ r s' used, x s = (r.mapError Failure.halt, s') ∧
    Reaches w e m' s (Failure.wayOf r) used s' ∧ Q r {o | o ∈ used ∧ o ∈ e.opened}

section Work

variable {α β : Type} {w : World} {e e' : Env} {m m₁ m' : Memory} {s s₁ t t' : PlanState}
  {x : PlanM α} {f : α → PlanM β} {Q Q' : Except Failure α → Set TyId → Prop}
  {R : Except Failure β → Set TyId → Prop} {way : List Segment} {used used' : List TyId}

theorem At.moves (h : At w e m s) (ht : s.Moves e e' t) : At w e' m t where
  arena := ht.arena.trans h.arena
  env := ht.env h.env
  settled := (congrArg Memory.settled ht.memory).trans h.settled
  bodies := (congrArg Memory.bodies ht.memory).trans h.bodies
  alone hc := by
    rw [ht.memory, ht.cache]
    exact h.alone (ht.caching ▸ hc)

namespace Reaches

theorem refl (h : At w e m s) : Reaches w e m s [] [] s :=
  ⟨h, (List.append_nil _).symm, rfl, noting_nil.symm⟩

theorem entered {e₀ e₁ : Env} (hin : s.Moves e₀ e₁ t) (h : Reaches w e m' t way used t') :
    Reaches w e m' s way used t' where
  toAt := h.toAt
  uses := by rw [h.uses, hin.uses]
  path := h.path.trans hin.path
  noted := by rw [h.noted, noting_congr hin.path hin.faultPath]

theorem left (h : Reaches w e' m' s way used t) (hout : t.Moves e' e t') :
    Reaches w e m' s way used t' where
  toAt := h.toAt.moves hout
  uses := by rw [hout.uses, h.uses]
  path := hout.path.trans h.path
  noted := by rw [hout.faultPath, h.noted]

theorem trans (h : Reaches w e m₁ s [] used s₁) (h' : Reaches w e' m' s₁ way used' t) :
    Reaches w e' m' s way (used ++ used') t where
  toAt := h'.toAt
  uses := by rw [h'.uses, h.uses, List.append_assoc]
  path := h'.path.trans h.path
  noted := by rw [h'.noted, noting_congr h.path (h.noted.trans noting_nil)]

theorem setBody (h : Reaches w e m' s way used t) (ty : TyId) (c : Converter) :
    Reaches w e (m'.setBody ty c.content) s way used (t.planning (t.planner.setBody ty c)) where
  arena := h.arena
  env := (rests_setBody t ty c).env h.env
  settled := h.settled
  bodies := by rw [memory_setBody, Memory.setBody_bodies, h.bodies, Memory.setBody_bodies]
  alone := h.alone
  uses := h.uses
  path := h.path
  noted := h.noted

/-- Nothing but the log of uses is changed. -/
theorem logging (h : Reaches w e m' s way used t) {uses : List TyId}
    (huses : uses = s.planner.uses ++ used') :
    Reaches w e m' s way used' (t.planning { t.planner with uses }) where
  arena := h.arena
  env := h.env.logging uses
  settled := h.settled
  bodies := h.bodies
  alone := h.alone
  uses := huses
  path := h.path
  noted := h.noted

end Reaches

namespace Goes

theorem congr {y : PlanM α} (h : Goes w e m m' y Q) (hxy : ∀ s, At w e m s → x s = y s) :
    Goes w e m m' x Q := by
  intro s hs
  rw [hxy s hs]
  exact h s hs

theorem mono (h : Goes w e m m' x Q) (hQ : ∀ r, ∀ U ⊆ e.opened, Q r U → Q' r U) :
    Goes w e m m' x Q' := by
  intro s hs
  obtain ⟨r, s', used, hx, hs', hq⟩ := h s hs
  exact ⟨r, s', used, hx, hs', hQ r _ (fun o ho => ho.2) hq⟩

/-- Work that only looks at the arena. -/
theorem look {v : α} (h : w.Answers x (.ok v)) (hQ : Q (.ok v) ∅) : Goes w e m m x Q :=
  fun s hs => ⟨.ok v, s, [], h s hs.arena, .refl hs, by simpa using hQ⟩

theorem refuse {g : Fault} (h : w.Answers x (.error (.fault g))) (hQ : Q (.error (.here g)) ∅) :
    Goes w e m m x Q :=
  fun s hs => ⟨.error (.here g), s, [], h s hs.arena, .refl hs, by simpa using hQ⟩

theorem pure (v : α) (hQ : Q (.ok v) ∅) : Goes w e m m (Pure.pure v) Q := look (.pure v) hQ

theorem bind {P : α → Set TyId → Prop}
    (hx : Goes w e m m₁ x fun r U => ∃ v, r = .ok v ∧ P v U)
    (hf : ∀ v U, P v U → Goes w e m₁ m' (f v) fun r V => R r (U ∪ V)) :
    Goes w e m m' (x >>= f) R := by
  intro s hs
  obtain ⟨_, s₁, used, hrun, hs₁, v, rfl, hp⟩ := hx s hs
  obtain ⟨r, s', used', hrun', hs', hr⟩ := hf v _ hp s₁ hs₁.toAt
  refine ⟨r, s', used ++ used', by rw [bind_ok hrun, hrun'], hs₁.trans hs', ?_⟩
  rwa [show {o | o ∈ used ++ used' ∧ o ∈ e.opened} =
    {o | o ∈ used ∧ o ∈ e.opened} ∪ {o | o ∈ used' ∧ o ∈ e.opened} by
      ext o; simp [or_and_right]]

theorem bind_error {g : Failure} (hx : Goes w e m m' x fun r _ => r = .error g)
    (hR : ∀ U, R (.error g) U) : Goes w e m m' (x >>= f) R := by
  intro s hs
  obtain ⟨_, s', used, hrun, hs', rfl⟩ := hx s hs
  exact ⟨.error g, s', used, PlanM.bind_error hrun, hs', hR _⟩

/-- Before the rest, something that has no part in planning. -/
theorem skip {v : α} (hx : ∀ s, At w e m s → ∃ t, x s = (.ok v, t) ∧ s.Moves e e t)
    (hf : Goes w e m m' (f v) R) : Goes w e m m' (x >>= f) R := by
  intro s hs
  obtain ⟨t, hrun, ht⟩ := hx s hs
  obtain ⟨r, s', used, hrun', hs', hr⟩ := hf t (hs.moves ht)
  exact ⟨r, s', used, by rw [bind_ok hrun, hrun'], .entered ht hs', hr⟩

theorem after_look {v : α} (hx : w.Answers x (.ok v)) (hf : Goes w e m m' (f v) R) :
    Goes w e m m' (x >>= f) R :=
  skip (fun s hs => ⟨s, hx s hs.arena, .refl s e⟩) hf

theorem bind_refuse {g : Fault} (hx : w.Answers x (.error (.fault g)))
    (hR : ∀ U, R (.error (.here g)) U) : Goes w e m m (x >>= f) R :=
  bind_error (refuse hx rfl) hR

/-- A failure at a place is noted with it. -/
theorem atPlace (place : Segment) (h : Goes w e m m' x Q) :
    Goes w e m m' (PlanM.atPlace place x)
      fun r U => ∃ r₀, Q r₀ U ∧ r = r₀.mapError (.under [place]) := by
  intro s hs
  have hin : At w e m (s.planning (s.planner.push place)) :=
    ⟨hs.arena, ⟨hs.env.caching, hs.env.pending, hs.env.guesses, hs.env.depth⟩, hs.settled,
      hs.bodies, hs.alone⟩
  obtain ⟨r, s', used, hrun, hs', hq⟩ := h _ hin
  rw [atPlace_eq, hrun]
  refine ⟨r.mapError (.under [place]), ?_⟩
  cases r with
  | ok v =>
      refine ⟨s'.planning s'.planner.pop, used, rfl, ⟨⟨hs'.arena, ?_, hs'.settled, hs'.bodies,
        hs'.alone⟩, hs'.uses, congrArg List.tail hs'.path, hs'.noted⟩, .ok v, hq, rfl⟩
      exact ⟨hs'.env.caching, hs'.env.pending, hs'.env.guesses, hs'.env.depth⟩
  | error g =>
      refine ⟨s'.planning s'.planner.noteFault.pop, used, rfl, ?_, .error g, hq, rfl⟩
      rw [noteFault_eq]
      refine ⟨⟨hs'.arena, ?_, hs'.settled, hs'.bodies, hs'.alone⟩, hs'.uses,
        congrArg List.tail hs'.path, noting_push hs'.path hs'.noted⟩
      exact ⟨hs'.env.caching, hs'.env.pending, hs'.env.guesses, hs'.env.depth⟩

theorem lazily {p : Part} (h : Goes w (e.inside p.lazy) m m' x Q) :
    Goes w e m m' (p.lazily x) Q := by
  intro s hs
  unfold Part.lazily
  split
  · next hp =>
      rw [hp] at h
      have hin : s.Moves e (e.inside true)
          (s.planning { s.planner with lazyDepth := s.planner.lazyDepth + 1 }) :=
        ⟨rfl, rfl, rfl, rfl, rfl, rfl, rfl, fun h => h.inside⟩
      obtain ⟨r, s', used, hrun, hs', hq⟩ := h _ (hs.moves hin)
      have hout : s'.Moves (e.inside true) e
          (s'.planning { s'.planner with lazyDepth := s'.planner.lazyDepth - 1 }) :=
        ⟨rfl, rfl, rfl, rfl, rfl, rfl, rfl, fun h => h.outside⟩
      exact ⟨r, _, used, by rw [onDemand, bracket_eq, hrun], .left (.entered hin hs') hout, hq⟩
  · next hp =>
      rw [show p.lazy = false by simpa using hp] at h
      exact h s hs

theorem make {content : Assembly.Content} {Q : Except Failure Converter → Set TyId → Prop}
    (hQ : ∀ c : Converter, c.content = content → Q (.ok c) ∅) :
    Goes w e m m (PlanM.make content) Q := by
  intro s hs
  obtain ⟨c, s', hrun, hc, hmoves⟩ := make_run content s e
  exact ⟨.ok c, s', [], hrun, .entered hmoves (.refl (hs.moves hmoves)), by simpa using hQ c hc⟩

end Goes

end Work

/-! ## Results -/

/-- The result is what the judgement says, where `R` tells what is made of contents. -/
def Verdict.Gives {α : Type} (R : List Assembly.Content → α → Prop) (out : Verdict)
    (r : Except Failure α) (U : Set TyId) : Prop :=
  match out with
  | .ok (cs, V) => ∃ v, r = .ok v ∧ R cs v ∧ U = V
  | .error f => r = .error f

/-- The converter of a type. -/
abbrev Verdict.One : Verdict → Except Failure Converter → Set TyId → Prop :=
  Verdict.Gives fun cs c => cs = [c.content]

/-- The converter of a part, which may be omitted. -/
abbrev Verdict.Wrapped (p : Part) : Verdict → Except Failure Converter → Set TyId → Prop :=
  Verdict.Gives fun cs made => ∃ c, cs = [c] ∧ made.content = p.wrap c

/-- The converters of parts. -/
abbrev Verdict.Many (ps : List Part) : Verdict → Except Failure (List Converter) →
    Set TyId → Prop :=
  Verdict.Gives fun cs made => made.map content = List.zipWith Part.wrap ps cs

section Results

variable {α β : Type} {w : World} {e : Env} {m m₁ m' : Memory} {x : PlanM α} {f : α → PlanM β}
  {R : List Assembly.Content → α → Prop}

theorem Goes.placed {out : Verdict} (place : Segment) (h : Goes w e m m' x (out.Gives R)) :
    Goes w e m m' (PlanM.atPlace place x) (Verdict.Gives R (out.mapError (.under [place]))) := by
  refine (h.atPlace place).mono fun r U _ hr => ?_
  obtain ⟨r₀, hr₀, rfl⟩ := hr
  cases out with
  | error g => cases hr₀; rfl
  | ok result => obtain ⟨v, rfl, hv⟩ := hr₀; exact ⟨v, rfl, hv⟩

theorem Goes.bind_gives {cs : List Assembly.Content} {V : Set TyId}
    {Q : Except Failure β → Set TyId → Prop} (h : Goes w e m m₁ x (Verdict.Gives R (.ok (cs, V))))
    (hf : ∀ v U, R cs v ∧ U = V → Goes w e m₁ m' (f v) fun r U' => Q r (U ∪ U')) :
    Goes w e m m' (x >>= f) Q :=
  .bind h hf

end Results

/-- The work of a job, to a bounded depth. -/
def Job.Executes (w : World) (e : Env) (job : Job) (m : Memory) (out : Verdict) (m' : Memory)
    (d : Nat) : Prop :=
  match job with
  | .visit x => Goes w e m m' (planWithin w.catalog w.options d x) out.One
  | .layer x =>
    Goes w e m m' (forTerm w.catalog w.options d (planWithin w.catalog w.options d) x) out.One
  | .parts ps => Goes w e m m'
    (ps.mapM (Part.run w.catalog w.options d (planWithin w.catalog w.options d))) (out.Many ps)

section Shapes

variable {w : World} {e : Env} {m m₁ m' : Memory} {x : TyId} {d : Nat} {p : Part} {ps : List Part}
  {rec : TyId → PlanM Converter} {f : Failure} {c : Assembly.Content} {U V : Set TyId}
  (hw : w.Ready)

/-! ## Parts -/

theorem omitted_goes {x : PlanM Converter} {out : Verdict} (h : Goes w e m m' x out.One) :
    Goes w e m m' (p.omitted x) (out.Wrapped p) := by
  unfold Part.omitted
  split
  · next hp =>
      cases out with
      | error f => exact .bind_error h fun _ => rfl
      | ok result =>
          obtain ⟨cs, U⟩ := result
          refine .bind_gives h fun v V hv => .make fun made hmade => ?_
          obtain ⟨rfl, rfl⟩ := hv
          refine ⟨made, rfl, ⟨v.content, rfl, ?_⟩, Set.union_empty _⟩
          rw [hmade, Part.wrap, if_pos hp]
          rfl
  · next hp =>
      refine h.mono fun r V _ hr => ?_
      cases out with
      | error f => exact hr
      | ok result =>
          obtain ⟨v, rfl, hcs, rfl⟩ := hr
          exact ⟨v, rfl, ⟨v.content, hcs, by rw [Part.wrap, if_neg hp]⟩, rfl⟩

/-- What is done with a part behind its place is done at the part. -/
theorem at_part {out : Verdict} {R : List Assembly.Content → Converter → Prop}
    (h : Goes w e m m' (p.body w.catalog w.options d rec) (out.Gives R)) :
    Goes w e m m' (p.run w.catalog w.options d rec)
      (Verdict.Gives R (out.mapError (.under p.place.toList))) := by
  unfold Part.run
  cases p.place with
  | none => cases out <;> exact h
  | some place => exact h.placed place

include hw in
theorem part_goes {out : Verdict} (hp : w.arena.Has p.ty)
    (ha : w.Answers (p.check w.catalog w.options d) (.ok ()))
    (h : Goes w (e.inside p.lazy) m m' (rec p.ty) out.One) :
    Goes w e m m' (p.run w.catalog w.options d rec)
      (Verdict.Wrapped p (out.mapError (.under p.place.toList))) := by
  refine at_part ?_
  rw [body_eq]
  obtain ⟨r, b, hlook, -⟩ :=
    Part.checkDefault_inspects hw.sound hw.spans d hp
  rcases PlanM.Answers.of_bind ⟨r, b, hlook⟩ (fun hx => Part.checkAbsence_looks hx.sound
    (hw.spans.within hx.within) (hx.within.has hp)) ha with ⟨g, -, ⟨⟩⟩ | ⟨_, h₁, h₂⟩
  exact .after_look h₁ (.lazily (.after_look h₂ (omitted_goes h)))

include hw in
theorem part_refused {g : Fault} (hp : w.arena.Has p.ty)
    (ha : w.Answers (p.check w.catalog w.options d) (.error (.fault g))) :
    Goes w e m m (p.run w.catalog w.options d rec)
      fun r _ => r = .error ((Failure.here g).under p.place.toList) := by
  suffices h : Goes w e m m (p.body w.catalog w.options d rec)
      (Verdict.Gives (fun _ _ => False) (.error (.here g))) from at_part h
  rw [body_eq]
  obtain ⟨r, b, hlook, -⟩ :=
    Part.checkDefault_inspects hw.sound hw.spans d hp
  rcases PlanM.Answers.of_bind ⟨r, b, hlook⟩ (fun hx => Part.checkAbsence_looks hx.sound
    (hw.spans.within hx.within) (hx.within.has hp)) ha with ⟨_, h₁, ⟨⟩⟩ | ⟨_, h₁, h₂⟩
  · exact .bind_refuse h₁ fun _ => rfl
  · exact .after_look h₁ (.lazily (.bind_refuse h₂ fun _ => rfl))

/-! ## Layers -/

theorem assembles_iff {l : Layer} {t : Term} (hl : w.layer? x t = some l) {cs : List Converter}
    {contents : List Assembly.Content} {r : Except Halt Assembly.Content}
    (hcs : cs.map content = List.zipWith Part.wrap l.parts contents) :
    w.Assembles l contents r ↔ w.Answers (l.assemble cs) r := by
  have same : l.assemble (cs.map strip) = l.assemble cs := assemble_strip hl cs
  rw [Assembles, ← hcs, List.map_map, ← same]
  rfl

/-- A composite type is planned as its layer. -/
theorem forTerm_layer {t : Term} {l : Layer} {Q : Except Failure Converter → Set TyId → Prop}
    (ht : w.arena.term? x = some t) (hl : w.layer? x t = some l)
    (h : Goes w e m m' (l.run w.catalog w.options d rec) Q) :
    Goes w e m m' (forTerm w.catalog w.options d rec x) Q :=
  h.congr fun _ hs => forTerm_composite hl (hs.arena ▸ ht)

/-! ## References -/

/-- A reference is planned by `forReference`. -/
theorem forTerm_reference {Q : Except Failure Converter → Set TyId → Prop} (hx : w.Refers x)
    (h : Goes w e m m' (forReference w.catalog rec x) Q) :
    Goes w e m m' (forTerm w.catalog w.options d rec x) Q := by
  obtain ⟨t, ht, href⟩ := hx
  refine h.congr fun s hs => ?_
  rw [forTerm, bind_ok (arena_run s), hs.arena, ht]
  cases t <;> first | rfl | cases href

theorem open_goes {o : Open} (hx : w.Refers x) (ho : e.find? x = some o) :
    Goes w e m m (forTerm w.catalog w.options d rec x) (Verdict.One
      (if o.depth = e.depth then .error (.here (.cyclic (w.arena.text x) containsItself))
        else .ok ([o.guess], {x}))) := by
  refine forTerm_reference hx fun s hs => ?_
  have hguess := hs.env.guesses x
  rw [ho] at hguess
  obtain ⟨guess, hg, hcontent⟩ := Option.map_eq_some_iff.mp hguess
  have entered : s.planner.enteredAt x = some o.depth := by rw [hs.env.enteredAt, ho]; rfl
  rw [forReference, bind_ok (planner_run s), hg]
  dsimp only
  rw [forOpen, bind_ok (planner_run s), entered, hs.env.depth]
  by_cases hd : o.depth = e.depth
  · rw [if_pos (congrArg some hd), if_pos hd]
    exact ⟨.error (.here (.cyclic (s.shared.arena.text x) containsItself)), s, [], rfl, .refl hs,
      by rw [hs.arena]; rfl⟩
  · rw [if_neg fun h => hd (Option.some.inj h), if_neg hd]
    dsimp only
    rw [bind_ok (modifyPlanner_run _ s), pure_run]
    refine ⟨.ok guess, s.planning (s.planner.logUse x), [x], rfl, (Reaches.refl hs).logging rfl,
      guess, rfl, congrArg ([·]) hcontent.symm, ?_⟩
    ext y
    simp only [List.mem_singleton, Set.mem_ofPred_eq, Set.mem_singleton_iff]
    exact ⟨fun h => h.1, fun h => ⟨h, h ▸ Env.mem_opened.mpr ⟨o, ho⟩⟩⟩

theorem onArena_run {α : Type} (y : ArenaM α) (s : PlanState) :
    onArena y s = ((y s.shared.arena).1.mapError .fault, s.on (y s.shared.arena).2) := rfl

/-- A reference that is not open is planned by what it resolves to. -/
theorem closed_goes {r : Except Fault Referent} {Q : Except Failure Converter → Set TyId → Prop}
    (hx : e.find? x = none) (hr : w.Resolves x r)
    (h : Goes w e m m' (do
      let r ← PlanM.ofExcept r
      let shown ← PlanM.shown x
      if !r.recursive then
        atPlace (.expansion shown) (rec r.node)
      else if !r.regular then
        fail (.cyclic shown growingArguments)
      else
        bracket (fun p => p.enter x) (fun p => p.leave x)
          (twoTurns rec x r.node (.expansion shown))) Q) :
    Goes w e m m' (forReference w.catalog rec x) Q := by
  refine h.congr fun s hs => ?_
  have hguess := hs.env.guesses x
  rw [hx] at hguess
  have hg : s.planner.guess? x = none := Option.map_eq_none_iff.mp hguess
  rw [forReference, bind_ok (planner_run s), hg]
  have run : Planner.resolve w.catalog x s = (r.mapError .fault, s) := by
    show onArena (w.catalog.resolve x) s = _
    rw [onArena_run, hs.arena, hr, ← hs.arena, PlanState.on_self]
  dsimp only
  cases r with
  | error f => rw [PlanM.bind_error run]; rfl
  | ok ref => rw [bind_ok run]; rfl

/-- The two turns of a recursive type, the first of which gave `first`, and the
second, if there was one, `second`. -/
theorem turns_goes {node : TyId} {place : Segment} {first : Verdict} (second : Verdict)
    (m₂ : Memory) {Q : Except Failure Converter → Set TyId → Prop} (hx : e.find? x = none)
    (h₁ : Goes w (e.enter x none) m m₁ (rec node) first.One)
    (h₂ : ∀ c U, first = .ok ([c], U) → c ≠ none →
      Goes w (e.enter x (deferring x)) m₁ m₂ (rec node) second.One)
    (hfails : ∀ f, first = .error f → m' = m₁ ∧ ∀ U, Q (.error (f.under [place])) U)
    (hidle : ∀ U, first = .ok ([none], U) → m' = m₁ ∧ Q (.ok .identity) (U \ {x}))
    (hfails' : ∀ c U f, first = .ok ([c], U) → c ≠ none → second = .error f →
      m' = m₂ ∧ ∀ U, Q (.error (f.under [place])) U)
    (hdefers : ∀ c U d V, first = .ok ([c], U) → c ≠ none → second = .ok ([d], V) →
      m' = m₂.setBody x d ∧
        ∀ made : Converter, made.content = deferring x → Q (.ok made) ((U ∪ V) \ {x})) :
    Goes w e m m' (bracket (fun p => p.enter x) (fun p => p.leave x)
      (twoTurns rec x node place)) Q := by
  have within {g : Assembly.Content} (used : List TyId) :
      {o | o ∈ used ∧ o ∈ (e.enter x g).opened} \ {x} = {o | o ∈ used ∧ o ∈ e.opened} := by
    rw [← inter_opened hx fun o ho => ho.2]
    ext o
    simp only [Env.enter_opened, Set.mem_inter_iff, Set.mem_ofPred_eq, Set.mem_insert_iff]
    tauto
  intro s hs
  have enter := moves_enter (s := s) (e := e) (x := x)
  obtain ⟨r₁, t₁, used, hrun, ht₁, hfirst⟩ := h₁.placed place _ (hs.moves enter)
  rw [bracket_eq, twoTurns]
  cases first with
  | error f =>
      cases hfirst
      obtain ⟨rfl, hQ⟩ := hfails f rfl
      rw [PlanM.bind_error hrun]
      exact ⟨.error (f.under [place]), _, used, rfl, .left (.entered enter ht₁) (moves_leave hx),
        hQ _⟩
  | ok result =>
      obtain ⟨cs, U⟩ := result
      obtain ⟨c, rfl, rfl, rfl⟩ := hfirst
      rw [bind_ok hrun]
      by_cases hc : c.isIdentity = true
      · rw [if_pos hc]
        obtain ⟨rfl, hQ⟩ := hidle _ (by rw [(isIdentity_iff c).mp hc])
        refine ⟨.ok .identity, _, used, rfl, .left (.entered enter ht₁) (moves_leave hx), ?_⟩
        rw [← within used]
        exact hQ
      · rw [if_neg hc]
        have hne : c.content ≠ none := fun h => hc ((isIdentity_iff c).mpr h)
        obtain ⟨made, t₂, hmake, hmade, hmoves⟩ := make_run (deferring x) t₁ (e.enter x none)
        have guess := hmoves.trans (moves_setGuess (s := t₂) hmade)
        obtain ⟨r₂, t₃, used', hrun', ht₃, hsecond⟩ :=
          (h₂ _ _ rfl hne).placed place _ (ht₁.toAt.moves guess)
        rw [bind_ok hmake, bind_ok (modifyPlanner_run _ t₂)]
        have led := (ht₁.trans (.entered guess ht₃)).entered enter
        cases second with
        | error f =>
            cases hsecond
            obtain ⟨rfl, hQ⟩ := hfails' _ _ f rfl hne rfl
            rw [PlanM.bind_error hrun']
            exact ⟨.error (f.under [place]), _, _, rfl, led.left (moves_leave hx), hQ _⟩
        | ok result =>
            obtain ⟨ds, V⟩ := result
            obtain ⟨d, rfl, rfl, rfl⟩ := hsecond
            obtain ⟨rfl, hQ⟩ := hdefers _ _ _ _ rfl hne rfl
            rw [bind_ok hrun', bind_ok (modifyPlanner_run _ t₃), pure_run]
            refine ⟨.ok made, _, _, rfl, (led.setBody x d).left (moves_leave hx), ?_⟩
            have both : ({o | o ∈ used ∧ o ∈ (e.enter x none).opened} ∪
                {o | o ∈ used' ∧ o ∈ (e.enter x (deferring x)).opened}) \ {x} =
                {o | o ∈ used ++ used' ∧ o ∈ e.opened} := by
              rw [Set.union_sdiff_distrib, within used, within used']
              ext o
              simp [or_and_right]
            rw [← both]
            exact hQ made hmade

/-! ## Visits -/

theorem known_goes (hx : m.settled x = some c) :
    Goes w e m m (planLayer w.catalog w.options d rec x) (Verdict.One (.ok ([c], ∅))) := by
  intro s hs
  have settled : (s.planner.settled.lookup x).map content = some c := by
    rw [← hx, ← hs.settled]
    rfl
  obtain ⟨made, hmade, rfl⟩ := Option.map_eq_some_iff.mp settled
  rw [planLayer, bind_ok (planner_run s), hmade]
  exact ⟨.ok made, s, [], rfl, .refl hs, made, rfl, rfl, by simp⟩

/-- Without expectations of the cache, others may do as they like. -/
theorem heeds_any : Heeds (fun _ _ => True) (fun _ => True) :=
  ⟨fun _ => ⟨trivial, trivial⟩, fun _ _ _ => trivial, fun _ _ _ => trivial⟩

theorem World.Publishes.converters {bodies : Contents} {k k' : Stock} {tys : List TyId}
    (h : Publishes Eq bodies k tys k') : k'.converters = k.converters := by
  induction h with
  | done => rfl
  | skip _ _ ih => exact ih
  | offer _ hk _ ih => subst hk; exact ih

/-- A planner that shares nothing settles a result as it is, unless it has settled another one. -/
theorem At.settle {s : PlanState} (hs : At w e m s) (made : Converter)
    (hkept : ∀ d, m.settled x = some d → d = made.content) :
    ∃ kept s', Planner.settle x made s = (.ok kept, s') ∧ s.Rests s' ∧
      kept.content = made.content ∧ At w e (m.remember x made.content) s' := by
  by_cases hc : s.planner.caching = true
  · obtain ⟨quiet, mirror⟩ := hs.alone hc
    obtain ⟨kept, s', hrun, hrest, hquiet, hset⟩ := settle_settles heeds_quiet x made hs.env quiet
    rw [hs.env.caching] at hc
    generalize hmem : s'.memory = mem at hset
    generalize hcontent : kept.content = content at hset
    cases hset with
    | alone hn => rw [hc] at hn; cases hn
    | @shared tys k k₁ _ _ hp hk =>
        subst hk
        have found : k.converters = m.settled := by rw [hp.converters, mirror, hs.settled]
        have same : (k.converters x).getD made.content = made.content := by
          rw [found]
          cases hd : m.settled x with
          | none => rfl
          | some d => exact hkept d hd
        have put : k.converters.keep x made.content = m.settled.put x made.content := by
          funext u
          simp only [Contents.keep, Contents.put, same]
          rw [found]
        refine ⟨kept, s', hrun, hrest, hcontent.trans same, hrest.arena.trans hs.arena,
          hrest.env hs.env, ?_, ?_, fun _ => ⟨hquiet, ?_⟩⟩ <;> rw [hmem]
        · rw [same, Memory.found_settled, Memory.remember_settled, hs.settled]
          rfl
        · exact hs.bodies
        · rw [same]
          show k.converters.keep x made.content = s.memory.settled.put x made.content
          rw [put, hs.settled]
  · obtain ⟨kept, s', hrun, hrest, -, hset⟩ := settle_settles heeds_any x made hs.env trivial
    have hc' : ¬e.caching = true := hs.env.caching ▸ hc
    generalize hmem : s'.memory = mem at hset
    generalize hcontent : kept.content = content at hset
    cases hset with
    | shared hn => exact absurd hn hc'
    | alone =>
        refine ⟨kept, s', hrun, hrest, hcontent, hrest.arena.trans hs.arena, hrest.env hs.env, ?_, ?_,
          fun hn => absurd ((hrest.env hs.env).caching.symm.trans hn) hc'⟩ <;> rw [hmem]
        · rw [Memory.remember_settled, hs.settled]
          rfl
        · exact hs.bodies

section New

variable (hx : m.settled x = none)
include hx

/-- What is not settled is not in the cache either. -/
theorem planLayer_new {Q : Except Failure Converter → Set TyId → Prop}
    (h : Goes w e m m' (planAnew w.catalog w.options d rec x) Q) :
    Goes w e m m' (planLayer w.catalog w.options d rec x) Q := by
  refine h.congr fun s hs => ?_
  have settled : (s.planner.settled.lookup x).map content = none := by
    rw [← hx, ← hs.settled]
    rfl
  have look : fromCache x s = (.ok none, s) := by
    rw [fromCache, bind_ok (planner_run s)]
    by_cases hc : s.planner.caching = true
    · obtain ⟨quiet, mirror⟩ := hs.alone hc
      have missing : (s.shared.cache.converters.lookup x).map content = none :=
        (congrFun mirror x).trans settled
      rw [if_pos hc, onCache_run, Cache.get, quiet.arrive, Cache.converter?,
        Option.map_eq_none_iff.mp missing]
      rfl
    · rw [if_neg hc]
      rfl
  rw [planLayer, bind_ok (planner_run s), Option.map_eq_none_iff.mp settled]
  dsimp only
  rw [bind_ok look]

theorem fails_goes
    (h : Goes w e m m' (forTerm w.catalog w.options d rec x) (Verdict.One (.error f))) :
    Goes w e m m' (planLayer w.catalog w.options d rec x) (Verdict.One (.error f)) := by
  refine planLayer_new hx fun s hs => ?_
  obtain ⟨_, t, used, hrun, ht, rfl⟩ := h s hs
  rw [planAnew, bind_ok (planner_run s), bind_error (by rw [dropUsesOnHalt_eq, hrun]; rfl)]
  have cut : t.planner.uses.take s.planner.uses.length = s.planner.uses ++ [] := by
    rw [ht.uses, List.take_left, List.append_nil]
  exact ⟨.error f, _, [], rfl, ht.logging cut, rfl⟩

theorem settles_goes (hkept : ∀ d, m'.settled x = some d → d = c)
    (h : Goes w e m m' (forTerm w.catalog w.options d rec x) (Verdict.One (.ok ([c], ∅)))) :
    Goes w e m (m'.remember x c) (planLayer w.catalog w.options d rec x)
      (Verdict.One (.ok ([c], ∅))) := by
  refine planLayer_new hx fun s hs => ?_
  obtain ⟨_, t, used, hrun, ht, made, rfl, ⟨rfl⟩, hused⟩ := h s hs
  rw [planAnew, bind_ok (planner_run s), bind_ok (by rw [dropUsesOnHalt_eq, hrun]; rfl),
    bind_ok (planner_run t)]
  have empty : (t.planner.liveUses s.planner.uses.length).isEmpty = true := by
    refine List.isEmpty_iff.mpr (List.eq_nil_iff_forall_not_mem.mpr fun o ho => ?_)
    have : o ∈ {o | o ∈ used ∧ o ∈ e.opened} := (mem_liveUses ht.env ht.uses).mp ho
    rw [hused] at this
    exact this
  rw [if_pos empty, bind_ok (modifyPlanner_run _ t)]
  have cut : Reaches w e m' s [] [] (t.planning (t.planner.truncateUses s.planner.uses.length)) :=
    ht.logging (by rw [ht.uses, List.take_left, List.append_nil])
  obtain ⟨kept, s', hsettle, hrest, hcontent, hs'⟩ := cut.toAt.settle made hkept
  exact ⟨.ok kept, s', [], hsettle, ⟨hs', hrest.uses.trans cut.uses, hrest.path.trans cut.path,
    hrest.faultPath.trans cut.noted⟩, kept, rfl, congrArg ([·]) hcontent.symm, by simp⟩

theorem hangs_goes (hU : U.Nonempty)
    (h : Goes w e m m' (forTerm w.catalog w.options d rec x) (Verdict.One (.ok ([c], U)))) :
    Goes w e m m' (planLayer w.catalog w.options d rec x) (Verdict.One (.ok ([c], U))) := by
  refine planLayer_new hx fun s hs => ?_
  obtain ⟨_, t, used, hrun, ht, made, rfl, ⟨rfl⟩, rfl⟩ := h s hs
  have live {o : TyId} := mem_liveUses ht.env ht.uses (o := o)
  rw [planAnew, bind_ok (planner_run s), bind_ok (by rw [dropUsesOnHalt_eq, hrun]; rfl),
    bind_ok (planner_run t)]
  obtain ⟨o, ho⟩ := hU
  have nonempty : ¬(t.planner.liveUses s.planner.uses.length).isEmpty = true := by
    rw [List.isEmpty_iff]
    exact List.ne_nil_of_mem (live.mpr ho)
  rw [if_neg nonempty, bind_ok (modifyPlanner_run _ t), pure_run]
  have cut : t.planner.uses.take s.planner.uses.length ++
      t.planner.liveUses s.planner.uses.length =
        s.planner.uses ++ t.planner.liveUses s.planner.uses.length := by
    rw [ht.uses, List.take_left]
  refine ⟨.ok made, _, _, rfl, ht.logging cut, made, rfl, rfl, ?_⟩
  ext o
  simp [live]

end New

end Shapes

/-! ## The main statement -/

section Main

variable {w : World} {e : Env} {m m₁ m' : Memory} {x : TyId} {f : Fault}

/-- What a reference resolves to is stored. -/
theorem World.Resolves.has_node (hw : w.Ready) {r : Referent} (hr : w.Resolves x (.ok r)) :
    w.arena.Has r.node := by
  obtain ⟨t, ht⟩ := (Edge.node hr).term?
  obtain ⟨r', a', htries, hended⟩ :=
    Catalog.resolve_tries hw.spans hw.sound (Arena.has_of_term? ht)
  have same : ((.ok r : Except Fault Referent), w.arena) = (r', a') := hr.symm.trans htries.run
  cases same
  exact (hended r rfl).1

theorem has_part (hw : w.Ready) {t : Term} {l : Layer} (ht : w.arena.term? x = some t)
    (hl : w.layer? x t = some l) : ∀ y ∈ (Job.parts l.parts).types, w.arena.Has y := by
  intro y hy
  rcases parts_ty hl with hc | ⟨hc, -⟩
  · exact hw.sound.has_child ht (hc ▸ hy)
  · rw [Job.types, hc] at hy; cases hy

theorem has_visit (hx : w.arena.Has x) : ∀ y ∈ (Job.visit x).types, w.arena.Has y :=
  fun _ hy => List.mem_singleton.mp hy ▸ hx

theorem answers_shown : w.Answers (PlanM.shown x) (.ok (w.arena.text x)) :=
  fun s hs => by rw [shown_run, hs]

/-- A reference that resolves and is not open. -/
theorem resolved_goes {rec : TyId → PlanM Converter} {d : Nat} {r : Referent}
    {Q : Except Failure Converter → Set TyId → Prop} (hx : e.find? x = none)
    (hr : w.Resolves x (.ok r))
    (h : Goes w e m m' (if !r.recursive then
        atPlace (.expansion (w.arena.text x)) (rec r.node)
      else if !r.regular then
        fail (.cyclic (w.arena.text x) growingArguments)
      else
        bracket (fun p => p.enter x) (fun p => p.leave x)
          (twoTurns rec x r.node (.expansion (w.arena.text x)))) Q) :
    Goes w e m m' (forTerm w.catalog w.options d rec x) Q :=
  forTerm_reference hr.refers (closed_goes hx hr
    (.after_look (.pure r) (.after_look answers_shown h)))

/-- A declaration that does not lead back to itself is planned in its place. -/
theorem inline_goes {rec : TyId → PlanM Converter} {d : Nat} {r : Referent}
    {Q : Except Failure Converter → Set TyId → Prop} (hx : e.find? x = none)
    (hr : w.Resolves x (.ok r)) (hn : r.recursive = false)
    (h : Goes w e m m' (atPlace (.expansion (w.arena.text x)) (rec r.node)) Q) :
    Goes w e m m' (forTerm w.catalog w.options d rec x) Q := by
  refine resolved_goes hx hr ?_
  rw [if_pos (by simp [hn])]
  exact h

/-- One that does, with regular arguments, is planned in two turns. -/
theorem recursive_goes {rec : TyId → PlanM Converter} {d : Nat} {r : Referent}
    {Q : Except Failure Converter → Set TyId → Prop} (hx : e.find? x = none)
    (hr : w.Resolves x (.ok r)) (hrec : r.recursive = true) (hreg : r.regular = true)
    (h : Goes w e m m' (bracket (fun p => p.enter x) (fun p => p.leave x)
      (twoTurns rec x r.node (.expansion (w.arena.text x)))) Q) :
    Goes w e m m' (forTerm w.catalog w.options d rec x) Q := by
  refine resolved_goes hx hr ?_
  rw [if_neg (by simp [hrec]), if_neg (by simp [hreg])]
  exact h

theorem deeper {P Q : Nat → Prop} (h : ∃ n, ∀ d ≥ n, P d) (hPQ : ∀ d, P d → Q d) :
    ∃ n, ∀ d ≥ n, Q d := by
  obtain ⟨n, h⟩ := h
  exact ⟨n, fun d hd => hPQ d (h d hd)⟩

theorem deeper₂ {P P' Q : Nat → Prop} (h : ∃ n, ∀ d ≥ n, P d) (h' : ∃ n, ∀ d ≥ n, P' d)
    (hPQ : ∀ d, P d → P' d → Q d) : ∃ n, ∀ d ≥ n, Q d := by
  obtain ⟨n, h⟩ := h
  obtain ⟨n', h'⟩ := h'
  exact ⟨max n n', fun d hd => hPQ d (h d (by omega)) (h' d (by omega))⟩

/-- A visit needs one level more than what is done in it. -/
theorem deeper_visit {out : Verdict} {P : Nat → Prop} (h : ∃ n, ∀ d ≥ n, P d)
    (hP : ∀ d, P d → Goes w e m m' (planLayer w.catalog w.options d
      (planWithin w.catalog w.options d) x) out.One) :
    ∃ n, ∀ d ≥ n, (Job.visit x).Executes w e m out m' d := by
  obtain ⟨n, h⟩ := h
  refine ⟨n + 1, fun d hd => ?_⟩
  obtain ⟨d, rfl⟩ : ∃ d', d = d' + 1 := ⟨d - 1, by omega⟩
  exact hP d (h d (by omega))

/-- Without the cache a miss changes nothing. -/
theorem World.Misses.uncached {rivals : Stock → Stock → Prop} (h : Misses rivals e m x m')
    (hc : e.caching = false) : m' = m := by
  cases h with
  | alone => rfl
  | shared hc' => cases hc.symm.trans hc'

/-- Without the cache a result is remembered, and nothing else. -/
theorem World.Settles.uncached {rivals : Stock → Stock → Prop} {c d : Assembly.Content}
    (h : Settles rivals e m x c d m') (hc : e.caching = false) :
    d = c ∧ m' = m.remember x c := by
  cases h with
  | alone => exact ⟨rfl, rfl⟩
  | shared hc' => cases hc.symm.trans hc'

/-- A planner that uses no cache, or is alone with its own, does what the judgement derives for
one that uses none. -/
theorem World.Plans.executes (hw : w.Ready) (k : Bool) {job : Job} {out : Verdict}
    (h : w.Plans Eq e job m out m') : e.caching = false → w.HonestEnv e → w.Honest m →
      (∀ x ∈ job.types, w.arena.Has x) → ∃ n, ∀ d ≥ n, job.Executes w (e.using k) m out m' d := by
  have vouching : w.Vouching Eq := by rintro _ _ rfl h; exact h
  induction h with
  | remembered hs =>
      exact fun _ _ _ _ => deeper_visit ⟨0, fun _ _ => trivial⟩ fun _ _ => known_goes hs
  | adopted _ hc | bodyless _ hc =>
      intro hc'
      rw [hc] at hc'
      cases hc'
  | settles hs hm h hset ih =>
      intro hc he hon hx
      obtain rfl := hm.uncached hc
      obtain ⟨rfl, rfl⟩ := hset.uncached hc
      -- What may have been settled meanwhile is canonical, like the result.
      obtain ⟨hon', said⟩ := h.speaks vouching he hon
      have canon := (Speaks.good (said _ _ rfl)).2
      exact deeper_visit (ih hc he hon hx) fun _ h =>
        settles_goes hs (fun d hd => (hon'.settled _ d hd).2.unique canon) h
  | hangs hs hm hU _ ih =>
      intro hc he hon hx
      obtain rfl := hm.uncached hc
      exact deeper_visit (ih hc he hon hx) fun _ h => hangs_goes hs hU h
  | fails hs hm _ ih =>
      intro hc he hon hx
      obtain rfl := hm.uncached hc
      exact deeper_visit (ih hc he hon hx) fun _ h => fails_goes hs h
  | @leaf e m x t ht hl =>
      refine fun _ _ _ _ => ⟨0, fun d _ => ?_⟩
      have idle : Goes w (e.using k) m m (pure Converter.identity)
          (Verdict.One (.ok ([none], ∅))) := .pure _ ⟨.identity, rfl, rfl, rfl⟩
      refine idle.congr fun s hs => ?_
      rw [forTerm, bind_ok (arena_run s), hs.arena, ht]
      cases t <;> first | rfl | cases hl
  | refused ht hl hb =>
      exact fun _ _ _ _ => ⟨0, fun d _ => forTerm_layer ht hl (.bind_refuse hb fun _ => rfl)⟩
  | partsFail ht hl hb _ ih =>
      intro hc he hon hx
      exact deeper (ih hc he hon (has_part hw ht hl)) fun d h =>
        forTerm_layer ht hl (.after_look hb (.bind_error h fun _ => rfl))
  | unassembled ht hl hb _ ha ih =>
      intro hc he hon hx
      refine deeper (ih hc he hon (has_part hw ht hl)) fun d h =>
        forTerm_layer ht hl (.after_look hb (Goes.bind_gives h fun made U hmade => ?_))
      exact .bind_refuse ((assembles_iff hl hmade.1).mp ha) fun _ => rfl
  | assembled ht hl hb _ ha ih =>
      intro hc he hon hx
      refine deeper (ih hc he hon (has_part hw ht hl)) fun d h =>
        forTerm_layer ht hl (.after_look hb (Goes.bind_gives h fun made U hmade => ?_))
      refine .after_look ((assembles_iff hl hmade.1).mp ha) (.make fun c hc => ?_)
      exact ⟨c, rfl, congrArg ([·]) hc.symm, by rw [Set.union_empty, hmade.2]⟩
  | @circles e m x o hx ho hd =>
      refine fun _ _ _ _ => ⟨0, fun d _ => ?_⟩
      have opened := @open_goes w (e.using k) m x d (planWithin w.catalog w.options d) o hx ho
      rwa [if_pos (show o.depth = (e.using k).depth from hd)] at opened
  | @guessed e m x o hx ho hd =>
      refine fun _ _ _ _ => ⟨0, fun d _ => ?_⟩
      have opened := @open_goes w (e.using k) m x d (planWithin w.catalog w.options d) o hx ho
      rwa [if_neg (show ¬o.depth = (e.using k).depth from hd)] at opened
  | @unresolved e m x f hx ho hr =>
      refine fun _ _ _ _ => ⟨0, fun d _ => forTerm_reference hx
        (closed_goes (e := e.using k) ho hr ?_)⟩
      exact .bind_refuse (.fail _) fun _ => rfl
  | @inline e m m' x r cs U ho hr hn _ ih =>
      intro hc he hon hx
      exact deeper (ih hc he hon (has_visit (hr.has_node hw))) fun d h =>
        inline_goes (e := e.using k) ho hr hn (Goes.placed _ h)
  | @inlineFails e m m' x r f ho hr hn _ ih =>
      intro hc he hon hx
      exact deeper (ih hc he hon (has_visit (hr.has_node hw))) fun d h =>
        inline_goes (e := e.using k) ho hr hn (Goes.placed _ h)
  | @grows e m x r ho hr hrec hreg =>
      refine fun _ _ _ _ => ⟨0, fun d _ => resolved_goes (e := e.using k) ho hr ?_⟩
      rw [if_neg (by simp [hrec]), if_pos (by simp [hreg])]
      exact .refuse (.fail _) rfl
  | @firstFails e m m' x r f ho hr hrec hreg _ ih =>
      intro hc he hon hx
      refine deeper (ih hc (he.first_turn hr hrec hreg) hon (has_visit (hr.has_node hw)))
        fun d h => recursive_goes (e := e.using k) ho hr hrec hreg ?_
      refine turns_goes (.error f) m' (e := e.using k) ho h (by simp) ?_ (by simp) (by simp)
        (by simp)
      rintro _ ⟨⟩
      exact ⟨rfl, fun _ => rfl⟩
  | @idle e m m' x r U ho hr hrec hreg _ ih =>
      intro hc he hon hx
      refine deeper (ih hc (he.first_turn hr hrec hreg) hon (has_visit (hr.has_node hw)))
        fun d h => recursive_goes (e := e.using k) ho hr hrec hreg ?_
      refine turns_goes (.ok ([], ∅)) m' (e := e.using k) ho h ?_ (by simp) ?_ (by simp) ?_
      · rintro _ _ ⟨⟩ hne
        exact absurd rfl hne
      · rintro _ ⟨⟩
        exact ⟨rfl, .identity, rfl, rfl, rfl⟩
      · rintro _ _ _ _ ⟨⟩ hne
        exact absurd rfl hne
  | @secondFails e m m₁ m' x r c U f ho hr hrec hreg h hne _ ih ih' =>
      intro hc he hon hx
      have hnode := has_visit (hr.has_node hw)
      have he₁ := he.first_turn hr hrec hreg
      obtain ⟨hon₁, said⟩ := h.speaks vouching he₁ hon
      have he₂ := he.second_turn hr hrec hreg (said _ _ rfl) hne
      refine deeper₂ (ih hc he₁ hon hnode) (ih' hc he₂ hon₁ hnode) fun d h h' =>
          recursive_goes (e := e.using k) ho hr hrec hreg ?_
      refine turns_goes _ _ (e := e.using k) ho h (fun _ _ _ _ => h') (by simp) ?_ ?_ (by simp)
      · rintro _ ⟨⟩
        exact absurd rfl hne
      · rintro _ _ _ - - ⟨⟩
        exact ⟨rfl, fun _ => rfl⟩
  | @defers e m m₁ m₂ x r c d U V ho hr hrec hreg h hne _ ih ih' =>
      intro hc he hon hx
      have hnode := has_visit (hr.has_node hw)
      have he₁ := he.first_turn hr hrec hreg
      obtain ⟨hon₁, said⟩ := h.speaks vouching he₁ hon
      have he₂ := he.second_turn hr hrec hreg (said _ _ rfl) hne
      refine deeper₂ (ih hc he₁ hon hnode) (ih' hc he₂ hon₁ hnode) fun d h h' =>
          recursive_goes (e := e.using k) ho hr hrec hreg ?_
      refine turns_goes _ _ (e := e.using k) ho h (fun _ _ _ _ => h') (by simp) ?_ (by simp) ?_
      · rintro _ ⟨⟩
        exact absurd rfl hne
      · rintro _ _ _ _ ⟨⟩ - ⟨⟩
        exact ⟨rfl, fun made hmade => ⟨made, rfl, congrArg ([·]) hmade.symm, rfl⟩⟩
  | noParts => exact fun _ _ _ _ => ⟨0, fun d _ => .pure [] ⟨[], rfl, rfl, rfl⟩⟩
  | partRefused ha =>
      intro hc he hon hx
      refine deeper ha fun d ha => ?_
      show Goes _ _ _ _ _ _
      rw [List.mapM_cons]
      exact .bind_error (part_refused hw (hx _ (List.mem_cons_self ..)) ha) fun _ => rfl
  | @partFails e m m' p ps f ha _ ih =>
      intro hc he hon hx
      have hp := hx _ (List.mem_cons_self ..)
      refine deeper₂ ha (ih hc (he.inside _) hon (has_visit hp)) fun d ha h => ?_
      show Goes _ _ _ _ _ _
      rw [List.mapM_cons]
      exact .bind_error (part_goes (e := e.using k) hw hp ha h) fun _ => rfl
  | @restFails e m m₁ m' p ps c U f ha h _ ih ih' =>
      intro hc he hon hx
      have hp := hx _ (List.mem_cons_self ..)
      have hon₁ := (h.speaks vouching (he.inside _) hon).1
      have hps := ih' hc he hon₁ fun y hy => hx y (List.mem_cons_of_mem _ hy)
      refine deeper₂ (deeper₂ ha (ih hc (he.inside _) hon (has_visit hp)) fun d ha h =>
        And.intro ha h) hps fun d h h' => ?_
      show Goes _ _ _ _ _ _
      rw [List.mapM_cons]
      refine .bind_gives (part_goes (e := e.using k) hw hp h.1 h.2) fun made _ _ => ?_
      exact .bind_error h' fun _ => rfl
  | @someParts e m m₁ m' p ps c cs U V ha h _ ih ih' =>
      intro hc he hon hx
      have hp := hx _ (List.mem_cons_self ..)
      have hon₁ := (h.speaks vouching (he.inside _) hon).1
      have hps := ih' hc he hon₁ fun y hy => hx y (List.mem_cons_of_mem _ hy)
      refine deeper₂ (deeper₂ ha (ih hc (he.inside _) hon (has_visit hp)) fun d ha h =>
        And.intro ha h) hps fun d h h' => ?_
      show Goes _ _ _ _ _ _
      rw [List.mapM_cons]
      refine .bind_gives (part_goes (e := e.using k) hw hp h.1 h.2) fun made _ hmade => ?_
      obtain ⟨⟨c', ⟨⟩, hwrap⟩, hU⟩ := hmade
      refine .bind_gives h' fun rest _ hrest => .pure _ ⟨made :: rest, rfl, ?_, ?_⟩
      · show (made :: rest).map content = List.zipWith Part.wrap (p :: ps) (c :: cs)
        rw [List.map_cons, hwrap, hrest.1, List.zipWith_cons_cons]
      · rw [hU, hrest.2, Set.union_empty]

end Main

end Marshal
