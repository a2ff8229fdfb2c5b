import Marshal.Proofs.Conduct
import Marshal.Proofs.Sessions

/-!
# Scratch state is restored

While it is at work, a planner guesses, keeps types open, counts lazily converted
positions, notes where it stands and logs which guesses it used. However its work ends,
all of that is again what it was before, and of the log nothing is left but uses of
guesses that are still open (`Restored`). This needs no invariant: it holds in every state
whatever, also in the midst of other work.

Only a reference enters what it has to leave. Between its two turns the guess for it
changes, so its turns are compared with that guess left out.
-/

namespace Marshal

open Planner PlanM

/-! ## What is restored -/

/-- The planner stands as before, has kept what it had settled, and has logged nothing but uses
of open guesses and of the types in `A`. -/
structure Planner.Restored (A : Set TyId) (p q : Planner) : Prop where
  guesses : q.guesses = p.guesses
  pending : q.pending = p.pending
  lazyDepth : q.lazyDepth = p.lazyDepth
  path : q.path = p.path
  settled : ∀ u c, p.settled.lookup u = some c → q.settled.lookup u = some c
  uses : ∃ used, q.uses = p.uses ++ used ∧ ∀ u ∈ used, (p.guess? u).isSome = true ∨ u ∈ A

namespace Planner.Restored

variable {A B : Set TyId} {p q r : Planner} {ty : TyId} {c : Converter}

theorem of_same (guesses : q.guesses = p.guesses) (pending : q.pending = p.pending)
    (lazyDepth : q.lazyDepth = p.lazyDepth) (path : q.path = p.path)
    (settled : q.settled = p.settled) (uses : q.uses = p.uses) : Restored A p q :=
  ⟨guesses, pending, lazyDepth, path, fun _ _ h => settled ▸ h, [], by simp [uses], by simp⟩

theorem refl (A : Set TyId) (p : Planner) : Restored A p p := of_same rfl rfl rfl rfl rfl rfl

theorem mono (hAB : A ⊆ B) (h : Restored A p q) : Restored B p q := by
  obtain ⟨used, huses, hused⟩ := h.uses
  exact { h with uses := ⟨used, huses, fun u hu => (hused u hu).imp_right fun hA => hAB hA⟩ }

theorem guess? (h : Restored A p q) (u : TyId) : q.guess? u = p.guess? u := by
  rw [Planner.guess?, h.guesses, Planner.guess?]

theorem trans (h : Restored A p q) (h' : Restored A q r) : Restored A p r := by
  obtain ⟨used, huses, hused⟩ := h.uses
  obtain ⟨used', huses', hused'⟩ := h'.uses
  refine ⟨h'.guesses.trans h.guesses, h'.pending.trans h.pending, h'.lazyDepth.trans h.lazyDepth,
    h'.path.trans h.path, fun u c hu => h'.settled u c (h.settled u c hu), used ++ used', ?_, ?_⟩
  · rw [huses', huses, List.append_assoc]
  · intro u hu
    rcases List.mem_append.mp hu with hu | hu
    · exact hused u hu
    · have := hused' u hu
      rwa [h.guess?] at this

/-- What was not settled may be settled now. -/
theorem remember (h : Restored A p q) (hty : p.settled.lookup ty = none) :
    Restored A p (q.remember ty c) := by
  refine { h with settled := fun u d hu => ?_ }
  have hne : u ≠ ty := by
    rintro rfl
    rw [hty] at hu
    cases hu
  rw [Planner.remember, List.lookup_cons, beq_false_of_ne hne]
  exact h.settled u d hu

theorem logUse (hty : (p.guess? ty).isSome = true) : Restored A p (p.logUse ty) :=
  ⟨rfl, rfl, rfl, rfl, fun _ _ h => h, [ty], rfl, by simpa using .inl hty⟩

/-- As many uses as there were before are those that there were before. -/
theorem take_uses (h : Restored A p q) : q.uses.take p.uses.length = p.uses := by
  obtain ⟨used, huses, -⟩ := h.uses
  rw [huses, List.take_left]

theorem truncateUses (h : Restored A p q) : Restored B p (q.truncateUses p.uses.length) :=
  { h with uses := ⟨[], by simpa [Planner.truncateUses] using h.take_uses, by simp⟩ }

theorem keepLiveUses (h : Restored A p q) : Restored B p (q.keepLiveUses p.uses.length) := by
  refine { h with uses := ⟨q.liveUses p.uses.length, ?_, fun u hu => ?_⟩ }
  · rw [Planner.keepLiveUses, h.take_uses]
  · rw [Planner.liveUses, Converter.mem_distinct, List.mem_filter] at hu
    rw [← h.guess?]
    exact .inl hu.2

/-- Where there are no guesses, none is used. -/
theorem uses_eq (h : Restored ∅ p q) (hp : p.guesses = []) : q.uses = p.uses := by
  obtain ⟨used, huses, hused⟩ := h.uses
  have nothing : used = [] := List.eq_nil_iff_forall_not_mem.mpr fun u hu => by
    rcases hused u hu with hu | hu
    · rw [Planner.guess?, hp] at hu
      cases hu
    · exact hu
  rw [huses, nothing, List.append_nil]

/-- With a guess left out, its use is a use of no guess. -/
theorem dropGuess (h : Restored ∅ p q) (ty : TyId) :
    Restored {ty} (p.dropGuess ty) (q.dropGuess ty) := by
  obtain ⟨used, huses, hused⟩ := h.uses
  refine ⟨?_, h.pending, h.lazyDepth, h.path, h.settled, used, huses, fun u hu => ?_⟩
  · rw [Planner.dropGuess, h.guesses, Planner.dropGuess]
  · by_cases hut : u = ty
    · exact .inr hut
    · rw [Env.Of.guess?_dropGuess, if_neg hut]
      exact .inl ((hused u hu).resolve_right id)

end Planner.Restored

theorem Planner.dropGuess_self {p : Planner} {ty : TyId} (h : p.guess? ty = none) :
    p.dropGuess ty = p := by
  have rest : p.guesses.filter (fun e => e.1 ≠ ty) = p.guesses := by
    refine List.filter_eq_self.mpr fun e he => ?_
    exact decide_eq_true (bne_iff_ne.mp (List.lookup_eq_none_iff.mp h e he)).symm
  rw [Planner.dropGuess, rest]

theorem Planner.dropGuess_setGuess (p : Planner) (ty : TyId) (c : Converter) :
    (p.setGuess ty c).dropGuess ty = p.dropGuess ty := by
  simp [Planner.dropGuess, Planner.setGuess]

/-- What is left of a type that was entered is what was there before. -/
theorem Planner.Restored.leave {p q : Planner} {ty : TyId} (hty : p.guess? ty = none)
    (h : Restored {ty} ((p.enter ty).dropGuess ty) (q.dropGuess ty)) :
    Restored {ty} p (q.leave ty) := by
  have outside :
      (p.enter ty).dropGuess ty = { p with pending := ⟨ty, p.lazyDepth⟩ :: p.pending } := by
    have := p.dropGuess_setGuess ty .identity
    rw [dropGuess_self hty] at this
    exact congrArg (fun r : Planner => { r with pending := ⟨ty, p.lazyDepth⟩ :: p.pending }) this
  rw [outside] at h
  have pending : q.pending.tail = p.pending := by rw [show q.pending = _ from h.pending]; rfl
  exact ⟨h.guesses, pending, h.lazyDepth, h.path, h.settled, h.uses⟩

/-! ## All of planning restores -/

/-- The work leaves the planner restored, but for uses of the types in `A`. -/
def restores (A : Set TyId) : Conduct := fun s _ t => Restored A s.planner t.planner

theorem Planner.Restored.depart {A : Set TyId} {p q : Planner} {place : Segment}
    (h : Restored A (p.push place) q) (end? : Option Halt) : Restored A p (q.depart end?) := by
  have path : q.path.tail = p.path := by rw [h.path]; rfl
  have rest : q.noteFault.pop = { q with path := p.path, faultPath := q.noteFault.faultPath } := by
    rw [← path, noteFault_eq]
    rfl
  unfold Planner.depart
  split
  · rw [rest]
    exact ⟨h.guesses, h.pending, h.lazyDepth, rfl, h.settled, h.uses⟩
  · exact ⟨h.guesses, h.pending, h.lazyDepth, path, h.settled, h.uses⟩

theorem restores_same {A : Set TyId} {s t : PlanState} {h : Option Halt}
    (same : t.planner = s.planner) : restores A s h t := by
  rw [restores, same]
  exact .refl A _

theorem restores_lawful (A : Set TyId) : (restores A).Lawful where
  peeks same _ := restores_same same.planner
  seq h h' := h.trans h'
  onDemand h := ⟨h.guesses, h.pending, congrArg (· - 1) h.lazyDepth, h.path, h.settled, h.uses⟩
  atPlace _ h := h.depart _

/-- As `restores`, for work below an entered type, whose guess is left out. -/
def turns (ty : TyId) : Conduct := fun s _ t =>
  Restored {ty} (s.planner.dropGuess ty) (t.planner.dropGuess ty)

theorem turns_lawful (ty : TyId) : (turns ty).Lawful where
  peeks same _ := by rw [turns, same.planner]; exact .refl _ _
  seq h h' := h.trans h'
  onDemand h := ⟨h.guesses, h.pending, congrArg (· - 1) h.lazyDepth, h.path, h.settled, h.uses⟩
  atPlace {s t end?} place h := by
    have drop : (t.planner.depart end?).dropGuess ty = (t.planner.dropGuess ty).depart end? := by
      cases end? with
      | none => rfl
      | some _ => simp only [Planner.depart, noteFault_eq]; rfl
    have inside : Restored {ty} ((s.planner.dropGuess ty).push place) (t.planner.dropGuess ty) := h
    show Restored _ _ ((t.planner.depart end?).dropGuess ty)
    rw [drop]
    exact inside.depart end?

namespace Planner

variable {catalog : Catalog} {options : Options} {depth : Nat} {rec : TyId → PlanM Converter}
  {ty : TyId} {s : PlanState}

section Recursion

variable (hrec : ∀ ty, Obeys (restores ∅) (rec ty))
include hrec

theorem twoTurns_turns (node : TyId) (place : Segment) :
    Obeys (turns ty) (twoTurns rec ty node place) := by
  have lawful := turns_lawful ty
  have turn : Obeys (turns ty) (atPlace place (rec node)) :=
    .atPlace lawful place fun s => (hrec node s).dropGuess ty
  refine .bind lawful turn fun first => ?_
  split
  · exact .of_peeks lawful (.pure _)
  · refine .bind lawful (.of_peeks lawful (.make _)) fun c => ?_
    have guess : Obeys (turns ty) (modifyPlanner fun p => p.setGuess ty c) := fun s => by
      show Restored _ _ ((s.planner.setGuess ty c).dropGuess ty)
      rw [dropGuess_setGuess]
      exact .refl _ _
    refine .bind lawful guess fun _ => .bind lawful turn fun body => ?_
    exact .bind lawful (fun _ => .of_same rfl rfl rfl rfl rfl rfl) fun _ =>
      .of_peeks lawful (.pure _)

theorem forReference_restores : Obeys (restores {ty}) (forReference catalog rec ty) := by
  have lawful := restores_lawful {ty}
  intro s
  rw [forReference, bind_ok (planner_run s)]
  cases hguess : s.planner.guess? ty with
  | some guess =>
      have logged : restores {ty} s none (s.planning (s.planner.logUse ty)) :=
        .logUse (by rw [hguess]; rfl)
      dsimp only
      rw [forOpen, bind_ok (planner_run s)]
      split
      · exact .refl _ _
      · exact logged
  | none =>
      -- Resolving leaves the planner as it is, so the type is still not open when it is entered.
      have same := ((resolve_peeks : Peeks (resolve catalog ty)) s).1.planner
      dsimp only
      rcases hres : resolve catalog ty s with ⟨h | r, t⟩ <;> rw [hres] at same
      · rw [bind_error hres]
        exact restores_same same
      · rw [bind_ok hres, bind_ok (show shown ty t = (.ok _, t) from rfl)]
        have ht : t.planner.guess? ty = none := by rw [show t.planner = _ from same, hguess]
        refine lawful.seq (restores_same same) (t := t) ?_
        split
        · exact Obeys.atPlace lawful _ (fun u => (hrec r.node u).mono (Set.empty_subset _)) t
        · split
          · exact .refl _ _
          · exact .leave ht (twoTurns_turns hrec r.node _ (t.planning (t.planner.enter ty)))

end Recursion

/-! ### The memory -/

theorem shareBodies_run : ∀ (tys : List TyId) (s : PlanState),
    ∃ sh, shareBodies tys s = (.ok (), ⟨sh, s.planner⟩)
  | [], s => ⟨s.shared, rfl⟩
  | ty :: tys, s => by
      rw [shareBodies, bind_ok (planner_run s)]
      cases s.planner.fixpoints.find? ty with
      | some body => exact shareBodies_run tys ⟨_, s.planner⟩
      | none => exact shareBodies_run tys s

theorem settle_run (ty : TyId) (c : Converter) (s : PlanState) :
    ∃ kept sh, settle ty c s = (.ok kept, ⟨sh, s.planner.remember ty kept⟩) := by
  rw [settle, bind_ok (planner_run s)]
  split
  · obtain ⟨sh, hshare⟩ := shareBodies_run (s.planner.fixpoints.needed c.targets) s
    rw [bind_ok hshare]
    exact ⟨_, _, rfl⟩
  · exact ⟨_, _, rfl⟩

theorem fromCache_run (ty : TyId) (s : PlanState) :
    ∃ found sh, fromCache ty s = (.ok found, ⟨sh, s.planner⟩) := by
  rw [fromCache, bind_ok (planner_run s)]
  split <;> exact ⟨_, _, rfl⟩

theorem takeBodies_run : ∀ (turns : Nat) (stack : List TyId) (s : PlanState),
    ∃ r sh table, takeBodies turns stack s = (r, ⟨sh, { s.planner with fixpoints := table }⟩)
  | _, [], s => by
      rw [takeBodies]
      exact ⟨_, s.shared, s.planner.fixpoints, rfl⟩
  | 0, _ :: _, s => ⟨_, s.shared, s.planner.fixpoints, rfl⟩
  | turns + 1, ty :: stack, s => by
      rw [takeBodies, bind_ok (planner_run s)]
      split
      · exact takeBodies_run turns stack s
      · have asked : onCache (Cache.getBody ty) s =
            (.ok (Cache.getBody ty s.shared.cache).1, ⟨_, s.planner⟩) := rfl
        rw [bind_ok asked]
        cases (Cache.getBody ty s.shared.cache).1 with
        | none => exact ⟨_, _, s.planner.fixpoints, rfl⟩
        | some body =>
            obtain ⟨r, sh, table, rest⟩ := takeBodies_run turns (body.targets.reverse ++ stack)
              ⟨_, s.planner.setBody ty body⟩
            exact ⟨r, sh, table, rest⟩

/-- Planning a type restores, and logs nothing at all if it halts. -/
def clears : Conduct := fun s h t =>
  Restored ∅ s.planner t.planner ∧ (h.isSome = true → t.planner.uses = s.planner.uses)

theorem clears_ok {s t : PlanState} (h : Restored ∅ s.planner t.planner) : clears s none t :=
  ⟨h, fun halted => absurd halted Bool.false_ne_true⟩

section Recursion

variable (hrec : ∀ ty, Obeys (restores ∅) (rec ty))
include hrec

theorem planAnew_clears (hty : s.planner.settled.lookup ty = none) :
    clears s (haltOf (planAnew catalog options depth rec ty s).1)
      (planAnew catalog options depth rec ty s).2 := by
  have term : Obeys (restores {ty}) (forTerm catalog options depth rec ty) :=
    (restores_lawful {ty}).term (fun u s => (hrec u s).mono (Set.empty_subset _))
      (forReference_restores hrec)
  have ran := term s
  rw [planAnew, bind_ok (planner_run s)]
  rcases hterm : forTerm catalog options depth rec ty s with ⟨h | c, t⟩ <;> rw [hterm] at ran
  · -- What was logged is forgotten.
    have dropped : dropUsesOnHalt (forTerm catalog options depth rec ty) s =
        (.error h, t.planning (t.planner.truncateUses s.planner.uses.length)) := by
      rw [dropUsesOnHalt, hterm]
      rfl
    rw [bind_error dropped]
    exact ⟨ran.truncateUses, fun _ => ran.take_uses⟩
  · have kept : dropUsesOnHalt (forTerm catalog options depth rec ty) s = (.ok c, t) := by
      rw [dropUsesOnHalt, hterm]
    rw [bind_ok kept, bind_ok (planner_run t)]
    split
    · obtain ⟨c', sh, hsettle⟩ := settle_run ty c
        (t.planning (t.planner.truncateUses s.planner.uses.length))
      have truncated : (modifyPlanner fun p => p.truncateUses s.planner.uses.length) t =
          (.ok (), t.planning (t.planner.truncateUses s.planner.uses.length)) := rfl
      rw [bind_ok truncated, hsettle]
      exact clears_ok (ran.truncateUses.remember hty)
    · exact clears_ok ran.keepLiveUses

theorem planLayer_clears : Obeys clears (planLayer catalog options depth rec ty) := fun s => by
  rw [planLayer, bind_ok (planner_run s)]
  cases hty : s.planner.settled.lookup ty with
  | some c => exact clears_ok (.refl _ _)
  | none =>
      dsimp only
      obtain ⟨found, sh, look⟩ := fromCache_run ty s
      rw [bind_ok look]
      cases found with
      | none => exact planAnew_clears hrec (s := ⟨sh, s.planner⟩) hty
      | some c =>
          dsimp only
          obtain ⟨r, sh', table, taken⟩ := takeBodies_run depth c.targets.reverse ⟨sh, s.planner⟩
          have took : Restored ∅ s.planner { s.planner with fixpoints := table } :=
            .of_same rfl rfl rfl rfl rfl rfl
          cases r with
          | error h =>
              rw [bind_error taken]
              exact ⟨took, fun _ => rfl⟩
          | ok _ =>
              rw [bind_ok taken]
              exact clears_ok (took.remember hty)

end Recursion

theorem planWithin_clears (catalog : Catalog) (options : Options) : ∀ (depth : Nat) (ty : TyId),
    Obeys clears (planWithin catalog options depth ty)
  | 0, _ => fun _ => ⟨.refl _ _, fun _ => rfl⟩
  | depth + 1, _ => planLayer_clears fun ty s => (planWithin_clears _ _ depth ty s).1

end Planner

/-! ## Calls -/

section Calls

variable {catalog : Catalog} {options : Options} {S : Session} {p : Planner}

theorem call_restores (catalog : Catalog) (options : Options) (call : Call) (depth : Nat) :
    Obeys (restores ∅) (call.run catalog options depth) :=
  (restores_lawful ∅).call (fun ty s => (planWithin_clears _ _ depth ty s).1) call

/-- Between two calls, nothing of a planner is at work. -/
structure Planner.AtRest (p : Planner) : Prop where
  guesses : p.guesses = []
  pending : p.pending = []
  uses : p.uses = []
  lazyDepth : p.lazyDepth = 0
  path : p.path = []

theorem Planner.Restored.atRest {p q : Planner} (h : Restored ∅ p q) (hp : p.AtRest) :
    q.AtRest where
  guesses := h.guesses.trans hp.guesses
  pending := h.pending.trans hp.pending
  lazyDepth := h.lazyDepth.trans hp.lazyDepth
  path := h.path.trans hp.path
  uses := (h.uses_eq hp.guesses).trans hp.uses

theorem Session.Comes.atRest (hS : Comes catalog options S) : ∀ p ∈ S.planners, p.AtRest := by
  induction hS with
  | opens => exact fun p hp => absurd hp List.not_mem_nil
  | joins k _ ih =>
      intro p hp
      rcases List.mem_append.mp hp with hp | hp
      · exact ih p hp
      · cases List.mem_singleton.mp hp
        exact ⟨rfl, rfl, rfl, rfl, rfl⟩
  | grows _ _ _ ih => exact ih
  | @calls S i p call d r s _ hp _ hrun _ ih =>
      intro q hq
      rcases List.mem_or_eq_of_mem_set hq with hq | rfl
      · exact ih q hq
      · have restored := call_restores catalog options call d ⟨S.shared, p⟩
        rw [hrun] at restored
        exact restored.atRest (ih p (List.mem_of_getElem? hp))

/-- A call, made in any state and however it ends, leaves the planner where it was and what was
settled as it was. To the log it adds only uses of guesses that are still open, and nothing if
it fails, unless it is a signature in the midst of other work. So between two calls, failed ones
among them, nothing is left in the planner: there is no guess that the next call could find and
log, be it for a type or for a signature. -/
theorem Session.scratch_restored {catalog : Catalog} {options : Options} :
    (∀ (call : Call) depth s r t, call.run catalog options depth s = (r, t) →
      t.planner.guesses = s.planner.guesses ∧ t.planner.pending = s.planner.pending ∧
        t.planner.lazyDepth = s.planner.lazyDepth ∧ t.planner.path = s.planner.path ∧
        (∀ u c, s.planner.settled.lookup u = some c → t.planner.settled.lookup u = some c) ∧
        (∃ used, t.planner.uses = s.planner.uses ++ used ∧
          ∀ u ∈ used, (t.planner.guess? u).isSome = true) ∧
        -- In the midst of other work, what a failed signature logged is dropped by its type.
        ∀ h, r = .error h → (∃ ty, call = .type ty) ∨ s.planner.guesses = [] →
          t.planner.uses = s.planner.uses) ∧
    ∀ S, Comes catalog options S → ∀ p ∈ S.planners, p.AtRest := by
  refine ⟨fun call depth s r t hrun => ?_, fun S hS => hS.atRest⟩
  have restored := call_restores catalog options call depth s
  rw [hrun] at restored
  obtain ⟨used, huses, hused⟩ := restored.uses
  have open_still : ∀ u ∈ used, (t.planner.guess? u).isSome = true := fun u hu => by
    rw [restored.guess?]
    exact (hused u hu).resolve_right id
  refine ⟨restored.guesses, restored.pending, restored.lazyDepth, restored.path, restored.settled,
    ⟨used, huses, open_still⟩, ?_⟩
  rintro h rfl (⟨ty, rfl⟩ | hidle)
  · have cleared := planWithin_clears catalog options depth ty s
    rcases bind_cases hrun with ⟨e, hplan, -⟩ | ⟨c, u, -, hdone⟩
    · rw [hplan] at cleared
      exact cleared.2 rfl
    · cases hdone
  · exact restored.uses_eq hidle

end Calls

/-! ### In the midst of a tree -/

namespace Tree

/-- Trees, an option of an option, and the two side by side. -/
def thicket : Arena :=
  ((arena.push (.option Scalar.int.id)).push (.option ⟨8⟩)).push (.tuple [⟨5⟩, ⟨9⟩])

/-- A function of an array of trees and an option of an option. -/
def pruning : Signature :=
  ⟨[⟨.positional, ⟨6⟩, none⟩, ⟨.positional, ⟨9⟩, none⟩], Scalar.unit.id⟩

/-- A planner that is at work on trees, below an array. -/
def climbing : Planner :=
  { Planner.new true with
    guesses := [(ty, .identity)], pending := [⟨ty, 0⟩], lazyDepth := 1, path := [.element 0] }

theorem sound_thicket : thicket.Sound := by decide +kernel

/-- The second element of the pair fails when trees have been planned already. -/
def fallen : Except Halt Answer × PlanState :=
  (Call.type ⟨10⟩).run catalog .standard 9 ⟨⟨thicket, 0, .empty⟩, .new true⟩

theorem fallen_eq : (Call.type ⟨10⟩).run catalog .standard 9 ⟨⟨thicket, 0, .empty⟩, .new true⟩ =
    (fallen.1, fallen.2) := (Prod.eta fallen).symm

/-- The second parameter fails when the first one has used the guess for trees. -/
def stopped : Except Halt Answer × PlanState :=
  (Call.signature pruning).run catalog .standard 9 ⟨⟨thicket, 0, .empty⟩, climbing⟩

theorem stopped_eq : (Call.signature pruning).run catalog .standard 9
    ⟨⟨thicket, 0, .empty⟩, climbing⟩ = (stopped.1, stopped.2) := (Prod.eta stopped).symm

end Tree

/-- A call that fails when it has settled trees already, and one made in the midst of trees. -/
theorem Session.scratch_restored_tree :
    (Tree.fallen.1.isOk = false ∧ Tree.fallen.2.planner.settled ≠ [] ∧
      Tree.fallen.2.planner.AtRest) ∧
      Tree.stopped.1.isOk = false ∧ Tree.stopped.2.planner.guesses = Tree.climbing.guesses ∧
        Tree.stopped.2.planner.pending = Tree.climbing.pending ∧
        Tree.stopped.2.planner.path = Tree.climbing.path ∧
        Tree.stopped.2.planner.uses = [Tree.ty] := by
  obtain ⟨calls, sessions⟩ := @Session.scratch_restored Tree.catalog .standard
  obtain ⟨guesses, pending, -, path, -⟩ := calls _ _ _ _ _ Tree.stopped_eq
  have started : Session.Comes Tree.catalog .standard ⟨⟨Tree.thicket, 0, .empty⟩, [.new true]⟩ :=
    .joins true (.opens Tree.sound_thicket (by decide))
  have comes : Session.Comes Tree.catalog .standard (Session.after _ 0 Tree.fallen.2) :=
    .calls started rfl (by decide) Tree.fallen_eq (by decide +kernel)
  exact ⟨⟨by decide +kernel, by decide +kernel, sessions _ comes _ (List.mem_singleton_self _)⟩,
    by decide +kernel, guesses, pending, path, by decide +kernel⟩

/-- A signature that fails in the midst of trees leaves the use of their guess in the log: only
the work on a type forgets what it logged when it fails. -/
theorem Session.failed_signature_logs :
    ¬∀ (call : Call) (depth : Nat) (s t : PlanState) (h : Halt),
      call.run Tree.catalog .standard depth s = (.error h, t) →
        t.planner.uses = s.planner.uses := by
  intro forgets
  have halts : Tree.stopped.1.isOk = false := by decide +kernel
  cases hr : Tree.stopped.1 with
  | ok a => cases hr ▸ halts
  | error h =>
      have same := forgets _ _ _ _ h (hr ▸ Tree.stopped_eq)
      exact absurd same (by decide +kernel)

end Marshal
