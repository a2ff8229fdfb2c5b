import Marshal.Proofs.Calls

/-!
# What planning does by its shape

Some facts about planning need no invariant: they hold in any state whatever, because of
what planning is put together from. A `Conduct` is such a fact, a relation between the
state before, the state after and the halt, if there was one. It has to be kept by work
that only looks (`Peeks`), by sequences and by the places that are entered and left
(`Conduct.Lawful`). Then a part, a layer and a call keep it if what they plan below
themselves does, and only references and the memory are left to be looked at. References
too are done with where the conduct has no regard to what a planner undoes again
(`Conduct.Blind`).

Work that only looks resolves references, checks names and defaults, and puts contents
together. It leaves the planner and the cache as they are, and has its own faults: that of a
body that was not published and that of a type that contains itself come from elsewhere
(`Fault.Plain`).
-/

namespace Marshal

open Planner PlanM

/-! ## Faults -/

/-- The fault of a planner that does not find a body in the cache. -/
def Fault.Unpublished (f : Fault) : Prop := ∃ ty, f = .unsupported ty bodyMissing

/-- The fault of a type that contains itself directly. -/
def Fault.Circular (f : Fault) : Prop := ∃ name, f = .cyclic name containsItself

/-- A fault that is found by looking. -/
def Fault.Plain (f : Fault) : Prop := ¬f.Unpublished ∧ ¬f.Circular

/-- The reason begins otherwise than that of a body that was not published. -/
def Otherwise (reason : String) : Prop :=
  3 ≤ reason.toList.length ∧ reason.toList.take 3 ≠ bodyMissing.toList.take 3

theorem Otherwise.of_chars {cs : List Char} (h : 3 ≤ cs.length ∧ cs.take 3 ≠ ['f', 'i', 'x']) :
    Otherwise (String.ofList cs) := by
  have missing : bodyMissing.toList.take 3 = ['f', 'i', 'x'] := by
    rw [show bodyMissing.toList = _ from String.toList_ofList]
    rfl
  rw [Otherwise, String.toList_ofList, missing]
  exact h

theorem Otherwise.append {reason rest : String} (h : Otherwise reason) :
    Otherwise (reason ++ rest) := by
  rw [Otherwise, String.toList_append, List.take_append_of_le_length h.1, List.length_append]
  exact ⟨Nat.le_trans h.1 (Nat.le_add_right _ _), h.2⟩

namespace Fault

theorem plain_unsupported {ty reason : String} (h : Otherwise reason) :
    (Fault.unsupported ty reason).Plain := by
  refine ⟨?_, nofun⟩
  rintro ⟨_, ⟨⟩⟩
  exact h.2 rfl

theorem plain_cyclic {name reason : String} (h : reason ≠ containsItself) :
    (Fault.cyclic name reason).Plain := by
  refine ⟨nofun, ?_⟩
  rintro ⟨_, ⟨⟩⟩
  exact h rfl

end Fault

/-! ## References -/

namespace ArenaM

variable {α β : Type}

/-- Work on the arena whose faults are plain. -/
def Plain (x : ArenaM α) : Prop := ∀ a f, (x a).1 = .error f → f.Plain

theorem Plain.pure (v : α) : Plain (Pure.pure v) := nofun

theorem Plain.throw {f : Fault} (h : f.Plain) : Plain (MonadExcept.throw f : ArenaM α) :=
  fun _ _ hf => by cases hf; exact h

theorem Plain.bind {x : ArenaM α} {g : α → ArenaM β} (hx : Plain x) (hg : ∀ v, Plain (g v)) :
    Plain (x >>= g) := fun a f h => by
  rw [run_bind] at h
  rcases he : x a with ⟨e | v, a'⟩ <;> rw [he] at h
  · exact hx a f (by rw [he]; cases h; rfl)
  · exact hg v a' f h

theorem Plain.get_bind {g : Arena → ArenaM β} (hg : ∀ a, Plain (g a)) :
    Plain (MonadState.get >>= g) :=
  .bind nofun hg

end ArenaM

namespace Catalog

open ArenaM

variable {c : Catalog}

theorem expand_plain (key : Key) (args : List TyId) : Plain (c.expand key args) := by
  unfold expand
  split
  · exact .throw ⟨nofun, nofun⟩
  · split
    · nofun
    · have begins : Otherwise "declared with " := .of_chars (by decide)
      exact .throw (Fault.plain_unsupported begins.append.append.append)

theorem follow_plain (origin : TyId) : ∀ (steps : Nat) (passed : List Key) (key : Key)
    (args : List TyId), Plain (c.follow origin steps passed key args)
  | 0, _, _, _ => by
      rintro a f ⟨⟩
      exact Fault.plain_cyclic (by decide)
  | steps + 1, passed, key, args => by
      rw [follow]
      -- After the test for a loop, both branches go on alike.
      split
      · refine .get_bind fun a => Plain.bind (.throw (Fault.plain_cyclic (by decide))) fun _ => ?_
        refine (expand_plain key args).bind fun _ => .get_bind fun _ => ?_
        split
        · exact follow_plain origin steps _ _ _
        · exact .pure _
      · refine (expand_plain key args).bind fun _ => .get_bind fun _ => ?_
        split
        · exact follow_plain origin steps _ _ _
        · exact .pure _

theorem resolve_plain (ty : TyId) : Plain (c.resolve ty) := by
  have begins : Otherwise "expected a named type, found " := .of_chars (by decide)
  refine .get_bind fun a => ?_
  split
  · exact Plain.bind (follow_plain _ _ _ _ _) fun _ => .pure _
  · exact .throw (Fault.plain_unsupported begins.append)
  · exact .throw (Fault.plain_unsupported begins.append)

end Catalog

/-! ## Work of a planner -/

/-- The planner and the cache are as before; the arena may have grown. -/
structure PlanState.Untouched (s t : PlanState) : Prop where
  planner : t.planner = s.planner
  cache : t.shared.cache = s.shared.cache

namespace PlanState.Untouched

variable {s t u : PlanState}

theorem refl (s : PlanState) : s.Untouched s := ⟨rfl, rfl⟩

theorem trans (h : s.Untouched t) (h' : t.Untouched u) : s.Untouched u :=
  ⟨h'.planner.trans h.planner, h'.cache.trans h.cache⟩

end PlanState.Untouched

namespace PlanM

variable {α β : Type} {x : PlanM α}

/-- The work leaves the planner and the cache as they are, and its faults are plain. -/
def Peeks (x : PlanM α) : Prop :=
  ∀ s : PlanState, s.Untouched (x s).2 ∧ ∀ f, (x s).1 = .error (.fault f) → f.Plain

namespace Peeks

theorem pure (v : α) : Peeks (Pure.pure v) := fun s => ⟨.refl s, nofun⟩

theorem fail {f : Fault} (h : f.Plain) : Peeks (PlanM.fail f : PlanM α) :=
  fun s => ⟨.refl s, by rintro _ ⟨⟩; exact h⟩

theorem halted : Peeks (throw .outOfFuel : PlanM α) := fun s => ⟨.refl s, nofun⟩

theorem arena : Peeks PlanM.arena := fun s => ⟨.refl s, nofun⟩

theorem planner : Peeks PlanM.planner := fun s => ⟨.refl s, nofun⟩

theorem make (content : Assembly.Content) : Peeks (PlanM.make content) :=
  fun _ => ⟨⟨rfl, rfl⟩, nofun⟩

theorem bind {g : α → PlanM β} (hx : Peeks x) (hg : ∀ v, Peeks (g v)) : Peeks (x >>= g) :=
  fun s => by
  obtain ⟨hs, hf⟩ := hx s
  rw [bind_run]
  rcases he : x s with ⟨h | v, s₁⟩ <;> rw [he] at hs hf
  · exact ⟨hs, fun f h => hf f (by cases h; rfl)⟩
  · exact ⟨hs.trans (hg v s₁).1, (hg v s₁).2⟩

theorem ofExcept {r : Except Fault α} (h : ∀ f, r = .error f → f.Plain) :
    Peeks (PlanM.ofExcept r) := by
  cases r with
  | ok v => exact .pure v
  | error f => exact .fail (h f rfl)

theorem mapM {g : β → PlanM α} (h : ∀ y, Peeks (g y)) : ∀ ys : List β, Peeks (ys.mapM g)
  | [] => by
      rw [List.mapM_nil]
      exact .pure _
  | y :: ys => by
      rw [List.mapM_cons]
      exact (h y).bind fun _ => (mapM h ys).bind fun _ => .pure _

theorem onArena {x : ArenaM α} (h : ArenaM.Plain x) : Peeks (PlanM.onArena x) := fun s => by
  refine ⟨⟨rfl, rfl⟩, fun f hf => h s.shared.arena f ?_⟩
  change (x s.shared.arena).1.mapError Halt.fault = _ at hf
  cases hr : (x s.shared.arena).1 with
  | error g => rw [hr] at hf; cases hf; rfl
  | ok v => rw [hr] at hf; cases hf

theorem shown (ty : TyId) : Peeks (PlanM.shown ty) := arena.bind fun _ => .pure _

/-- A refusal that shows the type and gives another reason. -/
theorem refuse {ty : TyId} {reason : String} (h : Otherwise reason) :
    Peeks (do PlanM.fail (.unsupported (← PlanM.shown ty) reason) : PlanM α) :=
  (shown ty).bind fun _ => .fail (Fault.plain_unsupported h)

end Peeks

end PlanM

namespace Planner

open PlanM

variable {catalog : Catalog} {options : Options} {ty : TyId} {t : Term}

theorem resolve_peeks : Peeks (resolve catalog ty) :=
  .onArena (Catalog.resolve_plain ty)

theorem resolvedTerm_peeks : Peeks (resolvedTerm catalog ty) := by
  refine .bind .arena fun a => ?_
  split
  · exact resolve_peeks.bind fun _ => .bind .arena fun _ => .pure _
  · exact .pure _

theorem standsForOption_peeks : Peeks (standsForOption catalog ty) :=
  resolvedTerm_peeks.bind fun t => by split <;> exact .pure _

theorem acceptDefault_peeks (lit : Literal) : ∀ (depth : Nat) (ty : TyId),
    Peeks (acceptDefault catalog options depth ty lit)
  | 0, _ => .halted
  | depth + 1, ty => by
      have begins : Otherwise "the default " := .of_chars (by decide)
      have refuse : Otherwise (notHostValue lit) := begins.append.append
      refine resolvedTerm_peeks.bind fun t => ?_
      split
      · exact acceptDefault_peeks lit depth _
      · split
        · exact .pure _
        · exact .refuse refuse
      · exact .refuse refuse

theorem refuseOption_peeks {inner : TyId} {reason : String} (h : Otherwise reason) :
    Peeks (refuseOption catalog ty inner reason) :=
  standsForOption_peeks.bind fun stands => by
    cases stands
    · exact .pure _
    · exact .refuse h

/-- What is asked of a part before it is planned. -/
theorem check_peeks (catalog : Catalog) (options : Options) (depth : Nat) (p : Part) :
    Peeks (p.checkDefault catalog options depth) ∧ Peeks (p.checkAbsence catalog) ∧
      Peeks (p.check catalog options depth) := by
  have default : Peeks (p.checkDefault catalog options depth) := by
    unfold Part.checkDefault
    split
    · exact acceptDefault_peeks _ depth _
    · exact .pure _
  have absence : Peeks (p.checkAbsence catalog) := by
    unfold Part.checkAbsence
    split
    · exact refuseOption_peeks (.of_chars (by decide))
    · exact .pure _
  exact ⟨default, absence, default.bind fun _ => absence⟩

theorem recordSlot_peeks (f : Field) : Peeks (recordSlot catalog f) := by
  unfold recordSlot
  split
  · exact .pure _
  · exact standsForOption_peeks.bind fun _ => .pure _

theorem ofSignature_plain {s : Signature} {f : Fault} (h : Convention.ofSignature s = .error f) :
    f.Plain := by
  have place {shown : String} {p : Parameter} {f : Fault}
      (h : Convention.place shown p = .error f) : f.Plain := by
    unfold Convention.place at h
    split at h <;> cases h <;> exact ⟨nofun, nofun⟩
  have slots : ∀ {ps : List Parameter} {index : Nat}, Convention.slotsFrom index ps = .error f →
      f.Plain := by
    intro ps
    induction ps with
    | nil => nofun
    | cons p ps ih =>
        intro index h
        rw [Convention.slotsFrom, Convention.argSlot] at h
        cases hp : Convention.place (p.role.label.getD ("#" ++ toString index)) p with
        | error g =>
            rw [hp] at h
            cases h
            exact place hp
        | ok default =>
            cases hrest : Convention.slotsFrom (index + 1) ps with
            | error g =>
                rw [hp, hrest] at h
                cases h
                exact ih hrest
            | ok rest =>
                rw [hp, hrest] at h
                cases h
  cases hs : Convention.slotsFrom 0 s.params with
  | error g =>
      rw [Convention.ofSignature, hs] at h
      cases h
      exact slots hs
  | ok rest =>
      rw [Convention.ofSignature, hs] at h
      cases h

/-- What is checked of a composite type, and how it is put together. -/
theorem layer_peeks {l : Layer} (h : layer catalog options ty t = some l) :
    Peeks l.before ∧ ∀ cs, Peeks (l.assemble cs) := by
  have fields (fs : List Field) : Peeks (uniqueFields ty fs) := by
    unfold uniqueFields
    split
    · have begins : Otherwise "field '" := .of_chars (by decide)
      exact .refuse begins.append.append
    · exact .pure _
  cases t with
  | scalar | var | opaqueTy | named => cases h
  | record fs =>
      cases h
      exact ⟨fields fs, fun _ => (Peeks.mapM recordSlot_peeks fs).bind fun _ => .pure _⟩
  | object fs => cases h; exact ⟨fields fs, fun _ => .pure _⟩
  | variant constructors =>
      cases h
      refine ⟨?_, fun _ => .pure _⟩
      unfold uniqueConstructors
      split
      · exact .refuse (.of_chars (by decide))
      · split
        · have begins : Otherwise "constructor '" := .of_chars (by decide)
          exact .refuse begins.append.append
        · exact .pure _
  | tuple | array | nullable => cases h; exact ⟨.pure _, fun _ => .pure _⟩
  | option inner =>
      cases h
      exact ⟨refuseOption_peeks (.of_chars (by decide)), fun _ => .pure _⟩
  | ref contents =>
      cases h
      refine ⟨.pure _, fun cs => ?_⟩
      show Peeks (assembleCell options ty (cs.headD .identity))
      unfold assembleCell
      split
      · exact .pure _
      · split
        · exact .refuse (.append (.of_chars (by decide)))
        · exact .pure _
  | function s =>
      rcases layer_function h with ⟨_, hs, rfl⟩ | ⟨_, -, rfl⟩
      · exact ⟨.fail (ofSignature_plain hs), fun _ => .fail (ofSignature_plain hs)⟩
      · exact ⟨.pure _, fun _ => .pure _⟩

end Planner

/-! ## Conduct -/

/-- How work ended that gave no result. -/
def haltOf {α : Type} : Except Halt α → Option Halt
  | .ok _ => none
  | .error h => some h

/-- What work may do to a state, by how it ended. -/
abbrev Conduct := PlanState → Option Halt → PlanState → Prop

/-- The work conducts itself so in every state. -/
def PlanM.Obeys {α : Type} (Q : Conduct) (x : PlanM α) : Prop := ∀ s, Q s (haltOf (x s).1) (x s).2

/-- The planner at a position whose values are converted when they are met. -/
def Planner.deeper (p : Planner) : Planner := { p with lazyDepth := p.lazyDepth + 1 }

def Planner.shallower (p : Planner) : Planner := { p with lazyDepth := p.lazyDepth - 1 }

/-- The planner leaves a place, where it may have met a fault. -/
def Planner.depart (h : Option Halt) (p : Planner) : Planner :=
  if h.isSome then p.noteFault.pop else p.pop

/-- Conduct that is kept by whatever planning is put together from. -/
structure Conduct.Lawful (Q : Conduct) : Prop where
  peeks : ∀ {s t : PlanState} {h : Option Halt}, s.Untouched t →
    (∀ f, h = some (.fault f) → f.Plain) → Q s h t
  seq : ∀ {s t u : PlanState} {h : Option Halt}, Q s none t → Q t h u → Q s h u
  onDemand : ∀ {s t : PlanState} {h : Option Halt}, Q (s.planning s.planner.deeper) h t →
    Q s h (t.planning t.planner.shallower)
  atPlace : ∀ {s t : PlanState} {h : Option Halt} (place : Segment),
    Q (s.planning (s.planner.push place)) h t → Q s h (t.planning (t.planner.depart h))

namespace PlanM.Obeys

variable {α β : Type} {Q : Conduct} {x : PlanM α} (hQ : Q.Lawful)
include hQ

theorem of_peeks (h : Peeks x) : Obeys Q x := fun s => by
  refine hQ.peeks (h s).1 fun f hf => (h s).2 f ?_
  cases hr : (x s).1 <;> rw [hr] at hf <;> cases hf
  rfl

theorem bind {g : α → PlanM β} (hx : Obeys Q x) (hg : ∀ v, Obeys Q (g v)) :
    Obeys Q (x >>= g) := fun s => by
  have first := hx s
  rw [bind_run]
  rcases he : x s with ⟨h | v, t⟩ <;> rw [he] at first
  · exact first
  · exact hQ.seq first (hg v t)

theorem mapM {g : β → PlanM α} (h : ∀ y, Obeys Q (g y)) : ∀ ys : List β, Obeys Q (ys.mapM g)
  | [] => by
      rw [List.mapM_nil]
      exact of_peeks hQ (.pure _)
  | y :: ys => by
      rw [List.mapM_cons]
      exact bind hQ (h y) fun _ => bind hQ (mapM h ys) fun _ => of_peeks hQ (.pure _)

theorem onDemand (hx : Obeys Q x) : Obeys Q (PlanM.onDemand x) := fun s =>
  hQ.onDemand (hx (s.planning s.planner.deeper))

theorem atPlace (place : Segment) (hx : Obeys Q x) : Obeys Q (PlanM.atPlace place x) := fun s => by
  have inner := hQ.atPlace place (hx (s.planning (s.planner.push place)))
  rw [atPlace_eq]
  rcases he : x (s.planning (s.planner.push place)) with ⟨h | v, t⟩ <;> rw [he] at inner
  · exact inner
  · exact inner

end PlanM.Obeys

namespace Conduct.Lawful

variable {Q : Conduct} {catalog : Catalog} {options : Options} {depth : Nat}
  {rec : TyId → PlanM Converter} {ty : TyId}

section Recursion

variable (hQ : Q.Lawful) (hrec : ∀ ty, Obeys Q (rec ty))
include hQ hrec

theorem part (p : Part) : Obeys Q (p.run catalog options depth rec) := by
  obtain ⟨default, absence, -⟩ := check_peeks catalog options depth p
  have planned : Obeys Q (p.omitted (rec p.ty)) := by
    unfold Part.omitted
    split
    · exact .bind hQ (hrec _) fun _ => .of_peeks hQ (.make _)
    · exact hrec _
  have below : Obeys Q (do p.checkAbsence catalog; p.omitted (rec p.ty)) :=
    .bind hQ (.of_peeks hQ absence) fun _ => planned
  have body : Obeys Q (p.body catalog options depth rec) := by
    rw [body_eq]
    refine .bind hQ (.of_peeks hQ default) fun _ => ?_
    unfold Part.lazily
    split
    · exact below.onDemand hQ
    · exact below
  unfold Part.run
  split
  · exact body.atPlace hQ _
  · exact body

theorem term (href : Obeys Q (forReference catalog rec ty)) :
    Obeys Q (forTerm catalog options depth rec ty) := fun s => by
  have none_planned : Obeys Q (pure Converter.identity) := .of_peeks hQ (.pure _)
  cases ht : s.shared.arena.term? ty with
  | none =>
      rw [forTerm, bind_ok (arena_run s), ht]
      exact none_planned s
  | some t =>
      cases hl : layer catalog options ty t with
      | some l =>
          obtain ⟨before, assemble⟩ := layer_peeks hl
          have composite : Obeys Q (l.run catalog options depth rec) :=
            .bind hQ (.of_peeks hQ before) fun _ =>
              .bind hQ (.mapM hQ (part hQ hrec) l.parts) fun cs =>
                .bind hQ (.of_peeks hQ (assemble cs)) fun _ => .of_peeks hQ (.make _)
          rw [forTerm_composite hl ht]
          exact composite s
      | none =>
          rw [forTerm, bind_ok (arena_run s), ht]
          cases t with
          | scalar | var | opaqueTy => exact none_planned s
          | named => exact href s
          | function sig =>
              cases hsig : Convention.ofSignature sig <;> simp [layer, hsig] at hl
          | _ => cases hl

end Recursion

/-- A call obeys if planning types does. -/
theorem call (hQ : Q.Lawful) (hplan : ∀ ty, Obeys Q (planWithin catalog options depth ty))
    (call : Call) : Obeys Q (call.run catalog options depth) := by
  cases call with
  | type ty => exact .bind hQ (hplan ty) fun _ => .of_peeks hQ (.pure _)
  | signature s =>
      refine .bind hQ ?_ fun _ => .of_peeks hQ (.pure _)
      rw [planSignatureWithin, forSignature_eq]
      exact .bind hQ (.of_peeks hQ (.ofExcept fun _ => ofSignature_plain)) fun _ =>
        .bind hQ (.mapM hQ (part hQ hplan) _) fun _ =>
          .bind hQ (.of_peeks hQ (.make _)) fun _ => .of_peeks hQ (.pure _)

end Conduct.Lawful

/-! ## Conduct without regard to scratch state -/

/-- Both planners have settled the same, and both use the cache or neither does. -/
structure Planner.SameMemory (p q : Planner) : Prop where
  caching : q.caching = p.caching
  settled : q.settled = p.settled

namespace Planner.SameMemory

theorem refl (p : Planner) : p.SameMemory p := ⟨rfl, rfl⟩

theorem depart (h : Option Halt) (p : Planner) : p.SameMemory (p.depart h) := by
  unfold Planner.depart
  split
  · rw [noteFault_eq]
    exact ⟨rfl, rfl⟩
  · exact ⟨rfl, rfl⟩

end Planner.SameMemory

/-- Conduct that looks at no more of a planner than its memory, and that coming to a cycle
does not break. -/
structure Conduct.Blind (Q : Conduct) : Prop where
  peeks : ∀ {s t : PlanState} {h : Option Halt}, s.Untouched t →
    (∀ f, h = some (.fault f) → f.Plain) → Q s h t
  seq : ∀ {s t u : PlanState} {h : Option Halt}, Q s none t → Q t h u → Q s h u
  scratch : ∀ {s t : PlanState} {h : Option Halt} {p q : Planner}, s.planner.SameMemory p →
    t.planner.SameMemory q → Q s h t → Q (s.planning p) h (t.planning q)
  cyclic : ∀ (s : PlanState) (name reason : String), Q s (some (.fault (.cyclic name reason))) s

namespace Conduct.Blind

variable {Q : Conduct} (hQ : Q.Blind)
include hQ

theorem lawful : Q.Lawful where
  peeks := hQ.peeks
  seq := hQ.seq
  onDemand {s _ _} hin :=
    hQ.scratch (s := s.planning s.planner.deeper) (p := s.planner) ⟨rfl, rfl⟩ ⟨rfl, rfl⟩ hin
  atPlace {s _ h} place hin :=
    hQ.scratch (s := s.planning (s.planner.push place)) (p := s.planner) ⟨rfl, rfl⟩ (.depart h _) hin

theorem modifies {g : Planner → Planner} (hg : ∀ p : Planner, p.SameMemory (g p)) :
    Obeys Q (modifyPlanner g) := fun s =>
  hQ.scratch (.refl s.planner) (hg s.planner) (hQ.peeks (.refl s) nofun)

theorem dropsUsesOnHalt {α : Type} {x : PlanM α} (hx : Obeys Q x) : Obeys Q (dropUsesOnHalt x) :=
  fun s => by
  have inner := hx s
  unfold dropUsesOnHalt
  rcases he : x s with ⟨h | v, t⟩ <;> rw [he] at inner
  · exact hQ.scratch (.refl s.planner) ⟨rfl, rfl⟩ inner
  · exact inner

/-- A reference obeys if planning types does. -/
theorem reference {catalog : Catalog} {rec : TyId → PlanM Converter} {ty : TyId}
    (hrec : ∀ ty, Obeys Q (rec ty)) : Obeys Q (forReference catalog rec ty) := by
  have lawful := hQ.lawful
  have fails (name reason : String) : Obeys Q (fail (.cyclic name reason) : PlanM Converter) :=
    fun s => hQ.cyclic s name reason
  have turns (node : TyId) (place : Segment) : Obeys Q (twoTurns rec ty node place) := by
    have turn : Obeys Q (PlanM.atPlace place (rec node)) := (hrec node).atPlace lawful place
    refine .bind lawful turn fun first => ?_
    split
    · exact .of_peeks lawful (.pure _)
    · refine .bind lawful (.of_peeks lawful (.make _)) fun c => ?_
      refine .bind lawful (hQ.modifies fun _ => ⟨rfl, rfl⟩) fun _ => ?_
      refine .bind lawful turn fun body => ?_
      exact .bind lawful (hQ.modifies fun _ => ⟨rfl, rfl⟩) fun _ => .of_peeks lawful (.pure _)
  have opened (guess : Converter) : Obeys Q (forOpen ty guess) := by
    have logged : Obeys Q (do
        modifyPlanner fun p => p.logUse ty
        pure guess) :=
      .bind lawful (hQ.modifies fun _ => ⟨rfl, rfl⟩) fun _ => .of_peeks lawful (.pure _)
    refine .bind lawful (.of_peeks lawful .planner) fun p => ?_
    dsimp only
    split
    · exact .bind lawful (.of_peeks lawful (.shown ty)) fun _ =>
        .bind lawful (fun s => hQ.cyclic s _ _) fun _ => logged
    · exact logged
  refine .bind lawful (.of_peeks lawful .planner) fun p => ?_
  split
  · exact opened _
  · refine .bind lawful (.of_peeks lawful resolve_peeks) fun r => ?_
    refine .bind lawful (.of_peeks lawful (.shown ty)) fun shown => ?_
    split
    · exact (hrec _).atPlace lawful _
    · split
      · exact fails _ _
      · intro s
        exact hQ.scratch (s := s.planning (s.planner.enter ty)) (p := s.planner) ⟨rfl, rfl⟩
          ⟨rfl, rfl⟩ (turns _ _ (s.planning (s.planner.enter ty)))

end Conduct.Blind

end Marshal
