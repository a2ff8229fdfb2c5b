import Marshal.Proofs.Contents
import Marshal.Proofs.Resolution

/-!
# Looking at the arena

Before and after a type's parts are planned, only the arena is looked at: whether
names repeat, whether a type stands for an option, whether a default fits. Such
work changes nothing but the arena, to which it may add instances. `Inspects`
says so, and that the work gives the same in every later arena, where it then
adds nothing (`Answers`).
-/

namespace Marshal

/-- The state with another arena. -/
def PlanState.on (s : PlanState) (a : Arena) : PlanState :=
  { s with shared := { s.shared with arena := a } }

namespace PlanState

variable (s : PlanState) (a b : Arena)

@[simp] theorem on_arena : (s.on a).shared.arena = a := rfl

@[simp] theorem on_supply : (s.on a).shared.supply = s.shared.supply := rfl

@[simp] theorem on_cache : (s.on a).shared.cache = s.shared.cache := rfl

@[simp] theorem on_planner : (s.on a).planner = s.planner := rfl

@[simp] theorem on_on : (s.on a).on b = s.on b := rfl

@[simp] theorem on_self : s.on s.shared.arena = s := rfl

end PlanState

namespace PlanM

variable {α β : Type} {a b c : Arena} {r : Except Halt α}

/-- In the arena `b` the work gives `r` and changes nothing. -/
def Answers (b : Arena) (m : PlanM α) (r : Except Halt α) : Prop :=
  ∀ s : PlanState, s.shared.arena = b → m s = (r, s)

/-- A state with this arena, and nothing else in it. -/
def blank (b : Arena) : PlanState := ⟨⟨b, 0, .empty⟩, .new false⟩

theorem Answers.unique {m : PlanM α} {r' : Except Halt α} (h : Answers b m r)
    (h' : Answers b m r') : r = r' :=
  congrArg Prod.fst ((h (blank b) rfl).symm.trans (h' (blank b) rfl))

theorem Answers.pure (v : α) : Answers b (Pure.pure v) (.ok v) := fun _ _ => rfl

theorem Answers.fail (f : Fault) : Answers (α := α) b (PlanM.fail f) (.error (.fault f)) :=
  fun _ _ => rfl

/-- Run in `a`, the work gives `r` and leaves the arena `a'`; in any later arena
it gives the same. -/
structure Inspects (m : PlanM α) (a : Arena) (r : Except Halt α) (a' : Arena) : Prop where
  run : ∀ s : PlanState, s.shared.arena = a → m s = (r, s.on a')
  within : a.Within a'
  sound : a'.Sound
  again : ∀ {b}, b.Sound → a'.Within b → Answers b m r

theorem Inspects.pure (ha : a.Sound) (v : α) : Inspects (Pure.pure v) a (.ok v) a :=
  ⟨fun s hs => by rw [← hs]; rfl, .refl a, ha, fun _ _ => .pure v⟩

theorem Inspects.fail (ha : a.Sound) (f : Fault) :
    Inspects (α := α) (PlanM.fail f) a (.error (.fault f)) a :=
  ⟨fun s hs => by rw [← hs]; rfl, .refl a, ha, fun _ _ => .fail f⟩

theorem Inspects.outOfFuel (ha : a.Sound) :
    Inspects (α := α) (throw .outOfFuel) a (.error .outOfFuel) a :=
  ⟨fun s hs => by rw [← hs]; rfl, .refl a, ha, fun _ _ _ _ => rfl⟩

theorem Inspects.bind {x : PlanM α} {f : α → PlanM β} {v : α} {w : Except Halt β}
    (hx : Inspects x a (.ok v) b) (hf : Inspects (f v) b w c) : Inspects (x >>= f) a w c where
  run := fun s hs => by rw [bind_ok (hx.run s hs), hf.run _ rfl, PlanState.on_on]
  within := hx.within.trans hf.within
  sound := hf.sound
  again := fun hd hcd s hs => by
    rw [bind_ok (hx.again hd (hf.within.trans hcd) s hs), hf.again hd hcd s hs]

theorem Inspects.bind_error {x : PlanM α} {f : α → PlanM β} {e : Halt}
    (hx : Inspects x a (.error e) b) : Inspects (x >>= f) a (.error e) b where
  run := fun s hs => PlanM.bind_error (hx.run s hs)
  within := hx.within
  sound := hx.sound
  again := fun hd hbd s hs => PlanM.bind_error (hx.again hd hbd s hs)

/-- Work that reads the arena, and goes on in the same way in every later one. -/
theorem Inspects.arena (f : Arena → PlanM β) {w : Except Halt β}
    (hf : ∀ d, a.Within d → f d = f a) (h : Inspects (f a) a w b) :
    Inspects (PlanM.arena >>= f) a w b where
  run := fun s hs => by rw [bind_ok (arena_run s), hs, h.run s hs]
  within := h.within
  sound := h.sound
  again := fun {d} hd hbd s hs => by
    rw [bind_ok (arena_run s), hs, hf d (h.within.trans hbd), h.again hd hbd s hs]

theorem Inspects.onArena {x : ArenaM α} {v : Except Fault α} (h : Arena.Tries x a v b) :
    Inspects (PlanM.onArena x) a (v.mapError .fault) b where
  run := fun ⟨⟨d, _, _⟩, _⟩ hs => by
    cases hs
    show (_, _) = _
    rw [h.run]
    rfl
  within := h.within
  sound := h.sound
  again := fun {d} hd hbd ⟨⟨e, _, _⟩, _⟩ hs => by
    cases hs
    show (_, _) = _
    rw [h.again hd hbd]

/-- The text of a stored type. -/
theorem Inspects.shown (ha : a.Sound) {ty : TyId} (hty : a.Has ty) :
    Inspects (PlanM.shown ty) a (.ok (a.text ty)) a :=
  .arena _ (fun d hd => by rw [Arena.text_within ha hd hty]) (.pure ha _)

/-- Some arena is left, and some result is given. -/
def Looks (m : PlanM α) (a : Arena) : Prop := ∃ r a', Inspects m a r a'

theorem Looks.bind {x : PlanM α} {f : α → PlanM β} (hx : Looks x a)
    (hf : ∀ {v b}, Inspects x a (.ok v) b → Looks (f v) b) : Looks (x >>= f) a := by
  obtain ⟨r, b, hx⟩ := hx
  cases r with
  | error e => exact ⟨_, b, hx.bind_error⟩
  | ok v =>
      obtain ⟨w, c, hf⟩ := hf hx
      exact ⟨w, c, hx.bind hf⟩

theorem Looks.pure (ha : a.Sound) (v : α) : Looks (Pure.pure v) a := ⟨_, a, .pure ha v⟩

theorem Looks.fail (ha : a.Sound) (f : Fault) : Looks (α := α) (PlanM.fail f) a :=
  ⟨_, a, .fail ha f⟩

/-- A refusal that shows a stored type. -/
theorem Looks.refuse (ha : a.Sound) {ty : TyId} (hty : a.Has ty) (f : String → Fault) :
    Looks (α := α) (do PlanM.fail (f (← PlanM.shown ty))) a :=
  .bind ⟨_, a, .shown ha hty⟩ fun h => .fail h.sound _

/-- What a sequence answers, its first part answers, or its second one does. -/
theorem Answers.of_bind {α β : Type} {a : Arena} {x : PlanM α} {f : α → PlanM β}
    {r : Except Halt β} (hx : Looks x a) (hf : ∀ {v b}, Inspects x a (.ok v) b → Looks (f v) b)
    (h : Answers a (x >>= f) r) :
    (∃ g, Answers a x (.error g) ∧ r = .error g) ∨
      ∃ v, Answers a x (.ok v) ∧ Answers a (f v) r := by
  obtain ⟨r₁, b, hx⟩ := hx
  have run := h (blank a) rfl
  cases r₁ with
  | error g =>
      rw [bind_error (hx.run _ rfl)] at run
      have hb : b = a := congrArg (fun y => y.2.shared.arena) run
      subst hb
      exact .inl ⟨g, hx.again hx.sound (.refl b), (congrArg Prod.fst run).symm⟩
  | ok v =>
      obtain ⟨r₂, c, hfv⟩ := hf hx
      rw [bind_ok (hx.run _ rfl), hfv.run _ rfl] at run
      have hc : c = a := congrArg (fun y => y.2.shared.arena) run
      subst hc
      have hb := hx.within.antisymm hfv.within
      subst hb
      have hr : r₂ = r := congrArg Prod.fst run
      subst hr
      exact .inr ⟨v, hx.again hx.sound (.refl _), hfv.again hx.sound (.refl _)⟩

end PlanM

namespace Planner

open PlanM

namespace Part

variable (catalog : Catalog) (options : Options)

def checkDefault (depth : Nat) (p : Part) : PlanM Unit :=
  match p.default with
  | some lit => acceptDefault catalog options depth p.ty lit
  | none => pure ()

def checkAbsence (p : Part) : PlanM Unit :=
  if p.omittable then refuseOption catalog p.ty p.ty nestedAbsence else pure ()

/-- What is asked of a part before it is planned: that the shim's default fits,
and that absence does not nest. -/
def check (depth : Nat) (p : Part) : PlanM Unit := do
  p.checkDefault catalog options depth
  p.checkAbsence catalog

end Part

section Stored

variable {catalog : Catalog} {options : Options} {a : Arena} {ty : TyId}

theorem resolve_inspects (ha : a.Sound) (hc : catalog.Over a) (hty : a.Has ty) :
    ∃ (r : Except Fault Referent) (a' : Arena),
      Inspects (resolve catalog ty) a (r.mapError .fault) a' ∧
        ∀ ref, r = .ok ref → Catalog.Ended a' ref.node := by
  obtain ⟨r, a', h, hended⟩ := Catalog.resolve_tries hc ha hty
  exact ⟨r, a', .onArena h, hended⟩

theorem resolvedTerm_inspects (ha : a.Sound) (hc : catalog.Over a) (hty : a.Has ty) :
    ∃ r a', Inspects (resolvedTerm catalog ty) a r a' ∧
      ∀ t, r = .ok (some t) → ∀ c ∈ t.children, a'.Has c := by
  obtain ⟨t, ht⟩ := Arena.has_iff.mp hty
  have later (d : Arena) (hd : a.Within d) : d.term? ty = a.term? ty := hd.term?_eq hty
  unfold resolvedTerm
  cases t with
  | named key args =>
      obtain ⟨r, b, h, hended⟩ := resolve_inspects ha hc hty
      cases r with
      | error f =>
          refine ⟨.error (.fault f), b, .arena _ (fun d hd => by rw [later d hd]) ?_,
            by rintro _ ⟨⟩⟩
          rw [ht]
          exact h.bind_error
      | ok ref =>
          obtain ⟨hnode, -⟩ := hended ref rfl
          refine ⟨.ok (b.term? ref.node), b,
            .arena _ (fun d hd => by rw [later d hd]) ?_, fun u hu c hc => ?_⟩
          · rw [ht]
            refine h.bind (.arena _ (fun d hd => ?_) (.pure h.sound _))
            rw [hd.term?_eq hnode]
          · exact h.sound.has_child (Except.ok.inj hu) hc
  | _ =>
      refine ⟨.ok (a.term? ty), a, .arena _ (fun d hd => by rw [later d hd]) ?_,
        fun u hu c hc => ha.has_child (Except.ok.inj hu) hc⟩
      rw [ht]
      exact .pure ha _

theorem standsForOption_looks (ha : a.Sound) (hc : catalog.Over a) (hty : a.Has ty) :
    Looks (standsForOption catalog ty) a := by
  obtain ⟨r, a', h, -⟩ := resolvedTerm_inspects ha hc hty
  refine .bind ⟨r, a', h⟩ fun {t b} hb => ?_
  split <;> exact .pure hb.sound _

theorem refuseOption_looks (ha : a.Sound) (hc : catalog.Over a) (hty : a.Has ty) {inner : TyId}
    (hinner : a.Has inner) (reason : String) : Looks (refuseOption catalog ty inner reason) a := by
  refine .bind (standsForOption_looks ha hc hinner) fun {stands b} hb => ?_
  cases stands
  · exact .pure hb.sound _
  · exact .refuse hb.sound (hb.within.has hty) fun shown => .unsupported shown reason

/-- A default is accepted or refused in the same way from some depth on. -/
theorem acceptDefault_inspects : ∀ (depth : Nat) {a : Arena} {ty : TyId} (lit : Literal),
    a.Sound → catalog.Over a → a.Has ty →
    ∃ r a', Inspects (acceptDefault catalog options depth ty lit) a r a' ∧
      (r ≠ .error .outOfFuel → ∀ d ≥ depth,
        Inspects (acceptDefault catalog options d ty lit) a r a')
  | 0, a, _, _, ha, _, _ => ⟨_, a, .outOfFuel ha, fun h => absurd rfl h⟩
  | depth + 1, a, ty, lit, ha, hc, hty => by
      obtain ⟨r, b, h, hchildren⟩ := resolvedTerm_inspects ha hc hty
      have refused : Inspects (α := Unit)
          (do fail (.unsupported (← shown ty) (notHostValue lit))) b
          (.error (.fault (.unsupported (b.text ty) (notHostValue lit)))) b :=
        .bind (.shown h.sound (h.within.has hty)) (.fail h.sound _)
      have fitted (t : Term) : ∃ w, Inspects (α := Unit)
          (if fits options t lit then pure ()
            else do fail (.unsupported (← shown ty) (notHostValue lit))) b w b := by
        split
        · exact ⟨_, .pure h.sound _⟩
        · exact ⟨_, refused⟩
      -- What comes after the term is known, at one depth and at all larger ones.
      suffices rest : ∃ w c, ∀ d ≥ depth, (d = depth ∨ w ≠ .error .outOfFuel) →
          Inspects (acceptDefault catalog options (d + 1) ty lit) a w c by
        obtain ⟨w, c, hw⟩ := rest
        refine ⟨w, c, hw depth (Nat.le_refl _) (.inl rfl), fun hne d hd => ?_⟩
        obtain ⟨d, rfl⟩ : ∃ d', d = d' + 1 := ⟨d - 1, by omega⟩
        exact hw d (by omega) (.inr hne)
      cases r with
      | error e => exact ⟨_, b, fun d _ _ => h.bind_error⟩
      | ok t =>
          match t, hchildren with
          | some (.nullable inner), hchildren =>
              obtain ⟨w, c, hw, hdeep⟩ := acceptDefault_inspects depth lit h.sound
                (hc.within h.within) (hchildren _ rfl inner (List.mem_singleton_self inner))
              refine ⟨w, c, fun d hd hcase => h.bind ?_⟩
              rcases hcase with rfl | hne
              · exact hw
              · exact hdeep hne d hd
          | none, _ => exact ⟨_, b, fun d _ _ => h.bind refused⟩
          | some (.var _), _ | some (.opaqueTy _), _ | some (.scalar _), _ | some (.record _), _
          | some (.object _), _ | some (.variant _), _ | some (.tuple _), _ | some (.array _), _
          | some (.option _), _ | some (.ref _), _ | some (.function _), _
          | some (.named _ _), _ =>
              obtain ⟨w, hw⟩ := fitted _
              exact ⟨w, b, fun d _ _ => h.bind hw⟩

theorem Part.checkDefault_inspects (ha : a.Sound) (hc : catalog.Over a) (depth : Nat) {p : Part}
    (hp : a.Has p.ty) : ∃ r a', Inspects (p.checkDefault catalog options depth) a r a' ∧
      (r ≠ .error .outOfFuel →
        ∀ d ≥ depth, Inspects (p.checkDefault catalog options d) a r a') := by
  unfold Part.checkDefault
  cases p.default with
  | none => exact ⟨_, a, .pure ha _, fun _ _ _ => .pure ha _⟩
  | some lit => exact acceptDefault_inspects depth lit ha hc hp

theorem Part.checkAbsence_looks (ha : a.Sound) (hc : catalog.Over a) {p : Part}
    (hp : a.Has p.ty) : Looks (p.checkAbsence catalog) a := by
  unfold Part.checkAbsence
  split
  · exact refuseOption_looks ha hc hp hp _
  · exact .pure ha _

theorem recordSlot_looks (ha : a.Sound) (hc : catalog.Over a) {f : Field} (hf : a.Has f.ty) :
    Looks (recordSlot catalog f) a := by
  unfold recordSlot
  split
  · exact .pure ha _
  · exact .bind (standsForOption_looks ha hc hf) fun h => .pure h.sound _

theorem recordSlots_looks : ∀ {fields : List Field} {a : Arena}, a.Sound → catalog.Over a →
    (∀ f ∈ fields, a.Has f.ty) → Looks (fields.mapM (recordSlot catalog)) a
  | [], a, ha, _, _ => .pure ha _
  | f :: fs, a, ha, hc, hf => by
      rw [List.mapM_cons]
      refine .bind (recordSlot_looks ha hc (hf f (List.mem_cons_self ..))) fun {_ b} h =>
        .bind ?_ fun h => .pure h.sound _
      exact recordSlots_looks h.sound (hc.within h.within)
        fun g hg => h.within.has (hf g (List.mem_cons_of_mem _ hg))

variable {t : Term} {l : Layer}

theorem before_looks (ha : a.Sound) (hc : catalog.Over a) (ht : a.term? ty = some t)
    (hl : layer catalog options ty t = some l) : Looks l.before a := by
  have hty := Arena.has_of_term? ht
  have unique (fields : List Field) : Looks (uniqueFields ty fields) a := by
    unfold uniqueFields
    split
    · exact .refuse ha hty _
    · exact .pure ha _
  cases t with
  | scalar | var | opaqueTy | named => cases hl
  | record fields | object fields => cases hl; exact unique fields
  | tuple | array | nullable | ref => cases hl; exact .pure ha _
  | variant ks =>
      cases hl
      show Looks (uniqueConstructors ty ks) a
      unfold uniqueConstructors
      split
      · exact .refuse ha hty _
      · split
        · exact .refuse ha hty _
        · exact .pure ha _
  | option inner =>
      cases hl
      exact refuseOption_looks ha hc hty (ha.has_child ht (List.mem_singleton_self inner)) _
  | function sig =>
      rcases layer_function hl with ⟨f, -, rfl⟩ | ⟨_, -, rfl⟩
      · exact .fail ha f
      · exact .pure ha _

theorem assemble_looks (ha : a.Sound) (hc : catalog.Over a) (ht : a.term? ty = some t)
    (hl : layer catalog options ty t = some l) (cs : List Converter) : Looks (l.assemble cs) a := by
  cases t with
  | scalar | var | opaqueTy | named => cases hl
  | object | variant | tuple | array | option | nullable => cases hl; exact .pure ha _
  | record fields =>
      cases hl
      exact .bind (recordSlots_looks ha hc fun f hf =>
        ha.has_child ht (List.mem_map_of_mem hf)) fun h => .pure h.sound _
  | ref =>
      cases hl
      show Looks (assembleCell options ty _) a
      unfold assembleCell
      split
      · exact .pure ha _
      · cases options.refs with
        | preserve => exact .refuse ha (Arena.has_of_term? ht) _
        | allowRebuild => exact .pure ha _
  | function sig =>
      rcases layer_function hl with ⟨f, -, rfl⟩ | ⟨_, -, rfl⟩
      · exact .fail ha f
      · exact .pure ha _

end Stored

end Planner

end Marshal
