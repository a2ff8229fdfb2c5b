import Marshal.Catalog.Resolve
import Marshal.Proofs.Arena
import Marshal.Proofs.Halting

/-!
# Resolving while the arena grows

Resolving a reference may store instances. It settles: in a later arena the same
reference resolves in the same way, and nothing is added. `Resolves` is resolving
in an arena that already holds all instances; it is what the later modules speak
about.
-/

namespace Marshal

open Arena

namespace Catalog

variable {catalog : Catalog} {a b : Arena} {ty : TyId}

/-- Every declared body is stored in the arena. -/
def Over (catalog : Catalog) (a : Arena) : Prop := ∀ d ∈ catalog.decls, a.Has d.body

instance : Decidable (catalog.Over a) := inferInstanceAs (Decidable (∀ d ∈ catalog.decls, _))

theorem Over.within (h : catalog.Over a) (hab : a.Within b) : catalog.Over b :=
  fun d hd => hab.has (h d hd)

/-- The reference resolves in `a`, and all instances that it needs are there. -/
def Resolves (catalog : Catalog) (a : Arena) (ty : TyId) (r : Except Fault Referent) : Prop :=
  catalog.resolve ty a = (r, a)

theorem Resolves.unique {r r' : Except Fault Referent} (h : catalog.Resolves a ty r)
    (h' : catalog.Resolves a ty r') : r = r' :=
  congrArg Prod.fst (h.symm.trans h')

end Catalog

/-! ## Work that may fail -/

namespace ArenaM

variable {α β : Type} {x : ArenaM α} {f : α → ArenaM β} {a b : Arena}

theorem get_run (a : Arena) : (MonadState.get : ArenaM Arena) a = (.ok a, a) := rfl

theorem bind_ok {v : α} (hx : x a = (.ok v, b)) : (x >>= f) a = f v b := by
  rw [run_bind, hx]

theorem bind_error {e : Fault} (hx : x a = (.error e, b)) : (x >>= f) a = (.error e, b) := by
  rw [run_bind, hx]

end ArenaM

namespace Arena

variable {a b c : Arena} {α β : Type}

/-- `Settles` for work that may fail: a fault settles like a result. -/
def Tries (x : ArenaM α) (a : Arena) (r : Except Fault α) (a' : Arena) : Prop :=
  Settles (α := Except Fault α) x a r a'

theorem Tries.pure (ha : a.Sound) (v : α) : Tries (Pure.pure v) a (.ok v) a :=
  Settles.pure ha (Except.ok v)

theorem Tries.throw (ha : a.Sound) (f : Fault) :
    Tries (α := α) (MonadExcept.throw f) a (.error f) a :=
  Settles.pure ha (Except.error f)

/-- A fault that is read off the arena, and is the same in every later one. -/
theorem Tries.shows {x : ArenaM α} {e : Fault} (ha : a.Sound)
    (hx : ∀ d, a.Within d → x d = (.error e, d)) : Tries x a (.error e) a :=
  ⟨hx a (.refl a), .refl a, ha, fun _ hd => hx _ hd⟩

theorem Tries.congr {x y : ArenaM α} {r : Except Fault α} (hxy : ∀ d, a.Within d → y d = x d)
    (h : Tries x a r b) : Tries y a r b where
  run := (hxy a (.refl a)).trans h.run
  within := h.within
  sound := h.sound
  again hd hbd := (hxy _ (h.within.trans hbd)).trans (h.again hd hbd)

/-- Work that goes on with `y` where `x` is over. -/
theorem Tries.then {x : ArenaM α} {y z : ArenaM β} {v : α} {w : Except Fault β}
    (hx : Tries x a (.ok v) b) (hz : ∀ d d', x d = (.ok v, d') → b.Within d' → z d = y d')
    (hy : Tries y b w c) : Tries z a w c where
  run := (hz a b hx.run (.refl b)).trans hy.run
  within := hx.within.trans hy.within
  sound := hy.sound
  again hd hcd := by
    have hbd := hy.within.trans hcd
    exact (hz _ _ (hx.again hd hbd) hbd).trans (hy.again hd hcd)

theorem Tries.then_error {x : ArenaM α} {z : ArenaM β} {e : Fault} (hx : Tries x a (.error e) b)
    (hz : ∀ d d', x d = (.error e, d') → z d = (.error e, d')) : Tries z a (.error e) b :=
  ⟨hz a b hx.run, hx.within, hx.sound, fun hd hbd => hz _ _ (hx.again hd hbd)⟩

theorem Tries.bind {x : ArenaM α} {f : α → ArenaM β} {v : α} {w : Except Fault β}
    (hx : Tries x a (.ok v) b) (hf : Tries (f v) b w c) : Tries (x >>= f) a w c :=
  Settles.bind (f := ExceptT.bindCont f) hx hf

theorem Tries.bind_error {x : ArenaM α} {f : α → ArenaM β} {e : Fault}
    (hx : Tries x a (.error e) b) : Tries (x >>= f) a (.error e) b :=
  Settles.bind (f := ExceptT.bindCont f) hx (Settles.pure hx.sound (Except.error e))

end Arena

namespace Catalog

variable {catalog : Catalog} {a b : Arena} {ty : TyId}

/-- What a type in an arena has to be to end a chain of aliases. -/
def Ended (a : Arena) (ty : TyId) : Prop :=
  a.Has ty ∧ ∀ key args, a.term? ty ≠ some (.named key args)

theorem expand_tries (hc : catalog.Over a) (ha : a.Sound) {key : Key} {args : List TyId}
    (hargs : ∀ v ∈ args, a.Has v) :
    ∃ r a', Tries (catalog.expand key args) a r a' ∧ ∀ v, r = .ok v → a'.Has v := by
  unfold expand
  split
  · exact ⟨_, a, .throw ha _, by rintro _ ⟨⟩⟩
  · next d hd =>
      split
      · obtain ⟨v, a', hv, hav⟩ :=
          instantiate_settles ha (hc d (List.mem_of_find?_eq_some hd)) hargs
        refine ⟨.ok v, a', ?_, fun w hw => by cases hw; exact hav⟩
        exact Settles.bind (f := fun v => (Pure.pure (.ok v) : StateM Arena (Except Fault TyId)))
          hv (.pure hv.sound _)
      · exact ⟨_, a, .throw ha _, by rintro _ ⟨⟩⟩

/-! ### Alias steps -/

section Steps

variable {origin node : TyId} {steps : Nat} {passed : List Key} {key next : Key}
  {args nextArgs : List TyId}

theorem follow_spent : catalog.follow origin 0 passed key args a =
    (.error (.cyclic (a.text origin) aliasLoop), a) := rfl

theorem follow_passed (h : key ∈ passed) : catalog.follow origin (steps + 1) passed key args a =
    (.error (.cyclic (a.text origin) aliasLoop), a) := by
  rw [follow, if_pos (List.contains_iff_mem.mpr h)]
  rfl

theorem follow_new (h : key ∉ passed) : catalog.follow origin (steps + 1) passed key args =
    (do
      let node ← catalog.expand key args
      match (← MonadState.get).term? node with
      | some (.named next nextArgs) => catalog.follow origin steps (key :: passed) next nextArgs
      | _ => pure node) := by
  rw [follow]
  exact if_neg (by simpa using h)

theorem follow_stops {f : Fault} (h : key ∉ passed)
    (hx : catalog.expand key args a = (.error f, b)) :
    catalog.follow origin (steps + 1) passed key args a = (.error f, b) := by
  rw [follow_new h]
  exact ArenaM.bind_error hx

theorem follow_goes (h : key ∉ passed) (hx : catalog.expand key args a = (.ok node, b))
    (hn : b.term? node = some (.named next nextArgs)) :
    catalog.follow origin (steps + 1) passed key args a =
      catalog.follow origin steps (key :: passed) next nextArgs b := by
  rw [follow_new h, ArenaM.bind_ok hx, ArenaM.bind_ok (ArenaM.get_run b), hn]

theorem follow_ends (h : key ∉ passed) (hx : catalog.expand key args a = (.ok node, b))
    (hn : ∀ key args, b.term? node ≠ some (.named key args)) :
    catalog.follow origin (steps + 1) passed key args a = (.ok node, b) := by
  rw [follow_new h, ArenaM.bind_ok hx, ArenaM.bind_ok (ArenaM.get_run b)]
  cases ht : b.term? node with
  | none => rfl
  | some t =>
      cases t with
      | named next nextArgs => exact absurd ht (hn next nextArgs)
      | _ => rfl

theorem resolve_named (h : a.term? ty = some (.named key args)) : catalog.resolve ty a =
    (do
      let node ← catalog.follow ty (catalog.size + 1) [] key args
      pure ⟨key, node, catalog.isRecursive key, catalog.isRegular key⟩ : ArenaM Referent) a := by
  rw [resolve, ArenaM.bind_ok (ArenaM.get_run a), h]

/-- What is not a reference is refused. -/
theorem resolve_unnamed (h : ∀ key args, a.term? ty ≠ some (.named key args)) :
    catalog.resolve ty a =
      (.error (.unsupported (a.text ty)
        (notNamed (((a.term? ty).map Term.shape).getD ""))), a) := by
  rw [resolve, ArenaM.bind_ok (ArenaM.get_run a)]
  cases ht : a.term? ty with
  | none => rfl
  | some t =>
      cases t with
      | named key args => exact absurd ht (h key args)
      | _ => rfl

theorem follow_tries :
    ∀ (steps : Nat) {passed : List Key} {key : Key} {args : List TyId} {a : Arena},
      catalog.Over a → a.Sound → a.Has origin → (∀ v ∈ args, a.Has v) →
      ∃ r a', Tries (catalog.follow origin steps passed key args) a r a' ∧
        ∀ v, r = .ok v → Ended a' v
  | 0, passed, key, args, a, _, ha, horigin, _ => by
      refine ⟨.error (.cyclic (a.text origin) aliasLoop), a, .shows ha fun d had => ?_,
        by rintro _ ⟨⟩⟩
      rw [follow_spent, text_within ha had horigin]
  | steps + 1, passed, key, args, a, hc, ha, horigin, hargs => by
      by_cases hp : key ∈ passed
      · refine ⟨.error (.cyclic (a.text origin) aliasLoop), a, .shows ha fun d had => ?_,
          by rintro _ ⟨⟩⟩
        rw [follow_passed hp, text_within ha had horigin]
      obtain ⟨r, b, hr, hbr⟩ := expand_tries hc ha hargs
      cases r with
      | error e => exact ⟨_, b, hr.then_error fun _ _ => follow_stops hp, by rintro _ ⟨⟩⟩
      | ok node =>
          -- Where the chain goes on is read off a node that is stored already.
          have hnode := hbr node rfl
          by_cases hn : ∃ next nextArgs, b.term? node = some (.named next nextArgs)
          · obtain ⟨next, nextArgs, hn⟩ := hn
            have rest : ∃ r c,
                Tries (catalog.follow origin steps (key :: passed) next nextArgs) b r c ∧
                ∀ v, r = .ok v → Ended c v :=
              follow_tries steps (hc.within hr.within) hr.sound (hr.within.has horigin)
                fun v hv => hr.sound.has_child hn hv
            obtain ⟨r, c, hr', hended⟩ := rest
            exact ⟨r, c, hr.then (fun _ _ hx hw => follow_goes hp hx (hw.term? hn)) hr', hended⟩
          · have hn : ∀ key args, b.term? node ≠ some (.named key args) :=
              fun key args h => hn ⟨key, args, h⟩
            refine ⟨.ok node, b,
              hr.then (fun _ _ hx hw => follow_ends hp hx ?_) (.pure hr.sound node),
              fun v hv => by cases hv; exact ⟨hnode, hn⟩⟩
            exact fun key args => hw.term?_eq hnode ▸ hn key args

end Steps

theorem resolve_tries (hc : catalog.Over a) (ha : a.Sound) (hty : a.Has ty) :
    ∃ r a', Tries (catalog.resolve ty) a r a' ∧
      ∀ ref : Referent, r = .ok ref → Ended a' ref.node := by
  by_cases hn : ∃ key args, a.term? ty = some (.named key args)
  · obtain ⟨key, args, hn⟩ := hn
    have steps : ∃ r b, Tries (catalog.follow ty (catalog.size + 1) [] key args) a r b ∧
        ∀ v, r = .ok v → Ended b v :=
      follow_tries (catalog.size + 1) hc ha hty fun v hv => ha.has_child hn hv
    obtain ⟨r, b, hr, hended⟩ := steps
    cases r with
    | error e =>
        exact ⟨_, b, .congr (fun d had => resolve_named (had.term? hn)) hr.bind_error,
          by rintro _ ⟨⟩⟩
    | ok node =>
        exact ⟨_, b, .congr (fun d had => resolve_named (had.term? hn))
          (hr.bind (.pure hr.sound _)), fun ref href => by cases href; exact hended node rfl⟩
  · have hn : ∀ key args, a.term? ty ≠ some (.named key args) :=
      fun key args h => hn ⟨key, args, h⟩
    let refusal : Fault :=
      .unsupported (a.text ty) (notNamed (((a.term? ty).map Term.shape).getD ""))
    refine ⟨.error refusal, a, .shows ha fun d had => ?_, by rintro _ ⟨⟩⟩
    rw [resolve_unnamed fun key args => had.term?_eq hty ▸ hn key args, had.term?_eq hty,
      text_within ha had hty]

end Catalog

end Marshal
