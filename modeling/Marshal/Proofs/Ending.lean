import Marshal.Proofs.Depth
import Marshal.Proofs.Equality

/-!
# Conversions end

A converter goes down the value and the type together. Most types have values with parts, and go
on with these. Three kinds do not: an option and a nullable go on with the value itself, and so
does a reference (`World.Wraps`). A type that is such a wrapping of itself is planned all the same,
and converts if one of the wrappings is nullable (`World.Hollow`), so that a value other than null
goes round in it for ever. From all other types, every conversion of a tidy value ends.

The proof is by induction on the value, and for one value by induction on the wrappings that
convert, of which there is no cycle.
-/

namespace Marshal

open Relation Converter Planner PlanM

/-! ## Wrappings -/

namespace World

/-- A conversion from the first type goes on with the same value from the second. -/
inductive Wraps (w : World) : TyId → TyId → Prop
  | option {x y : TyId} : w.arena.term? x = some (.option y) → Wraps w x y
  | nullable {x y : TyId} : w.arena.term? x = some (.nullable y) → Wraps w x y
  | node {x : TyId} {r : Referent} : w.Resolves x (.ok r) → Wraps w x r.node

/-- A nullable type that wraps itself. Null is its only value. -/
def Hollow (w : World) (x : TyId) : Prop :=
  (∃ y, w.arena.term? x = some (.nullable y)) ∧ TransGen w.Wraps x x

variable {w : World} {x y z : TyId}

theorem Wraps.edge (h : w.Wraps x y) : w.Edge x y := by
  cases h with
  | option ht => exact .child ht rfl (List.mem_singleton_self _)
  | nullable ht => exact .child ht rfl (List.mem_singleton_self _)
  | node hr => exact .node hr

/-- A wrapping leads to what it wraps and nowhere else. -/
theorem Wraps.unique (h : w.Wraps x y) (e : w.Edge x z) : z = y := by
  cases h with
  | option ht | nullable ht =>
      cases e with
      | child ht' _ hz =>
          cases ht.symm.trans ht'
          exact List.mem_singleton.mp hz
      | node hr => cases hr.isReference ht
  | node hr => exact (edge_iff_node hr).mp e

/-- From a cycle of wrappings all that is reached is on the cycle. -/
theorem cycle_of_reach (hy : TransGen w.Wraps y y) (hyz : w.Reach y z) : TransGen w.Wraps z z := by
  induction hyz with
  | refl => exact hy
  | tail _ e ih =>
      obtain ⟨z', hz, hback⟩ := TransGen.head'_iff.mp ih
      cases hz.unique e
      exact .tail' hback hz

/-- A cycle of wrappings that converts has a nullable type on it. -/
theorem exists_hollow (hy : TransGen w.Wraps y y) (hconv : w.Converts y) :
    ∃ z, w.Reach y z ∧ w.Hollow z := by
  obtain ⟨z, t, hyz, ht, hintrinsic⟩ := hconv
  have cycle := cycle_of_reach hy hyz
  obtain ⟨_, hz, -⟩ := TransGen.head'_iff.mp cycle
  refine ⟨z, hyz, ?_, cycle⟩
  cases hz with
  | option ht' => cases ht.symm.trans ht'; exact absurd hintrinsic id
  | nullable ht' => exact ⟨_, ht'⟩
  | node hr => exact absurd hintrinsic (reference_not_intrinsic (hr.isReference ht))

/-- No type that is reached is hollow. -/
def Solid (w : World) (x : TyId) : Prop := ∀ y, w.Reach x y → ¬w.Hollow y

theorem Solid.edge (h : w.Solid x) (e : w.Edge x y) : w.Solid y := fun z hz => h z (.head e hz)

theorem Wraps.has (h : w.Wraps x y) : w.arena.Has x := by
  obtain ⟨t, ht⟩ := h.edge.term?
  exact Arena.has_of_term? ht

/-- From a type where nothing hollow is reached, the wrappings that convert come to an end. -/
theorem Solid.acc (h : w.Solid x) : Acc (fun y x => w.Wraps x y ∧ w.Converts y) x := by
  refine Arena.acc_of_acyclic (R := fun x y => w.Wraps x y ∧ w.Converts y)
    (fun y z hyz => hyz.1.has) fun y hxy hyy => ?_
  have hreach : w.Reach x y := hxy.lift id fun _ _ h => h.1.edge
  have cycle : TransGen w.Wraps y y := hyy.lift id fun _ _ h => h.1
  obtain ⟨_, -, -, hconv⟩ := TransGen.tail'_iff.mp hyy
  obtain ⟨z, hyz, hollow⟩ := exists_hollow cycle hconv
  exact h z (hreach.trans hyz) hollow

end World

/-! ## Runs that end -/

namespace Run

open Value

variable {α β : Type} {x y : Nat → Run α} {s s' : Store} {P : α → Prop}

/-- The runs come to an end, they keep all cells, and if they come to a value, `P` holds of it. -/
def Finishes (x : Nat → Run α) (s : Store) (P : α → Prop) : Prop :=
  ∃ r s', Settles x s r s' ∧ s.Within s' ∧ ∀ v, r = .ok v → P v

namespace Finishes

theorem pure {v : α} (h : P v) : Finishes (fun _ => Pure.pure v) s P :=
  ⟨.ok v, s, ⟨0, fun _ _ => rfl⟩, .refl s, fun _ hv => Except.ok.inj hv ▸ h⟩

theorem ofExcept {r : Except Fault α} (h : ∀ v, r = .ok v → P v) :
    Finishes (fun _ => Run.ofExcept r) s P := by
  refine ⟨r, s, ⟨0, fun _ _ => ?_⟩, .refl s, h⟩
  cases r <;> rfl

theorem fail (f : Fault) : Finishes (fun _ => Run.fail f) s P := ofExcept (r := .error f) nofun

theorem alike (hxy : Alike x y) (h : Finishes y s P) : Finishes x s P := by
  obtain ⟨r, s', hy, hs, hr⟩ := h
  exact ⟨r, s', (hxy s r s').mpr hy, hs, hr⟩

theorem bind {f : Nat → α → Run β} {Q : β → Prop} (hx : Finishes x s P)
    (hf : ∀ s' v, s.Within s' → P v → Finishes (fun d => f d v) s' Q) :
    Finishes (fun d => x d >>= f d) s Q := by
  obtain ⟨r, s₁, ⟨n, hn⟩, hs, hr⟩ := hx
  cases r with
  | error e =>
      refine ⟨.error e, s₁, ⟨n, fun d hd => ?_⟩, hs, nofun⟩
      show (x d >>= f d) s = _
      rw [bind_run, hn d hd]
      rfl
  | ok v =>
      obtain ⟨r', s₂, ⟨m, hm⟩, hs', hr'⟩ := hf s₁ v hs (hr v rfl)
      refine ⟨r', s₂, ⟨max n m, fun d hd => ?_⟩, hs.trans hs', hr'⟩
      show (x d >>= f d) s = _
      rw [bind_run, hn d (by omega)]
      exact hm d (by omega)

/-- Every value of the list that comes out is one of which `P` holds with one that went in. -/
theorem mapM {f : Nat → α → Run β} {P : α → β → Prop} : ∀ {xs : List α} {s : Store},
    (∀ x ∈ xs, ∀ s', s.Within s' → Finishes (fun d => f d x) s' (P x)) →
    Finishes (fun d => xs.mapM (f d)) s fun ys => ∀ y ∈ ys, ∃ x ∈ xs, P x y
  | [], s, _ => by
      simp only [List.mapM_nil]
      exact .pure (by simp)
  | x :: xs, s, h => by
      simp only [List.mapM_cons]
      refine (h x (List.mem_cons_self ..) s (.refl s)).bind fun s₁ y hs hy => ?_
      have rest : Finishes (fun d => xs.mapM (f d)) s₁ _ := mapM (P := P) fun z hz s' hs' =>
        h z (List.mem_cons_of_mem _ hz) s' (hs.trans hs')
      refine rest.bind fun s₂ ys _ hys => .pure fun z hz => ?_
      rcases List.mem_cons.mp hz with rfl | hz
      · exact ⟨x, List.mem_cons_self .., hy⟩
      · obtain ⟨u, hu, hP⟩ := hys z hz
        exact ⟨u, List.mem_cons_of_mem _ hu, hP⟩

end Finishes

/-! ## Steps that end -/

end Run

/-- What a conversion of a value comes to next. A variant without a payload has an absent one. -/
def Value.inner (s : Store) : Value → List Value
  | .array vs | .block _ vs => vs
  | .object entries => .absent :: entries.map Prod.snd
  | .box b => [s.read b]
  | _ => []

namespace Run

section Steps

open Value

variable {table : FixTable} {step inner : Step} {s s' : Store} {u v : Value} {d : Direction}

/-- Run on the value, in this store or a later one, the step comes to an end. -/
def Stops (table : FixTable) (step : Step) (s : Store) (v : Value) : Prop :=
  ∀ s', s.Within s' → Finishes (fun d => applyWithin table d step v) s' fun _ => True

namespace Stops

theorem of_layer (h : ∀ s', s.Within s' →
    Finishes (fun d => applyLayer table (applyWithin table d) step v) s' fun _ => True) :
    Stops table step s v :=
  fun s' hs => (h s' hs).alike (.shift 1 fun _ => rfl)

theorem later (h : Stops table step s v) (hs : s.Within s') : Stops table step s' v :=
  fun s'' hs' => h s'' (hs.trans hs')

theorem identity : Stops table .identity s v := of_layer fun _ _ => .pure trivial

theorem mapOption (h : Stops table inner s v) : Stops table (.mapOption inner) s v :=
  of_layer fun s' hs => by cases v <;> first | exact .pure trivial | exact h s' hs

theorem mapNullable (h : Stops table inner s v) : Stops table (.mapNullable inner) s v :=
  of_layer fun s' hs => by cases v <;> first | exact .pure trivial | exact h s' hs

theorem passBox : Stops table (.passBox inner) s v :=
  of_layer fun _ _ => by cases v <;> first | exact .pure trivial | exact .fail _

theorem rebuildBox (hv : ∀ b, v = .box b → b.index < s.boxes.size)
    (h : ∀ u ∈ v.inner s, Stops table inner s u) : Stops table (.rebuildBox inner) s v :=
  of_layer fun s' hs => by
    cases v with
    | box b =>
        have contents := h _ (List.mem_singleton_self _) s' hs
        rw [← (hs.read (hv b rfl)).2] at contents
        refine contents.bind (f := fun _ => newBox) fun s₁ u _ _ => ?_
        exact ⟨.ok (.box (s₁.newBox u).1), (s₁.newBox u).2, ⟨0, fun _ _ => rfl⟩,
          (s₁.newBox_spec u).1, fun _ _ => trivial⟩
    | _ => exact .fail _

theorem mapArray (h : ∀ u ∈ v.inner s, Stops table inner s u) :
    Stops table (.mapArray inner) s v :=
  of_layer fun s' hs => by
    cases v with
    | array vs =>
        have all : Finishes (fun d => vs.mapM fun u => applyWithin table d inner u) s' _ :=
          .mapM (P := fun _ _ => True) fun u hu s₁ hs₁ => h u hu s₁ (hs.trans hs₁)
        exact all.bind (f := fun _ us => Pure.pure (Value.array us)) fun _ _ _ _ => .pure trivial
    | _ => exact .fail _

theorem mapElements {steps : List Step}
    (h : ∀ step ∈ steps, ∀ u ∈ v.inner s, Stops table step s u) :
    Stops table (.mapElements steps) s v :=
  of_layer fun s' hs => by
    cases v with
    | array vs =>
        simp only [applyLayer]
        split
        · have all : Finishes (fun d => (vs.zip steps).mapM fun x => applyWithin table d x.2 x.1)
              s' _ := .mapM (P := fun _ _ => True) fun x hx s₁ hs₁ =>
            h x.2 (List.of_mem_zip hx).2 x.1 (List.of_mem_zip hx).1 s₁ (hs.trans hs₁)
          exact all.bind (f := fun _ us => Pure.pure (Value.array us)) fun _ _ _ _ => .pure trivial
        · exact .fail _
    | _ => exact .fail _

theorem recurse {ty : TyId}
    (h : ∀ body, table.find? ty = some body → Stops table (body.step d) s v) :
    Stops table (.recurse ty d) s v :=
  of_layer fun s' hs => by
    simp only [applyLayer]
    cases hbody : table.find? ty with
    | none => exact .fail _
    | some body => exact h body hbody s' hs

theorem decode_inner {carrier : VariantCarrier} {cases : List CaseStep} {i : Nat}
    (h : Variant.decode carrier cases v = .ok (i, some u)) : u ∈ v.inner s := by
  cases Variant.Carries.of_decode h with
  | @tagged _ _ entries =>
      cases hf : findKey "value" entries with
      | none => exact List.mem_cons_self ..
      | some w =>
          exact List.mem_cons_of_mem _
            (List.mem_map_of_mem (f := Prod.snd) (mem_present.mp (findKey_eq_some hf)).1)
  | block => exact List.mem_singleton_self _

theorem retag {source target : VariantCarrier} {cases : List CaseStep}
    (h : ∀ step ∈ cases.filterMap CaseStep.payload, ∀ u ∈ v.inner s, Stops table step s u) :
    Stops table (.retag source target cases) s v :=
  of_layer fun s' hs => by
    simp only [applyLayer]
    have decoded : Finishes (fun _ => Run.ofExcept (Variant.decode source cases v)) s'
        fun x => Variant.decode source cases v = .ok x := .ofExcept fun _ h => h
    refine decoded.bind fun s₁ x hs₁ hx => ?_
    obtain ⟨i, payload⟩ := x
    dsimp only
    cases hinner : (cases[i]?).bind CaseStep.payload with
    | none => exact .pure trivial
    | some inner =>
        cases payload with
        | none => exact .pure trivial
        | some u =>
            have below := h inner (Step.mem_payloads hinner) u (decode_inner hx)
            have converted := below s₁ (hs.trans hs₁)
            exact converted.bind (f := fun _ u => Pure.pure
              (Variant.encode target cases i (some u))) fun _ _ _ _ => .pure trivial

theorem newFn {n : Nat} {body : Closure → Body} :
    Finishes (fun _ => do Run.newFn n (body (← expectFn v))) s fun _ => True := by
  cases v with
  | fn f =>
      exact ⟨.ok (.fn (s.newClosure n (body f)).1), (s.newClosure n (body f)).2,
        ⟨0, fun _ _ => rfl⟩, fun _ _ h => h, fun _ _ => trivial⟩
  | _ => exact .fail _

theorem adaptArity {adapter : Adapter} : Stops table (.adaptArity adapter) s v :=
  of_layer fun _ _ => newFn

theorem wrapFunction {args : List Step} {ret : Step} :
    Stops table (.wrapFunction args ret) s v :=
  of_layer fun _ _ => newFn

theorem seq {steps : List Step}
    (h : ∀ s', s.Within s' → Finishes (fun d => applyAll table d steps v) s' fun _ => True) :
    Stops table (.seq steps) s v :=
  fun s' hs => (h s' hs).alike (alike_seq steps v)

end Stops

/-- Fields are converted one after another. By induction on those that remain, whose entries are
still the first ones. -/
theorem fields_finish {ι : Type} (key : ι → String) (steps : ι → Step) :
    ∀ {xs : List ι} {v : Value} {s : Store}, (xs.map key).Nodup →
      (∀ entries, v = .object entries → ∀ x ∈ xs, ∀ e ∈ entries, e.1 = key x →
        Stops table (steps x) s e.2) →
      Finishes (fun d => applyAll table d (xs.map fun x => .atField (key x) (steps x)) v) s
        fun _ => True
  | [], _, _, _, _ => .pure trivial
  | x :: xs, v, s, hn, h => by
      rw [List.map_cons, List.nodup_cons] at hn
      have first : Finishes (fun d => applyWithin table d (.atField (key x) (steps x)) v) s
          fun w => ∃ entries entries', v = .object entries ∧ w = .object entries' ∧
            ∀ e ∈ entries', e.1 ≠ key x → e ∈ entries := by
        refine Finishes.alike (.shift 1 fun _ => rfl) ?_
        cases v with
        | object entries =>
            have all : Finishes
                (fun d => entries.mapM (atKey (applyWithin table d (steps x)) (key x))) s _ :=
              .mapM (P := fun e e' => e'.1 = e.1 ∧ (e.1 ≠ key x → e' = e)) fun e he s₁ hs => by
                unfold atKey
                split
                · next hkey =>
                    have here := h entries rfl x (List.mem_cons_self ..) e he hkey.1 s₁ hs
                    exact here.bind (f := fun _ u => Pure.pure (e.1, u)) fun _ _ _ _ =>
                      .pure ⟨rfl, fun hne => absurd hkey.1 hne⟩
                · exact .pure ⟨rfl, fun _ => rfl⟩
            refine all.bind (f := fun _ es => Pure.pure (Value.object es)) fun _ es _ hes => ?_
            refine .pure ⟨entries, es, rfl, rfl, fun e' he' hne => ?_⟩
            obtain ⟨e, he, hkey, hsame⟩ := hes e' he'
            exact hsame (hkey ▸ hne) ▸ he
        | _ => exact .fail _
      refine first.bind (f := fun d w =>
        applyAll table d (xs.map fun x => .atField (key x) (steps x)) w) fun s₁ w hs hw => ?_
      obtain ⟨entries, entries', rfl, rfl, hkept⟩ := hw
      refine fields_finish key steps hn.2 ?_
      rintro _ ⟨⟩ y hy e he hkey
      have other : e.1 ≠ key x := fun heq =>
        hn.1 (heq ▸ hkey ▸ List.mem_map_of_mem hy)
      exact (h entries rfl y (List.mem_cons_of_mem _ hy) e (hkept e he other) hkey).later hs

end Steps

end Run

/-! ## Converters that end -/

open Run

/-- Both halves come to an end. -/
def Converter.Stops (table : FixTable) (s : Store) (v : Value) (c : Converter) : Prop :=
  ∀ d, Run.Stops table (c.step d) s v

namespace Assembly

variable {table : FixTable} {s : Store} {u v : Value} {fields : List Field}
  {slots : List RecordSlot} {cs : List Converter} {c : Converter} {d : Direction}

theorem stops_some {f b : Step} (hf : Run.Stops table f s v) (hb : Run.Stops table b s v) :
    (bare (some (f, b))).Stops table s v
  | .forward => hf
  | .backward => hb

theorem stops_none : (bare none).Stops table s v := fun d => by cases d <;> exact .identity

theorem stops_wrapped {wrap : Step → Step} (h : ∀ d, Run.Stops table (wrap (c.step d)) s v) :
    (bare (c.wrapped wrap)).Stops table s v := by
  cases c with
  | identity => exact stops_none
  | custom stamp f b => exact stops_some (h .forward) (h .backward)

theorem sublist_zip {α β : Type} : ∀ (xs : List α) (ys : List β),
    ((xs.zip ys).map Prod.fst).Sublist xs
  | [], _ | _ :: _, [] => by simp
  | _ :: xs, _ :: ys => by simpa using sublist_zip xs ys

/-- The names of the fields that are converted differ if those of all fields do. -/
theorem nodup_moved (hn : (fields.map Field.name).Nodup) :
    (((fields.zip cs).filter fun (_, c) => !c.isIdentity).map fun x => x.1.name).Nodup := by
  refine hn.sublist ((List.filter_sublist.map _).trans ?_)
  have names : ((fields.zip cs).map fun x => x.1.name) =
      ((fields.zip cs).map Prod.fst).map Field.name := by rw [List.map_map]; rfl
  rw [names]
  exact (sublist_zip fields cs).map _

theorem fieldSteps_finish (hn : (fields.map Field.name).Nodup)
    (h : ∀ entries, v = .object entries → ∀ e ∈ entries, ∀ c ∈ cs, c.Stops table s e.2) :
    Finishes (fun n => applyAll table n (fieldSteps fields cs d) v) s fun _ => True :=
  fields_finish (fun x : Field × Converter => x.1.name) (fun x => x.2.step d) (nodup_moved hn)
    fun entries hv x hx e he _ =>
      h entries hv e he x.2 (List.of_mem_zip (List.mem_filter.mp hx).1).2 d

theorem inner_of_entry {entries : List (String × Value)} (hv : v = .object entries)
    {e : String × Value} (he : e ∈ entries) : e.2 ∈ v.inner s := by
  subst hv
  exact List.mem_cons_of_mem _ (List.mem_map_of_mem he)

section Stops

variable (hn : (fields.map Field.name).Nodup) (h : ∀ c ∈ cs, ∀ u ∈ v.inner s, c.Stops table s u)
include h

theorem stops_positional : (bare (positional cs)).Stops table s v := by
  have all (d : Direction) : ∀ step ∈ cs.map (fun c => c.step d), ∀ u ∈ v.inner s,
      Run.Stops table step s u := by
    intro step hstep u hu
    obtain ⟨c, hc, rfl⟩ := List.mem_map.mp hstep
    exact h c hc u hu d
  unfold positional
  split
  · exact stops_none
  · exact stops_some (.mapElements (all .forward)) (.mapElements (all .backward))

include hn

theorem stops_keyed : (bare (keyed fields cs)).Stops table s v := by
  have converted (d : Direction) : Run.Stops table (.seq (fieldSteps fields cs d)) s v :=
    .seq fun s' hs => fieldSteps_finish hn fun entries hv e he c hc d =>
      (h c hc _ (inner_of_entry hv he) d).later hs
  unfold keyed
  split
  · exact stops_none
  · exact stops_some (converted .forward) (converted .backward)

theorem toPositional_stops : Run.Stops table (toPositional fields slots cs d) s v := by
  refine .seq fun s' hs => ?_
  simp only [applyAll_append]
  have converted := fieldSteps_finish (d := d) (s := s') hn fun entries hv e he c hc d =>
    (h c hc _ (inner_of_entry hv he) d).later hs
  refine converted.bind fun s₁ w _ _ => ?_
  refine Finishes.alike (alike_singleton _ w) ?_
  exact .alike (.shift 1 fun _ => rfl) (.ofExcept fun _ _ => trivial)

theorem toKeyed_stops : Run.Stops table (toKeyed fields slots cs d) s v := by
  refine .seq fun s' hs => ?_
  rw [← List.singleton_append]
  simp only [applyAll_append]
  have named : Finishes (fun n => applyAll table n [.unwrapRecord slots] v) s' fun w =>
      ∀ entries, w = .object entries → ∀ e ∈ entries, e.2 ∈ v.inner s := by
    refine Finishes.alike (alike_singleton _ v) (.alike (.shift 1 fun _ => rfl) (.ofExcept ?_))
    rintro w hw entries rfl e he
    cases v with
    | array items =>
        simp only [unwrapRecord] at hw
        split at hw
        · cases hw
          exact (List.of_mem_zip (List.mem_filter.mp he).1).2
        · cases hw
    | _ => cases hw
  refine named.bind fun s₁ w hs₁ hw => ?_
  exact fieldSteps_finish hn fun entries hv e he c hc d =>
    (h c hc _ (hw entries hv e he) d).later (hs.trans hs₁)

theorem stops_record (host native : RecordCarrier) :
    (bare (record host native fields slots cs)).Stops table s v := by
  cases host <;> cases native
  · exact stops_keyed hn h
  · exact stops_some (toPositional_stops hn h) (toKeyed_stops hn h)
  · exact stops_some (toKeyed_stops hn h) (toPositional_stops hn h)
  · exact stops_positional h

end Stops

theorem stops_variant (host native : VariantCarrier) (ks : List Constructor)
    (payloads : List (Option Converter))
    (h : ∀ c ∈ payloads.filterMap fun p => p, ∀ u ∈ v.inner s, c.Stops table s u) :
    (bare (variant host native ks payloads)).Stops table s v := by
  have all (d : Direction) : ∀ step ∈ (cases ks payloads d).filterMap CaseStep.payload,
      ∀ u ∈ v.inner s, Run.Stops table step s u := by
    intro step hstep u hu
    obtain ⟨c, hc, rfl⟩ := mem_cases hstep
    exact h c hc u hu d
  unfold variant
  split
  · exact stops_none
  · exact stops_some (.retag (all .forward)) (.retag (all .backward))

/-- Of a function only the outer layer of its converter is run. -/
theorem stops_shim (sig : Signature) (convention : Convention) (ret : Converter) :
    (bare (shim sig convention cs ret)).Stops table s v := by
  have wrapper (args : List Step) (ret : Step) :
      Run.Stops table (.seq [wrapFunction args ret, .adaptArity convention.countOnly]) s v := by
    refine .seq fun s' _ => ?_
    rw [← List.singleton_append]
    simp only [applyAll_append]
    have wrapped : Run.Stops table (wrapFunction args ret) s' v := by
      unfold wrapFunction
      split
      · exact .identity
      · exact .wrapFunction
    refine ((wrapped s' (.refl s')).alike (alike_singleton _ v)).bind fun s₁ w _ _ => ?_
    exact (Run.Stops.adaptArity s₁ (.refl s₁)).alike (alike_singleton _ w)
  unfold shim
  simp only
  split
  · exact stops_none
  · exact stops_some (wrapper _ _) (wrapper _ _)

end Assembly

namespace World

open Assembly

variable {w : World} {table : FixTable} {s : Store} {v : Value} {x : TyId} {t : Term} {l : Layer}
  {content : Content}

/-- What a layer puts together comes to an end if the converters of its parts do, on what is in
the value, or on the value itself if the layer is a wrapping. -/
theorem assemble_stops {cs : List Converter} (hl : w.layer? x t = some l)
    (hbefore : w.Answers l.before (.ok ())) (ha : w.Answers (l.assemble cs) (.ok content))
    (hv : ∀ b, v = .box b → b.index < s.boxes.size)
    (hinner : ∀ c ∈ cs, ∀ u ∈ v.inner s, c.Stops table s u)
    (hsame : (∃ y, t = .option y ∨ t = .nullable y) → ∀ c ∈ cs, c.Stops table s v) :
    (bare content).Stops table s v := by
  have run := ha (blank w.arena) rfl
  have head {P : Converter → Prop} (hcs : ∀ c ∈ cs, P c) (hP : P .identity) :
      P (cs.headD .identity) := by
    cases cs with
    | nil => exact hP
    | cons c cs => exact hcs c (List.mem_cons_self ..)
  have idle : ∀ u, Converter.identity.Stops table s u := fun _ => stops_none
  have parts := head hinner fun u _ => idle u
  cases t with
  | scalar | var | opaqueTy | named => cases hl
  | record fields =>
      cases hl
      obtain ⟨slots, -, rfl⟩ := assemble_record run
      exact stops_record (uniqueFields_spec hbefore) hinner _ _
  | object => cases hl; cases run; exact stops_keyed (uniqueFields_spec hbefore) hinner
  | tuple => cases hl; cases run; exact stops_positional hinner
  | variant ks =>
      cases hl
      cases run
      exact stops_variant _ _ ks _ fun c hc => hinner c (mem_spread hc)
  | array =>
      cases hl
      cases run
      exact stops_wrapped fun d => .mapArray fun u hu => parts u hu d
  | option y =>
      cases hl
      cases run
      exact stops_wrapped fun d => .mapOption (head (hsame ⟨y, .inl rfl⟩) (idle v) d)
  | nullable y =>
      cases hl
      cases run
      have same := head (hsame ⟨y, .inr rfl⟩) (idle v)
      exact stops_some (.mapNullable (same .forward)) (.mapNullable (same .backward))
  | ref =>
      cases hl
      rcases assemble_cell run with ⟨rfl, -⟩ | ⟨rfl, -⟩
      · exact stops_some .passBox .passBox
      · exact stops_wrapped fun d => .rebuildBox hv fun u hu => parts u hu d
  | function sig =>
      rcases layer_function hl with ⟨_, -, rfl⟩ | ⟨convention, -, rfl⟩
      · cases run
      · cases run
        exact stops_shim sig convention _

theorem stops_wrap {p : Part} (h : (bare content).Stops table s v) :
    (bare (p.wrap content)).Stops table s v := by
  rcases p.bare_wrap content with hp | hp <;> rw [hp]
  · exact h
  · exact stops_wrapped fun d => (h d).mapOption

/-- All conversions of the value end, unless they come to a hollow type. -/
def Digests (w : World) (table : FixTable) (s : Store) (v : Value) : Prop :=
  ∀ x content, w.Good x → w.Solid x → w.Canon x content → (bare content).Stops table s v

section Digests

variable (hbodies : ∀ u body, w.Deferrable u → table.find? u = some body → w.Body u body.content)
include hbodies

/-- The conversions of a value end if those of what is in it do. By induction on the wrappings,
which go on with the same value. -/
theorem digests_of_inner (hv : ∀ b, v = .box b → b.index < s.boxes.size)
    (hinner : ∀ u ∈ v.inner s, w.Digests table s u) : w.Digests table s v := by
  intro x content hg hsolid hc
  induction hsolid.acc generalizing content with
  | intro x _ ih =>
      have wrapped {y : TyId} {c : Content} (hy : w.Wraps x y) (hc : w.Canon y c) :
          (bare c).Stops table s v := by
        cases c with
        | none => exact stops_none
        | some halves =>
            have hconv : w.Converts y := by
              by_contra hnot
              cases hc.eq_none_iff.mpr hnot
            exact ih y ⟨hy, hconv⟩ _ (hg.edge hy.edge) (hsolid.edge hy.edge) hc
      cases hc with
      | leaf | idle => exact stops_none
      | @layer _ t l cs _ ht hl hb _ hcs ha =>
          rw [Assembles, zipWith_wrap, List.map_map] at ha
          refine assemble_stops hl hb ha hv (fun c hc u hu => ?_) ?_
          · obtain ⟨p, hp, rfl⟩ := List.mem_map.mp hc
            have edge : w.Edge x p.ty := .part ht hl hp
            exact stops_wrap (hinner u hu _ _ (hg.edge edge) (hsolid.edge edge) (hcs p hp))
          · rintro ⟨y, hy⟩ c hc
            obtain ⟨p, hp, rfl⟩ := List.mem_map.mp hc
            refine stops_wrap (wrapped ?_ (hcs p hp))
            rcases hy with rfl | rfl <;> cases hl <;> cases List.mem_singleton.mp hp
            · exact .option ht
            · exact .nullable ht
      | inline hr _ hc => exact wrapped (.node hr) hc
      | deferring hrec hconv =>
          have recurse (d : Direction) : Run.Stops table (.recurse x d) s v := by
            refine .recurse fun body hbody => ?_
            obtain ⟨r, hr, hc⟩ := hbodies x body ⟨hg, hrec, hconv⟩ hbody
            have stops := wrapped (.node hr) hc d
            rwa [show bare body.content = body.strip from rfl, step_strip] at stops
          exact stops_some (recurse .forward) (recurse .backward)

/-- All conversions of a tidy value end. -/
theorem digests_of_tidy (h : v.Tidy s) : w.Digests table s v := by
  have leaf {v : Value} (hv : ∀ b, v ≠ .box b) (hnone : v.inner s = []) : w.Digests table s v :=
    digests_of_inner hbodies (fun b hb => absurd hb (hv b)) (by simp [hnone])
  induction h with
  | absent | null | unit | bool | int | float | str | fn => exact leaf nofun rfl
  | array _ ih => exact digests_of_inner hbodies nofun ih
  | object _ _ ih =>
      refine digests_of_inner hbodies nofun fun u hu => ?_
      rcases List.mem_cons.mp hu with rfl | hu
      · exact leaf nofun rfl
      · obtain ⟨e, he, rfl⟩ := List.mem_map.mp hu
        exact ih e he
  | block _ ih => exact digests_of_inner hbodies nofun ih
  | box hb _ ih =>
      refine digests_of_inner hbodies (fun _ h => ?_) fun u hu => ?_
      · cases h
        exact hb
      · cases List.mem_singleton.mp hu
        exact ih

end Digests

end World

/-! ## What a session plans -/

/-- The converter of a type from which nothing hollow is reached comes to an end on every tidy
value. -/
theorem Session.Comes.finishes {catalog : Catalog} {options : Options} {S : Session} {p : Planner}
    {n i : Nat} {ty : TyId} {c : Converter} {s : PlanState} (hS : Comes catalog options S)
    (hp : S.planners[i]? = some p) (hx : S.shared.arena.Has ty)
    (hrun : planWithin catalog options n ty ⟨S.shared, p⟩ = (.ok c, s)) {b : Arena} (hb : b.Sound)
    (hsb : s.shared.arena.Within b) {table : FixTable}
    (htable : ∀ u body, table.find? u = some body → s.planner.fixpoints.find? u = some body)
    (hsolid : World.Solid ⟨catalog, options, b⟩ ty) {σ : Store} {v : Value} (hv : v.Tidy σ)
    (d : Direction) : Finishes (fun depth => convertWithin table depth c d v) σ fun _ => True := by
  obtain ⟨hgood, hcanon, -, -⟩ := hS.planned hp hx hrun hb hsb
  have bodies (u : TyId) (body : Converter) (hu : World.Deferrable ⟨catalog, options, b⟩ u)
      (h : table.find? u = some body) : World.Body ⟨catalog, options, b⟩ u body.content :=
    hS.body hp hx hrun hb hsb hu (htable u body h)
  have stops := World.digests_of_tidy bodies hv ty c.content hgood hsolid hcanon d
  rw [show bare c.content = c.strip from rfl, step_strip] at stops
  exact stops σ (.refl σ)

/-- A type that is declared as a nullable of itself has this body. A value other than null goes
round in it, however deep the run may go. -/
theorem Run.endless_of_hollow {table : FixTable} {ty : TyId} {body : Converter}
    (hbody : table.find? ty = some body)
    (hcontent : body.content =
      some (.mapNullable (.recurse ty .forward), .mapNullable (.recurse ty .backward)))
    {v : Value} (hv : v.Present) (d : Direction) (s : Store) :
    ∀ depth, applyWithin table depth (.recurse ty d) v s = (.error .outOfFuel, s)
  | 0 => rfl
  | depth + 1 => by
      have half : body.step d = .mapNullable (.recurse ty d) := by
        cases body with
        | identity => cases hcontent
        | custom => cases hcontent; cases d <;> rfl
      have turn : applyWithin table (depth + 1) (.recurse ty d) v =
          applyWithin table depth (.mapNullable (.recurse ty d)) v := by
        rw [applyWithin, applyLayer, hbody]
        exact congrArg (applyWithin table depth · v) half
      rw [turn]
      cases depth with
      | zero => rfl
      | succ depth =>
          have through : applyWithin table (depth + 1) (.mapNullable (.recurse ty d)) v =
              applyWithin table depth (.recurse ty d) v := by
            cases v with
            | absent => exact absurd rfl hv.1
            | null => exact absurd rfl hv.2
            | _ => rfl
          rw [through]
          exact endless_of_hollow hbody hcontent hv d s depth

end Marshal
