import Marshal.Proofs.Carriers
import Marshal.Proofs.Shapes

/-!
# Presence survives conversion

A value is absent, null or present, and a planned conversion changes nothing about
that, whatever the value is and however it got into its place. Of all steps only the
one that fills in a default turns absence into something else, so what has to be shown
is where a planner puts it: only among the arguments of a function wrapper, which are
run on a call and not on a value that is converted. `Faithful` is that shape of steps.

Every step that a run meets on its way down is faithful, so all of them keep the
presence of what they are run on (`Run.applyWithin_samePresence`).
-/

namespace Marshal

open Relation

/-! ## Absent, null, present -/

namespace Value

/-- Both are absent, or neither; and both are null, or neither. -/
def SamePresence (v w : Value) : Prop := (v = absent ↔ w = absent) ∧ (v = null ↔ w = null)

theorem SamePresence.refl (v : Value) : v.SamePresence v := ⟨.rfl, .rfl⟩

theorem SamePresence.trans {u v w : Value} (h : u.SamePresence v) (h' : v.SamePresence w) :
    u.SamePresence w :=
  ⟨h.1.trans h'.1, h.2.trans h'.2⟩

/-- The value is there, and it is not null. -/
def Present (v : Value) : Prop := v ≠ absent ∧ v ≠ null

theorem Present.same {v w : Value} (hv : v.Present) (hw : w.Present) : v.SamePresence w :=
  ⟨iff_of_false hv.1 hw.1, iff_of_false hv.2 hw.2⟩

end Value

/-! ## Running on a result -/

namespace Run

variable {α β : Type} {s s' : Store}

theorem ofExcept_eq_ok {r : Except Fault α} {a : α} (h : ofExcept r s = (.ok a, s')) :
    r = .ok a := by
  cases r with
  | error f => cases h
  | ok b => cases h; rfl

theorem expectFn_eq_ok {v : Value} {f : Closure} (h : expectFn v s = (.ok f, s')) : v = .fn f := by
  cases v <;> first | (cases h; rfl) | cases h

end Run

namespace Variant

variable {cases : List CaseStep} {i : Nat} {carrier : VariantCarrier} {v : Value}
  {payload : Option Value}

/-- What is decoded was present, and it is the constructor of a declared case. -/
theorem decode_spec (h : decode carrier cases v = .ok (i, payload)) :
    v.Present ∧ i < cases.length := by
  cases Carries.of_decode h with
  | name hc | tagged hc | number hc | block hc =>
      exact ⟨by simp [Value.Present], (List.getElem?_eq_some_iff.mp hc).1⟩

theorem encode_present (h : i < cases.length) : (encode carrier cases i payload).Present := by
  unfold encode
  rw [List.getElem?_eq_getElem h]
  cases carrier <;> cases payload <;> simp [Value.Present]

end Variant

/-! ## Steps that fill in nothing -/

namespace Step

/-- A run of the first step may hand a value to the second. -/
inductive Hands (table : FixTable) : Step → Step → Prop
  | mapOption {s : Step} : Hands table (.mapOption s) s
  | mapNullable {s : Step} : Hands table (.mapNullable s) s
  | atField {name : String} {s : Step} : Hands table (.atField name s) s
  | rebuildBox {s : Step} : Hands table (.rebuildBox s) s
  | sequence {ss : List Step} {s : Step} : s ∈ ss → Hands table (.sequence ss) s
  | mapElements {ss : List Step} {s : Step} : s ∈ ss → Hands table (.mapElements ss) s
  | mapArray {s : Step} : Hands table (.mapArray s) s
  | retag {source target : VariantCarrier} {cases : List CaseStep} {s : Step} :
      s ∈ cases.filterMap CaseStep.payload → Hands table (.retag source target cases) s
  | recurse {ty : TyId} {d : Direction} {body : Converter} :
      table.find? ty = some body → Hands table (.recurse ty d) (body.step d)

/-- A run of the first step may come to the second. -/
def Meets (table : FixTable) : Step → Step → Prop := ReflTransGen (Hands table)

/-- Where values pass, no default is filled in, and what the step defers to is in `Q`. -/
inductive Faithful (Q : TyId → Prop) : Step → Prop
  | identity : Faithful Q .identity
  | wrapRecord (slots : List RecordSlot) : Faithful Q (.wrapRecord slots)
  | unwrapRecord (slots : List RecordSlot) : Faithful Q (.unwrapRecord slots)
  | mapOption {s : Step} : Faithful Q s → Faithful Q (.mapOption s)
  | mapNullable {s : Step} : Faithful Q s → Faithful Q (.mapNullable s)
  | atField {name : String} {s : Step} : Faithful Q s → Faithful Q (.atField name s)
  | adaptArity (adapter : Adapter) : Faithful Q (.adaptArity adapter)
  | passBox (s : Step) : Faithful Q (.passBox s)
  | rebuildBox {s : Step} : Faithful Q s → Faithful Q (.rebuildBox s)
  | sequence {ss : List Step} : (∀ s ∈ ss, Faithful Q s) → Faithful Q (.sequence ss)
  | mapElements {ss : List Step} : (∀ s ∈ ss, Faithful Q s) → Faithful Q (.mapElements ss)
  | mapArray {s : Step} : Faithful Q s → Faithful Q (.mapArray s)
  | retag {source target : VariantCarrier} {cases : List CaseStep} :
      (∀ s ∈ cases.filterMap CaseStep.payload, Faithful Q s) →
      Faithful Q (.retag source target cases)
  | wrapFunction (args : List Step) (ret : Step) : Faithful Q (.wrapFunction args ret)
  | recurse {ty : TyId} (d : Direction) : Q ty → Faithful Q (.recurse ty d)

namespace Faithful

variable {Q : TyId → Prop} {table : FixTable} {s s' : Step}

/-- What a faithful step hands values to is faithful, if the bodies in the table are. -/
theorem hands (h : Faithful Q s)
    (closed : ∀ ty body, Q ty → table.find? ty = some body → ∀ d, Faithful Q (body.step d))
    (hs : Hands table s s') : Faithful Q s' := by
  cases hs with
  | mapOption | mapNullable | atField | rebuildBox | mapArray => cases h; assumption
  | sequence hmem => cases h with | sequence all => exact all _ hmem
  | mapElements hmem => cases h with | mapElements all => exact all _ hmem
  | retag hmem => cases h with | retag all => exact all _ hmem
  | recurse hbody => cases h with | recurse _ hq => exact closed _ _ hq hbody _

theorem meets (h : Faithful Q s)
    (closed : ∀ ty body, Q ty → table.find? ty = some body → ∀ d, Faithful Q (body.step d))
    (hs : Meets table s s') : Faithful Q s' := by
  induction hs with
  | refl => exact h
  | tail _ hlast ih => exact ih.hands closed hlast

end Faithful

end Step

/-! ## Running a faithful step -/

namespace Run

open Step Value

variable {table : FixTable} {Q : TyId → Prop} {s s' : Store} {v w : Value}

theorem wrapRecord_present {slots : List RecordSlot} (h : wrapRecord slots v = .ok w) :
    v.Present ∧ w.Present := by
  cases v with
  | object entries =>
      simp only [wrapRecord] at h
      cases hm : slots.mapM (wrapRecord.element entries) with
      | error f => rw [hm] at h; cases h
      | ok items => rw [hm] at h; cases h; simp [Present]
  | _ => cases h

theorem unwrapRecord_present {slots : List RecordSlot} (h : unwrapRecord slots v = .ok w) :
    v.Present ∧ w.Present := by
  cases v with
  | array items =>
      simp only [unwrapRecord] at h
      split at h
      · cases h; simp [Present]
      · cases h
  | _ => cases h

/-- What a list of steps is run on keeps its presence if every step keeps it. -/
theorem foldlM_samePresence {sub : Step → Value → Run Value} :
    ∀ {steps : List Step} {v : Value} {s : Store},
      (∀ step ∈ steps, ∀ v w s s', sub step v s = (.ok w, s') → v.SamePresence w) →
      (steps.foldlM (fun v step => sub step v) v) s = (.ok w, s') → v.SamePresence w
  | [], v, s, _, h => by cases h; exact .refl _
  | step :: steps, v, s, hsub, h => by
      rw [List.foldlM_cons] at h
      obtain ⟨u, s₁, hu, h⟩ := bind_eq_ok h
      have rest := foldlM_samePresence (fun t ht => hsub t (List.mem_cons_of_mem _ ht)) h
      exact (hsub step (List.mem_cons_self ..) v u s s₁ hu).trans rest

/-- One layer keeps the presence of its value if the steps below do. -/
theorem applyLayer_samePresence {sub : Step → Value → Run Value} {step : Step}
    (hstep : Faithful Q step)
    (hsub : ∀ inner, Hands table step inner → ∀ v w s s', sub inner v s = (.ok w, s') →
      v.SamePresence w)
    (h : applyLayer table sub step v s = (.ok w, s')) : v.SamePresence w := by
  cases hstep with
  | identity => cases h; exact .refl _
  | wrapRecord slots =>
      obtain ⟨hv, hw⟩ := wrapRecord_present (ofExcept_eq_ok h)
      exact hv.same hw
  | unwrapRecord slots =>
      obtain ⟨hv, hw⟩ := unwrapRecord_present (ofExcept_eq_ok h)
      exact hv.same hw
  | mapOption =>
      cases v with
      | absent => cases h; exact .refl _
      | _ => exact hsub _ .mapOption _ _ _ _ h
  | mapNullable =>
      cases v with
      | absent | null => cases h; exact .refl _
      | _ => exact hsub _ .mapNullable _ _ _ _ h
  | atField =>
      cases v with
      | object entries =>
          obtain ⟨es, s₁, -, h⟩ := bind_eq_ok h
          cases h
          exact Present.same (by simp [Present]) (by simp [Present])
      | _ => cases h
  | adaptArity adapter =>
      obtain ⟨f, s₁, hf, h⟩ := bind_eq_ok h
      cases expectFn_eq_ok hf
      cases h
      exact Present.same (by simp [Present]) (by simp [Present])
  | passBox => cases v with
      | box b => cases h; exact .refl _
      | _ => cases h
  | rebuildBox =>
      cases v with
      | box b =>
          obtain ⟨u, s₁, -, h⟩ := bind_eq_ok h
          obtain ⟨u', s₂, -, h⟩ := bind_eq_ok h
          cases h
          exact Present.same (by simp [Present]) (by simp [Present])
      | _ => cases h
  | sequence => exact foldlM_samePresence (fun inner hmem => hsub inner (.sequence hmem)) h
  | mapElements =>
      cases v with
      | array items =>
          simp only [applyLayer] at h
          split at h
          · obtain ⟨us, s₁, -, h⟩ := bind_eq_ok h
            cases h
            exact Present.same (by simp [Present]) (by simp [Present])
          · cases h
      | _ => cases h
  | mapArray =>
      cases v with
      | array items =>
          obtain ⟨us, s₁, -, h⟩ := bind_eq_ok h
          cases h
          exact Present.same (by simp [Present]) (by simp [Present])
      | _ => cases h
  | @retag source target cases _ =>
      simp only [applyLayer] at h
      obtain ⟨⟨i, payload⟩, s₁, hdecode, h⟩ := bind_eq_ok h
      obtain ⟨hv, hi⟩ := Variant.decode_spec (ofExcept_eq_ok hdecode)
      refine hv.same ?_
      dsimp only at h
      cases hp : (cases[i]?).bind CaseStep.payload with
      | none => rw [hp] at h; cases h; exact Variant.encode_present hi
      | some inner =>
          rw [hp] at h
          cases payload with
          | none => cases h; exact Variant.encode_present hi
          | some u =>
              obtain ⟨u', s₂, -, h⟩ := bind_eq_ok h
              cases h
              exact Variant.encode_present hi
  | wrapFunction args ret =>
      obtain ⟨f, s₁, hf, h⟩ := bind_eq_ok h
      cases expectFn_eq_ok hf
      cases h
      exact Present.same (by simp [Present]) (by simp [Present])
  | @recurse ty d _ =>
      simp only [applyLayer] at h
      cases hbody : table.find? ty with
      | none => rw [hbody] at h; cases h
      | some body => rw [hbody] at h; exact hsub _ (.recurse hbody) _ _ _ _ h

/-- A faithful step keeps the presence of every value that it is run on. -/
theorem applyWithin_samePresence
    (closed : ∀ ty body, Q ty → table.find? ty = some body → ∀ d, Faithful Q (body.step d)) :
    ∀ {depth : Nat} {step : Step} {v w : Value} {s s' : Store}, Faithful Q step →
      applyWithin table depth step v s = (.ok w, s') → v.SamePresence w
  | 0, _, _, _, _, _, _, h => by cases h
  | depth + 1, step, v, w, s, s', hstep, h =>
      applyLayer_samePresence hstep
        (fun _ hinner _ _ _ _ => applyWithin_samePresence closed (hstep.hands closed hinner)) h

end Run

/-! ## What a planner makes is faithful -/

/-- Both halves are faithful. -/
def Converter.Faithful (Q : TyId → Prop) (c : Converter) : Prop := ∀ d, Step.Faithful Q (c.step d)

theorem Step.Orderly.faithful {functions : Prop} {Q : TyId → Prop} {s : Step}
    (h : Orderly functions Q s) : Faithful Q s := by
  induction h with
  | identity => exact .identity
  | wrapRecord => exact .wrapRecord _
  | unwrapRecord => exact .unwrapRecord _
  | mapOption _ ih => exact .mapOption ih
  | mapNullable _ ih => exact .mapNullable ih
  | atField _ ih => exact .atField ih
  | adaptArity => exact .adaptArity _
  | passBox => exact .passBox _
  | rebuildBox _ ih => exact .rebuildBox ih
  | sequence _ ih => exact .sequence ih
  | mapElements _ ih => exact .mapElements ih
  | mapArray _ ih => exact .mapArray ih
  | retag _ ih => exact .retag ih
  | wrapFunction => exact .wrapFunction _ _
  | recurse d hq => exact .recurse d hq

/-! ## What a session plans -/

section Sessions

open Converter Planner PlanM World

variable {catalog : Catalog} {options : Options} {S : Session} {p : Planner} {d i : Nat}
  {ty : TyId} {c : Converter} {s : PlanState}

/-- The converter of a type and the bodies that come with it are faithful. -/
theorem Session.Comes.faithful (hS : Comes catalog options S) (hp : S.planners[i]? = some p)
    (hx : S.shared.arena.Has ty)
    (hrun : planWithin catalog options d ty ⟨S.shared, p⟩ = (.ok c, s)) :
    ∃ Q : TyId → Prop, c.Faithful Q ∧
      ∀ u body, Q u → s.planner.fixpoints.find? u = some body → body.Faithful Q := by
  have next : Comes catalog options (S.after i s) :=
    .calls hS hp (by simpa [Call.types] using hx) (run_type hrun) (by simp)
  obtain ⟨Q, hc, hbodies⟩ := hS.orderly hp hx hrun next.rests.sound (.refl _) fun _ _ _ _ => trivial
  exact ⟨Q, fun d => (hc d).faithful, fun u body hu hbody d => (hbodies u body hu hbody d).faithful⟩

end Sessions

end Marshal
