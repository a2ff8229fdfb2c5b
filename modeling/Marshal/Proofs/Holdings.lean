import Marshal.Proofs.Presence
import Marshal.Run.Call

/-!
# What runs hand on

Deep inside a value, behind functions and what they captured, there may be cells, and
wrappers that look bodies up in the table of the plan that made them. A run of a step
takes values apart and puts them together, but it calls no function and looks into
none. So its result holds nothing that the value did not hold, but for the cells that
a `rebuildBox` makes and the wrappers that a `wrapFunction` puts around.

`Safe` is what is shown of all runs at once: some property of the cells' contents is
kept, however the run ends, the result is of a kind, and no body is missed. A
`Guard` says what has to be known of the steps that a run may come to
(`Guard.applyWithin`). For calls, `Equipped` values are those whose wrappers have the
bodies that they need; running and calling keeps them so (`invokeWithin_safe`).
-/

namespace Marshal

/-! ## Cells and wrappers inside a value -/

/-- What refers to something outside of the value that holds it. -/
inductive Atom where
  | box (b : BoxId)
  | wrapper (table : FixTable) (args : List Step) (ret : Step)

/-- The expressions right inside an expression. -/
def Expr.children : Expr → List Expr
  | .arg _ | .lit _ | .fail _ | .again => []
  | .array es | .block _ es => es
  | .object es => es.map Prod.snd
  | .get e _ | .item e _ | .getBox e | .makeBox e | .text e | .kind e | .lambda _ e => [e]
  | .invoke f es | .curried f es => f :: es
  | .setBox a b | .add a b => [a, b]

mutual

inductive Value.Holds : Value → Atom → Prop
  | box {b : BoxId} : Value.Holds (.box b) (.box b)
  | array {items : List Value} {v : Value} {a : Atom} : v ∈ items → Value.Holds v a →
      Value.Holds (.array items) a
  | object {entries : List (String × Value)} {e : String × Value} {a : Atom} : e ∈ entries →
      Value.Holds e.2 a → Value.Holds (.object entries) a
  | block {tag : UInt32} {fields : List Value} {v : Value} {a : Atom} : v ∈ fields →
      Value.Holds v a → Value.Holds (.block tag fields) a
  | fn {f : Closure} {a : Atom} : Body.Holds f.body a → Value.Holds (.fn f) a

inductive Body.Holds : Body → Atom → Prop
  | captured {vs : List Value} {code : Expr} {v : Value} {a : Atom} : v ∈ vs →
      Value.Holds v a → Body.Holds (.script vs code) a
  | code {vs : List Value} {code : Expr} {a : Atom} : Expr.Holds code a →
      Body.Holds (.script vs code) a
  | adapted {adapter : Adapter} {callee : Closure} {a : Atom} : Body.Holds callee.body a →
      Body.Holds (.adapt adapter callee) a
  | wrapper {table : FixTable} {args : List Step} {ret : Step} {callee : Closure} :
      Body.Holds (.convert table args ret callee) (.wrapper table args ret)
  | converted {table : FixTable} {args : List Step} {ret : Step} {callee : Closure} {a : Atom} :
      Body.Holds callee.body a → Body.Holds (.convert table args ret callee) a

inductive Expr.Holds : Expr → Atom → Prop
  | lit {v : Value} {a : Atom} : Value.Holds v a → Expr.Holds (.lit v) a
  | child {e e' : Expr} {a : Atom} : e' ∈ e.children → Expr.Holds e' a → Expr.Holds e a

end

/-- `Q` of all that the value holds. -/
def Value.All (Q : Atom → Prop) (v : Value) : Prop := ∀ a, v.Holds a → Q a

def Body.All (Q : Atom → Prop) (body : Body) : Prop := ∀ a, body.Holds a → Q a

def Expr.All (Q : Atom → Prop) (e : Expr) : Prop := ∀ a, e.Holds a → Q a

section All

variable {Q : Atom → Prop} {v : Value} {items : List Value} {entries : List (String × Value)}

namespace Value

@[simp] theorem all_absent : absent.All Q := nofun

@[simp] theorem all_null : null.All Q := nofun

@[simp] theorem all_unit : unit.All Q := nofun

@[simp] theorem all_bool (b : Bool) : (bool b).All Q := nofun

@[simp] theorem all_int (n : Int64) : (int n).All Q := nofun

@[simp] theorem all_float (x : Binary64) : (float x).All Q := nofun

@[simp] theorem all_str (s : String) : (str s).All Q := nofun

@[simp] theorem all_ofLiteral (lit : Literal) : (ofLiteral lit).All Q := by cases lit <;> nofun

@[simp] theorem all_box {b : BoxId} : (box b).All Q ↔ Q (.box b) :=
  ⟨fun h => h _ .box, fun h a ha => by cases ha; exact h⟩

@[simp] theorem all_array : (array items).All Q ↔ ∀ v ∈ items, v.All Q :=
  ⟨fun h v hv a ha => h a (.array hv ha), fun h a ha => by
    cases ha with
    | array hv ha => exact h _ hv a ha⟩

@[simp] theorem all_object : (object entries).All Q ↔ ∀ e ∈ entries, e.2.All Q :=
  ⟨fun h e he a ha => h a (.object he ha), fun h a ha => by
    cases ha with
    | object he ha => exact h _ he a ha⟩

@[simp] theorem all_block {tag : UInt32} : (block tag items).All Q ↔ ∀ v ∈ items, v.All Q :=
  ⟨fun h v hv a ha => h a (.block hv ha), fun h a ha => by
    cases ha with
    | block hv ha => exact h _ hv a ha⟩

@[simp] theorem all_fn {f : Closure} : (fn f).All Q ↔ f.body.All Q :=
  ⟨fun h a ha => h a (.fn ha), fun h a ha => by
    cases ha with
    | fn ha => exact h a ha⟩

theorem all_findKey {key : String} (h : ∀ e ∈ entries, e.2.All Q)
    (hv : findKey key entries = some v) : v.All Q :=
  h (key, v) (mem_present.mp (findKey_eq_some hv)).1

end Value

namespace Body

@[simp] theorem all_script {code : Expr} :
    (script items code).All Q ↔ (∀ v ∈ items, v.All Q) ∧ code.All Q :=
  ⟨fun h => ⟨fun v hv a ha => h a (.captured hv ha), fun a ha => h a (.code ha)⟩, fun h a ha => by
    cases ha with
    | captured hv ha => exact h.1 _ hv a ha
    | code ha => exact h.2 a ha⟩

@[simp] theorem all_adapt {adapter : Adapter} {callee : Closure} :
    (adapt adapter callee).All Q ↔ callee.body.All Q :=
  ⟨fun h a ha => h a (.adapted ha), fun h a ha => by
    cases ha with
    | adapted ha => exact h a ha⟩

@[simp] theorem all_convert {table : FixTable} {args : List Step} {ret : Step}
    {callee : Closure} : (convert table args ret callee).All Q ↔
      Q (.wrapper table args ret) ∧ callee.body.All Q :=
  ⟨fun h => ⟨h _ .wrapper, fun a ha => h a (.converted ha)⟩, fun h a ha => by
    cases ha with
    | wrapper => exact h.1
    | converted ha => exact h.2 a ha⟩

end Body

namespace Expr

variable {e e' : Expr}

theorem All.child (h : e.All Q) (he : e' ∈ e.children) : e'.All Q := fun a ha => h a (.child he ha)

theorem all_lit (h : (lit v).All Q) : v.All Q := fun a ha => h a (.lit ha)

end Expr

end All

/-! ## Safe runs -/

namespace Run

variable {α β : Type} {J : Array Value → Prop} {P : α → Prop} {R : β → Prop} {x : Run α}

/-- The fault of a run that comes to a recursive type without a body. -/
def Lacks (h : Halt) : Prop := ∃ ty, h = .fault (.unsupported ty missingBody)

/-- If the cells' contents have `J` before the run, they have it after the run; a result has
`P`, and no body is missed. -/
def Safe (J : Array Value → Prop) (P : α → Prop) (x : Run α) : Prop :=
  ∀ s, J s.boxes → J (x s).2.boxes ∧ match (x s).1 with
    | .ok v => P v
    | .error h => ¬Lacks h

theorem not_lacks {f : Fault} (h : ∀ ty, f ≠ .unsupported ty missingBody) : ¬Lacks (.fault f) :=
  fun ⟨ty, hf⟩ => h ty (Halt.fault.inj hf)

namespace Safe

theorem pure {v : α} (h : P v) : Safe J P (Pure.pure v : Run α) := fun _ hs => ⟨hs, h⟩

theorem fail {f : Fault} (h : ∀ ty, f ≠ .unsupported ty missingBody) :
    Safe J P (Run.fail f : Run α) :=
  fun _ hs => ⟨hs, not_lacks h⟩

theorem halted : Safe J P (throw .outOfFuel : Run α) := fun _ hs => ⟨hs, nofun⟩

theorem bind {f : α → Run β} (hx : Safe J P x) (hf : ∀ v, P v → Safe J R (f v)) :
    Safe J R (x >>= f) := fun s hs => by
  obtain ⟨hs₁, hr⟩ := hx s hs
  rw [bind_run]
  rcases he : x s with ⟨h | v, s₁⟩ <;> rw [he] at hs₁ hr
  · exact ⟨hs₁, hr⟩
  · exact hf v hr s₁ hs₁

theorem imp {P' : α → Prop} (hx : Safe J P x) (h : ∀ v, P v → P' v) : Safe J P' x := fun s hs => by
  obtain ⟨hs₁, hr⟩ := hx s hs
  rcases he : x s with ⟨e | v, s₁⟩ <;> rw [he] at hs₁ hr
  · exact ⟨hs₁, hr⟩
  · exact ⟨hs₁, h v hr⟩

theorem ofExcept {r : Except Fault α} (h : ∀ v, r = .ok v → P v)
    (h' : ∀ ty, r ≠ .error (.unsupported ty missingBody)) : Safe J P (Run.ofExcept r) := by
  cases r with
  | ok v => exact .pure (h v rfl)
  | error f => exact .fail fun ty hf => h' ty (hf ▸ rfl)

theorem mapM {f : α → Run β} : ∀ {xs : List α}, (∀ x ∈ xs, Safe J R (f x)) →
    Safe J (fun ys => ∀ y ∈ ys, R y) (xs.mapM f)
  | [], _ => by
      simp only [List.mapM_nil]
      exact .pure nofun
  | x :: xs, h => by
      simp only [List.mapM_cons]
      refine (h x (List.mem_cons_self ..)).bind fun y hy =>
        (mapM fun z hz => h z (List.mem_cons_of_mem _ hz)).bind fun ys hys => .pure fun z hz => ?_
      rcases List.mem_cons.mp hz with rfl | hz
      · exact hy
      · exact hys z hz

theorem foldlM {f : α → β → Run α} : ∀ {ys : List β} {v : α}, P v →
    (∀ y ∈ ys, ∀ v, P v → Safe J P (f v y)) → Safe J P (ys.foldlM f v)
  | [], _, hv, _ => .pure hv
  | y :: ys, v, hv, h => by
      simp only [List.foldlM_cons]
      exact (h y (List.mem_cons_self ..) v hv).bind fun w hw =>
        foldlM hw fun z hz => h z (List.mem_cons_of_mem _ hz)

theorem expectFn {Q : Atom → Prop} {v : Value} (hv : v.All Q) :
    Safe J (fun f => f.body.All Q) (Run.expectFn v) := by
  cases v with
  | fn f => exact .pure (Value.all_fn.mp hv)
  | _ => exact .fail nofun

theorem newFn {Q : Atom → Prop} {n : Nat} {body : Body} (h : body.All Q) :
    Safe J (Value.All Q) (Run.newFn n body) :=
  fun _ hs => ⟨hs, Value.all_fn.mpr h⟩

end Safe

/-! ## Running a step -/

section Layers

variable {Q : Atom → Prop} {slots : List RecordSlot} {v w : Value}

/-- A list is gone through up to the first fault. -/
theorem mapM_except {f : α → Except Fault β} : ∀ {xs : List α} {r : Except Fault (List β)},
    xs.mapM f = r → match r with
      | .ok ys => ∀ y ∈ ys, ∃ x ∈ xs, f x = .ok y
      | .error e => ∃ x ∈ xs, f x = .error e
  | [], _, h => by cases h; exact nofun
  | x :: xs, _, h => by
      rw [List.mapM_cons] at h
      cases hx : f x with
      | error e => rw [hx] at h; cases h; exact ⟨x, List.mem_cons_self .., hx⟩
      | ok y =>
          cases hxs : xs.mapM f with
          | error e =>
              rw [hx, hxs] at h
              cases h
              obtain ⟨z, hz, he⟩ := mapM_except hxs
              exact ⟨z, List.mem_cons_of_mem _ hz, he⟩
          | ok ys =>
              rw [hx, hxs] at h
              cases h
              intro z hz
              rcases List.mem_cons.mp hz with rfl | hz
              · exact ⟨x, List.mem_cons_self .., hx⟩
              · obtain ⟨x', hx', he⟩ := mapM_except hxs z hz
                exact ⟨x', List.mem_cons_of_mem _ hx', he⟩

theorem safe_wrapRecord (hv : v.All Q) :
    Safe J (Value.All Q) (Run.ofExcept (wrapRecord slots v)) := by
  cases v with
  | object entries =>
      have element {slot : RecordSlot} {r : Except Fault Value}
          (h : wrapRecord.element entries slot = r) : match r with
            | .ok u => u.All Q
            | .error e => ∀ ty, e ≠ .unsupported ty missingBody := by
        unfold wrapRecord.element at h
        split at h
        · next u hu => cases h; exact Value.all_findKey (Value.all_object.mp hv) hu
        · split at h <;> cases h
          · exact Value.all_absent
          · nofun
      show Safe J (Value.All Q)
        (Run.ofExcept ((slots.mapM (wrapRecord.element entries)).map Value.array))
      cases hus : slots.mapM (wrapRecord.element entries) with
      | error e =>
          obtain ⟨slot, -, he⟩ := mapM_except hus
          exact Safe.fail (element he)
      | ok us =>
          refine Safe.pure (Value.all_array.mpr fun u hu => ?_)
          obtain ⟨slot, -, hu⟩ := mapM_except hus u hu
          exact element hu
  | _ => exact .fail nofun

theorem safe_unwrapRecord (hv : v.All Q) :
    Safe J (Value.All Q) (Run.ofExcept (unwrapRecord slots v)) := by
  cases v with
  | array items =>
      unfold unwrapRecord
      dsimp only
      split
      · refine .pure (Value.all_object.mpr fun e he => ?_)
        exact Value.all_array.mp hv _ (List.of_mem_zip (List.mem_filter.mp he).1).2
      · exact .fail nofun
  | _ => exact .fail nofun

/-- A payload that is read was held by the value; that there is none is no lack of a body. -/
theorem safe_decode {carrier : VariantCarrier} {cases : List CaseStep} (hv : v.All Q) :
    Safe J (fun e => ∀ payload, e.2 = some payload → payload.All Q)
      (Run.ofExcept (Variant.decode carrier cases v)) := by
  cases hd : Variant.decode carrier cases v with
  | error f =>
      obtain ⟨expected, found, rfl⟩ := Variant.decode_error hd
      exact .fail nofun
  | ok e =>
      refine .pure fun p hp => ?_
      obtain ⟨i, payload⟩ := e
      cases hp
      cases Variant.Carries.of_decode hd with
      | @tagged _ _ entries =>
          cases hf : Value.findKey "value" entries with
          | none => exact Value.all_absent
          | some u => exact Value.all_findKey (Value.all_object.mp hv) hf
      | block => exact Value.all_block.mp hv _ (List.mem_singleton_self _)

theorem all_encode {carrier : VariantCarrier} {cases : List CaseStep} {i : Nat}
    {payload : Option Value} (h : ∀ p, payload = some p → p.All Q) :
    (Variant.encode carrier cases i payload).All Q := by
  unfold Variant.encode
  split
  · exact Value.all_absent
  · cases carrier <;> cases payload <;> simp
    · exact h _ rfl
    · exact h _ rfl

end Layers

open Step

/-- What is known of the steps that a run may come to: the steps below have the same guard,
recursive types have bodies, wrappers are as `Q` asks, and where a new cell is made, cells may
hold whatever `Q` says of. -/
structure Guard (Q : Atom → Prop) (J : Array Value → Prop) (table : FixTable)
    (I : Step → Prop) : Prop where
  hands : ∀ s t, I s → Hands table s t → I t
  finds : ∀ ty d, I (.recurse ty d) → table.find? ty ≠ none
  wraps : ∀ args ret, I (.wrapFunction args ret) → Q (.wrapper table args ret)
  rebuilds : ∀ s, I (.rebuildBox s) → (∀ b, Q (.box b)) ∧
    ∀ boxes, J boxes ↔ ∀ v ∈ boxes, v.All Q

section Guarded

variable {Q : Atom → Prop} {table : FixTable} {I : Step → Prop} {step : Step} {v : Value}

theorem Guard.applyLayer (h : Guard Q J table I) (hI : I step)
    {sub : Step → Value → Run Value}
    (hsub : ∀ inner v, Hands table step inner → v.All Q → Safe J (Value.All Q) (sub inner v))
    (hv : v.All Q) : Safe J (Value.All Q) (applyLayer table sub step v) := by
  cases step with
  | identity => exact .pure hv
  | wrapRecord slots => exact safe_wrapRecord hv
  | unwrapRecord slots => exact safe_unwrapRecord hv
  | mapOption inner =>
      cases v with
      | absent => exact .pure hv
      | _ => exact hsub inner _ .mapOption hv
  | mapNullable inner =>
      cases v with
      | null | absent => exact .pure hv
      | _ => exact hsub inner _ .mapNullable hv
  | atField name inner =>
      cases v with
      | object entries =>
          refine (Safe.mapM (R := fun e => e.2.All Q) fun e he => ?_).bind fun es hes =>
            .pure (Value.all_object.mpr hes)
          have there := Value.all_object.mp hv e he
          unfold atKey
          split
          · exact (hsub inner _ .atField there).bind fun u hu => .pure hu
          · exact .pure there
      | _ => exact .fail (by simp)
  | adaptArity adapter =>
      exact (Safe.expectFn hv).bind fun f hf => .newFn (Body.all_adapt.mpr hf)
  | substituteDefault lit =>
      cases v with
      | absent => exact .pure (Value.all_ofLiteral lit)
      | _ => exact .pure hv
  | passBox inner =>
      cases v with
      | box b => exact .pure hv
      | _ => exact .fail (by simp)
  | rebuildBox inner =>
      obtain ⟨hbox, hJ⟩ := h.rebuilds inner hI
      cases v with
      | box b =>
          have contents : Safe J (Value.All Q) (read b) := fun s hs => by
            refine ⟨hs, ?_⟩
            show (s.read b).All Q
            unfold Store.read
            cases hb : s.boxes[b.index]? with
            | none => exact Value.all_absent
            | some u => exact (hJ _).mp hs u (Array.mem_of_getElem? hb)
          refine contents.bind fun u hu => (hsub inner u .rebuildBox hu).bind fun w hw s hs => ?_
          refine ⟨(hJ _).mpr fun u hu => ?_, Value.all_box.mpr (hbox _)⟩
          rcases Array.mem_push.mp hu with hu | rfl
          · exact (hJ _).mp hs u hu
          · exact hw
      | _ => exact .fail (by simp)
  | sequence steps => exact .foldlM hv fun t ht u hu => hsub t u (.sequence ht) hu
  | mapElements steps =>
      cases v with
      | array items =>
          simp only [Run.applyLayer]
          split
          · refine (Safe.mapM (R := Value.All Q) fun e he => ?_).bind fun us hus =>
              .pure (Value.all_array.mpr hus)
            obtain ⟨hitem, hstep⟩ := List.of_mem_zip he
            exact hsub e.2 e.1 (.mapElements hstep) (Value.all_array.mp hv _ hitem)
          · exact .fail (by simp)
      | _ => exact .fail (by simp)
  | mapArray inner =>
      cases v with
      | array items =>
          exact (Safe.mapM fun u hu => hsub inner u .mapArray (Value.all_array.mp hv u hu)).bind
            fun us hus => .pure (Value.all_array.mpr hus)
      | _ => exact .fail (by simp)
  | retag source target cases =>
      refine (safe_decode hv).bind fun shape hp => ?_
      obtain ⟨index, payload⟩ := shape
      dsimp only
      cases hcase : (cases[index]?).bind CaseStep.payload with
      | none => exact .pure (all_encode (by simp))
      | some inner =>
          cases payload with
          | none => exact .pure (all_encode (by simp))
          | some u =>
              have below := Step.mem_payloads hcase
              refine (hsub inner u (.retag below) (hp u rfl)).bind fun w hw => .pure ?_
              exact all_encode fun p hp => Option.some.inj hp ▸ hw
  | wrapFunction args ret =>
      exact (Safe.expectFn hv).bind fun f hf =>
        .newFn (Body.all_convert.mpr ⟨h.wraps args ret hI, hf⟩)
  | recurse ty d =>
      simp only [Run.applyLayer]
      split
      · next body hbody => exact hsub _ v (.recurse hbody) hv
      · next hbody => exact absurd hbody (h.finds ty d hI)

/-- Runs of guarded steps are safe. By induction on the depth. -/
theorem Guard.applyWithin (h : Guard Q J table I) : ∀ (depth : Nat) {step : Step} {v : Value},
    I step → v.All Q → Safe J (Value.All Q) (applyWithin table depth step v)
  | 0, _, _, _, _ => .halted
  | depth + 1, _, _, hI, hv =>
      h.applyLayer hI (fun inner _ hands hv => h.applyWithin depth (h.hands _ inner hI hands) hv) hv

end Guarded

end Run

/-! ## Bodies that are there -/

/-- From the step on, a body is there for every recursive type that is deferred to. -/
def FixTable.Covers (table : FixTable) (s : Step) : Prop :=
  ∀ u, s.Has (fun t => t.target? = some u) → ∀ v, table.contents.Leads u v →
    table.find? v ≠ none

namespace FixTable.Covers

open Step Converter

variable {table : FixTable} {s t : Step} {ty : TyId} {d : Direction} {c : Converter}

theorem child (h : table.Covers s) (ht : t ∈ s.children) : table.Covers t :=
  fun u hu => h u (has_iff.mpr (.inr ⟨t, ht, hu⟩))

theorem recurse (h : table.Covers (.recurse ty d)) {v : TyId} (hv : table.contents.Leads ty v) :
    table.find? v ≠ none :=
  h ty (has_iff.mpr (.inl rfl)) v hv

theorem body (h : table.Covers (.recurse ty d)) (hbody : table.find? ty = some c) :
    table.Covers (c.step d) := by
  intro u hu v hv
  have target : u ∈ c.targets := by
    rw [mem_targets, Converter.has_iff (marks_target u)]
    cases d
    · exact .inl hu
    · exact .inr hu
  refine h.recurse (.head ⟨c.content, ?_, ?_⟩ hv)
  · rw [FixTable.contents, hbody]
    rfl
  · exact (targets_strip c).symm ▸ target

theorem hands (h : table.Covers s) (hst : Hands table s t) : table.Covers t := by
  cases hst with
  | mapOption | mapNullable | atField | rebuildBox | mapArray =>
      exact h.child (List.mem_singleton_self _)
  | sequence ht | mapElements ht | retag ht => exact h.child ht
  | recurse hbody => exact h.body hbody

end FixTable.Covers

/-- A wrapper has the bodies that its steps come to. -/
def Atom.Equipped : Atom → Prop
  | .box _ => True
  | .wrapper table args ret => (∀ s ∈ args, table.Covers s) ∧ table.Covers ret

/-- All wrappers inside have their bodies. -/
def Value.Equipped (v : Value) : Prop := v.All Atom.Equipped

def Closure.Equipped (f : Closure) : Prop := f.body.All Atom.Equipped

/-- So have all wrappers in cells. -/
def Equipped (boxes : Array Value) : Prop := ∀ v ∈ boxes, v.Equipped

namespace Run

variable {table : FixTable} {s : Step}

/-- Runs of covered steps add nothing but what is equipped. -/
theorem guard_covers {Q : Atom → Prop} (hQ : ∀ a : Atom, a.Equipped → Q a) :
    Guard Q (fun boxes => ∀ v ∈ boxes, v.All Q) table table.Covers where
  hands _ _ hI hst := hI.hands hst
  finds _ _ hI := hI.recurse .refl
  wraps _ _ hI := hQ _ ⟨fun _ hs => hI.child (List.mem_append_left _ hs),
    hI.child (List.mem_append_right _ (List.mem_singleton_self _))⟩
  rebuilds _ _ := ⟨fun _ => hQ _ trivial, fun _ => .rfl⟩

/-- If only bodies are asked for, nothing has to be known of values and cells. -/
theorem guard_lookups : Guard (fun _ => True) (fun _ => True) table table.Covers where
  hands _ _ hI hst := hI.hands hst
  finds _ _ hI := hI.recurse .refl
  wraps _ _ _ := trivial
  rebuilds _ _ := ⟨fun _ => trivial, fun _ => ⟨fun _ _ _ _ _ => trivial, fun _ => trivial⟩⟩

/-! ## Calls -/

section Calls

variable {invoke : Invoke}
  (h : ∀ (f : Closure) (args : List Value), f.Equipped → (∀ v ∈ args, v.Equipped) →
    Safe Marshal.Equipped Value.Equipped (invoke f args))
include h

theorem feed_safe (total budget : Nat) : ∀ {callee : Closure} {args : List Value},
    callee.Equipped → (∀ v ∈ args, v.Equipped) →
      Safe Marshal.Equipped Value.Equipped (feed invoke total budget callee args) := by
  induction budget with
  | zero =>
      intro callee args hf hargs
      unfold feed
      split
      · exact .fail nofun
      · refine (h _ _ hf fun v hv => hargs v (List.mem_of_mem_take hv)).bind fun result hr => ?_
        rcases args.drop callee.arity with _ | ⟨_, _⟩
        · exact .pure hr
        · exact .halted
  | succ budget ih =>
      intro callee args hf hargs
      unfold feed
      split
      · exact .fail nofun
      · refine (h _ _ hf fun v hv => hargs v (List.mem_of_mem_take hv)).bind fun result hr => ?_
        have rest : ∀ v ∈ args.drop callee.arity, v.Equipped :=
          fun v hv => hargs v (List.mem_of_mem_drop hv)
        revert rest
        rcases args.drop callee.arity with _ | ⟨_, _⟩ <;> intro rest
        · exact .pure hr
        · cases result with
          | fn next => exact ih (Value.all_fn.mp hr) rest
          | _ => exact .fail nofun

theorem callFully_safe {callee : Closure} {args : List Value} (hf : callee.Equipped)
    (hargs : ∀ v ∈ args, v.Equipped) :
    Safe Marshal.Equipped Value.Equipped (callFully invoke callee args) :=
  feed_safe h _ _ hf hargs

/-- One layer of a script, if all that it sees is equipped. -/
theorem evalLayer_safe {sub : Expr → Run Value} {frame : Frame} {e : Expr}
    (henv : ∀ v ∈ frame.env, v.Equipped) (hself : frame.self.Equipped)
    (he : e.All Atom.Equipped)
    (hsub : ∀ e' ∈ e.children, Safe Marshal.Equipped Value.Equipped (sub e')) :
    Safe Marshal.Equipped Value.Equipped (evalLayer invoke sub frame e) := by
  have text {t : Store → String} :
      Safe Marshal.Equipped Value.Equipped (do pure (.str (t (← get))) : Run Value) :=
    fun _ hs => ⟨hs, Value.all_str _⟩
  have box {v : Value} : Safe Marshal.Equipped (fun _ : BoxId => True) (expectBox v) := by
    cases v <;> first | exact .pure trivial | exact .fail nofun
  have int {v : Value} : Safe Marshal.Equipped (fun _ : Int64 => True) (expectInt v) := by
    cases v <;> first | exact .pure trivial | exact .fail nofun
  cases e with
  | arg i =>
      refine .pure ?_
      cases hi : frame.env[i]? with
      | none => exact Value.all_absent
      | some v => exact henv v (List.mem_of_getElem? hi)
  | lit v => exact .pure (Expr.all_lit he)
  | array es => exact (Safe.mapM hsub).bind fun vs hvs => .pure (Value.all_array.mpr hvs)
  | block tag es => exact (Safe.mapM hsub).bind fun vs hvs => .pure (Value.all_block.mpr hvs)
  | object es =>
      refine (Safe.mapM (R := fun e => e.2.Equipped) fun e he => ?_).bind fun vs hvs =>
        .pure (Value.all_object.mpr hvs)
      exact (hsub e.2 (List.mem_map_of_mem he)).bind fun v hv => .pure hv
  | get e key =>
      refine (hsub e (List.mem_singleton_self _)).bind fun v hv => .pure ?_
      unfold Value.get?
      split
      · next entries =>
          cases hf : Value.findKey key entries with
          | none => exact Value.all_absent
          | some u => exact Value.all_findKey (Value.all_object.mp hv) hf
      · exact Value.all_absent
  | item e i =>
      refine (hsub e (List.mem_singleton_self _)).bind fun v hv => .pure ?_
      have at_ {items : List Value} (h : ∀ v ∈ items, v.Equipped) :
          ((items[i]?).getD .absent).Equipped := by
        cases hi : items[i]? with
        | none => exact Value.all_absent
        | some u => exact h u (List.mem_of_getElem? hi)
      cases v with
      | array items => exact at_ (Value.all_array.mp hv)
      | block tag items => exact at_ (Value.all_block.mp hv)
      | _ => exact Value.all_absent
  | invoke f es =>
      exact (hsub f (List.mem_cons_self ..)).bind fun v hv => (Safe.expectFn hv).bind fun f hf =>
        (Safe.mapM fun e he => hsub e (List.mem_cons_of_mem _ he)).bind fun vs hvs => h f vs hf hvs
  | curried f es =>
      exact (hsub f (List.mem_cons_self ..)).bind fun v hv => (Safe.expectFn hv).bind fun f hf =>
        (Safe.mapM fun e he => hsub e (List.mem_cons_of_mem _ he)).bind fun vs hvs =>
          callFully_safe h hf hvs
  | setBox b e =>
      refine (hsub b (List.mem_cons_self ..)).bind fun v _ => box.bind fun b _ =>
        (hsub e (by simp [Expr.children])).bind fun w hw => Safe.bind (P := fun _ => True)
          (fun s hs => ⟨fun u hu => ?_, trivial⟩) fun _ _ => .pure Value.all_unit
      rcases Array.mem_or_eq_of_mem_setIfInBounds hu with hu | rfl
      · exact hs u hu
      · exact hw
  | getBox b =>
      refine (hsub b (List.mem_singleton_self _)).bind fun v _ => box.bind fun b _ s hs =>
        ⟨hs, ?_⟩
      show (s.read b).Equipped
      unfold Store.read
      cases hb : s.boxes[b.index]? with
      | none => exact Value.all_absent
      | some u => exact hs u (Array.mem_of_getElem? hb)
  | makeBox e =>
      refine (hsub e (List.mem_singleton_self _)).bind fun w hw s hs =>
        ⟨fun u hu => ?_, Value.all_box.mpr trivial⟩
      rcases Array.mem_push.mp hu with hu | rfl
      · exact hs u hu
      · exact hw
  | text e => exact (hsub e (List.mem_singleton_self _)).bind fun v _ => text
  | kind e => exact (hsub e (List.mem_singleton_self _)).bind fun v _ => .pure (Value.all_str _)
  | add a b =>
      exact (hsub a (List.mem_cons_self ..)).bind fun v _ => int.bind fun m _ =>
        (hsub b (by simp [Expr.children])).bind fun w _ => int.bind fun n _ =>
          .pure (Value.all_int _)
  | fail found => exact .fail nofun
  | lambda arity code =>
      exact .newFn (Body.all_script.mpr ⟨henv, he.child (List.mem_singleton_self _)⟩)
  | again => exact .newFn hself

end Calls

theorem substituteAll_equipped : ∀ {vs : List Value} (ds : List (Option Literal)),
    (∀ v ∈ vs, v.Equipped) → ∀ v ∈ Adapter.substituteAll vs ds, v.Equipped
  | [], _, _ => by simp [Adapter.substituteAll]
  | v :: vs, [], h => h
  | v :: vs, d :: ds, h => by
      intro u hu
      rw [Adapter.substituteAll] at hu
      rcases List.mem_cons.mp hu with rfl | hu
      · have first := h v (List.mem_cons_self ..)
        cases d with
        | none => exact first
        | some lit =>
            unfold Adapter.substitute
            dsimp only
            split
            · exact Value.all_ofLiteral lit
            · exact first
      · exact substituteAll_equipped ds (fun w hw => h w (List.mem_cons_of_mem _ hw)) u hu

/-- Calling functions that are equipped keeps everything so, and misses no body. By induction on
the depth, of invoking a function and evaluating its script at once. -/
theorem calls_safe : ∀ depth : Nat,
    (∀ (f : Closure) (args : List Value), f.Equipped → (∀ v ∈ args, v.Equipped) →
      Safe Marshal.Equipped Value.Equipped (invokeWithin depth f args)) ∧
    ∀ (frame : Frame) (e : Expr), (∀ v ∈ frame.env, v.Equipped) → frame.self.Equipped →
      e.All Atom.Equipped → Safe Marshal.Equipped Value.Equipped (evalWithin depth frame e)
  | 0 => ⟨fun _ _ _ _ => by unfold invokeWithin; exact .halted,
      fun _ _ _ _ _ => by unfold evalWithin; exact .halted⟩
  | depth + 1 => by
      obtain ⟨hinvoke, heval⟩ := calls_safe depth
      refine ⟨fun f args hf hargs => ?_, fun frame e henv hself he => ?_⟩
      · unfold invokeWithin
        split
        · obtain ⟨token, arity, body⟩ := f
          cases body with
          | script captured code =>
              obtain ⟨hcaptured, hcode⟩ := Body.all_script.mp hf
              refine heval _ _ (fun v hv => ?_) hf hcode
              rcases List.mem_append.mp hv with hv | hv
              · exact hcaptured v hv
              · exact hargs v hv
          | adapt adapter callee =>
              refine (Safe.ofExcept (P := fun vs => ∀ v ∈ vs, v.Equipped) (fun vs hvs => ?_)
                fun ty => ?_).bind fun vs hvs =>
                  callFully_safe hinvoke (Body.all_adapt.mp hf) hvs
              · unfold Adapter.complete at hvs
                split at hvs
                · cases hvs; exact substituteAll_equipped _ hargs
                · cases hvs
              · unfold Adapter.complete
                split <;> nofun
          | convert table steps ret callee =>
              obtain ⟨⟨hsteps, hret⟩, hcallee⟩ := Body.all_convert.mp hf
              refine (Safe.mapM (R := Value.Equipped) fun e he => ?_).bind fun vs hvs =>
                (callFully_safe hinvoke hcallee hvs).bind fun r hr =>
                  (guard_covers fun _ h => h).applyWithin depth hret hr
              obtain ⟨harg, hstep⟩ := List.of_mem_zip he
              exact (guard_covers fun _ h => h).applyWithin depth (hsteps _ hstep) (hargs _ harg)
        · exact .fail nofun
      · unfold evalWithin
        exact evalLayer_safe hinvoke henv hself he fun e' he' =>
          heval frame e' henv hself (he.child he')

/-- What a sequence failed with, one of its parts failed with. -/
theorem bind_eq_error {α β : Type} {x : Run α} {f : α → Run β} {s s' : Store} {h : Halt}
    (hrun : (x >>= f) s = (.error h, s')) :
    x s = (.error h, s') ∨ ∃ v s₁, x s = (.ok v, s₁) ∧ f v s₁ = (.error h, s') := by
  rw [bind_run] at hrun
  split at hrun
  · next v s₁ hx => exact .inr ⟨v, s₁, hx, hrun⟩
  · next e s₁ hx => cases hrun; exact .inl hx

/-- A wrapper that is equipped misses no body of its own, whatever it is called with: a call of it
that comes to a body that is missing does so in the wrapped function. -/
theorem wrapper_blameless {args : List Step} {ret : Step} {callee : Closure}
    {token n depth : Nat} {vs : List Value} {st st' : Store} {h : Halt}
    (equipped : (Atom.wrapper table args ret).Equipped)
    (hrun : invokeWithin (depth + 1) ⟨token, n, .convert table args ret callee⟩ vs st =
      (.error h, st')) (hlacks : Lacks h) :
    ∃ converted st₁, callFully (invokeWithin depth) callee converted st₁ = (.error h, st') := by
  have covered {s : Step} (hs : table.Covers s) (v : Value) :
      Safe (fun _ => True) (fun _ => True) (applyWithin table depth s v) :=
    (guard_lookups.applyWithin depth hs fun _ _ => trivial).imp fun _ _ => trivial
  have safe {x : Run Value} {st : Store} (hx : Safe (fun _ => True) (fun _ => True) x)
      (hrun : x st = (.error h, st')) : False := by
    have hr := (hx st trivial).2
    rw [hrun] at hr
    exact hr hlacks
  unfold invokeWithin at hrun
  split at hrun
  · rcases bind_eq_error hrun with hargs | ⟨converted, st₁, -, hrun⟩
    · have each : ∀ e ∈ vs.zip args, Safe (fun _ => True) (fun _ => True)
          (applyWithin table depth e.2 e.1) :=
        fun e he => covered (equipped.1 _ (List.of_mem_zip he).2) e.1
      have all := Safe.mapM each st trivial
      rw [hargs] at all
      exact absurd hlacks all.2
    · rcases bind_eq_error hrun with hcall | ⟨r, st₂, -, hret⟩
      · exact ⟨converted, st₁, hcall⟩
      · exact (safe (covered equipped.2 r) hret).elim
  · cases hrun
    exact absurd hlacks (not_lacks nofun)

end Run

end Marshal
