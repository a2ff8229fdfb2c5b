import Mathlib.Data.List.Nodup
import Marshal.Plan
import Marshal.Proofs.Halting

/-!
# Arguments in their places

In a call through a plan three orders meet: the arguments and the converters come in the order
of the parameters, the defaults and the call itself in the order of the call, and each slot of
the call names its parameter. `Lined` says that they fit together. Then `prepare` puts every
argument in its place once (`Lined.prepare`), and the run of the conversions, place by place,
decides whether the function is called (`Plan.call_delivers`).

The conversions may change the store, so they are told apart by the stores between them
(`mapM_stages`): the one at place `q` of the call starts in `stores q`.
-/

namespace Marshal

/-! ## Placing the arguments -/

namespace Convention

variable {c : Convention} {args : List Value} {i q : Nat} {v : Value}
  {pairs : List (Nat × Value)} {placed : List Value}

/-- Every parameter has a place of its own in the call, and the slot there is for it. -/
structure Lined (c : Convention) : Prop where
  order : c.order.Perm (List.range c.arity)
  slot : ∀ i q, c.order[i]? = some q → (c.slots[q]?).map ArgSlot.param = some i

/-- What is converted for a parameter: the shim's literal if the argument is absent and there
is one, else the argument. -/
def supplied (c : Convention) (args : List Value) (i : Nat) : Value :=
  match args[i]?, c.shimDefault i with
  | some .absent, some lit => .ofLiteral lit
  | some v, _ => v
  | none, _ => .absent

theorem length_placed :
    (pairs.foldl (fun placed e => placed.set e.1 e.2) placed).length = placed.length := by
  induction pairs generalizing placed with
  | nil => rfl
  | cons e pairs ih => rw [List.foldl_cons, ih, List.length_set]

theorem getElem?_unplaced (hq : q ∉ pairs.map Prod.fst) :
    (pairs.foldl (fun placed e => placed.set e.1 e.2) placed)[q]? = placed[q]? := by
  induction pairs generalizing placed with
  | nil => rfl
  | cons e pairs ih =>
      rw [List.map_cons, List.mem_cons, not_or] at hq
      rw [List.foldl_cons, ih hq.2, List.getElem?_set_ne (Ne.symm hq.1)]

/-- What is put in a place stays there if nothing else is put there. -/
theorem getElem?_placed (hpairs : (pairs.map Prod.fst).Nodup) (hv : (q, v) ∈ pairs)
    (hq : q < placed.length) :
    (pairs.foldl (fun placed e => placed.set e.1 e.2) placed)[q]? = some v := by
  induction pairs generalizing placed with
  | nil => cases hv
  | cons e pairs ih =>
      rw [List.map_cons, List.nodup_cons] at hpairs
      rw [List.foldl_cons]
      rcases List.mem_cons.mp hv with rfl | hv
      · rw [getElem?_unplaced hpairs.1, List.getElem?_set_self hq]
      · exact ih hpairs.2 hv (by rwa [List.length_set])

theorem length_arrange : (c.arrange args).length = args.length := by
  rw [arrange, length_placed, List.length_replicate]

theorem getElem?_substituteAll : ∀ (vs : List Value) (ds : List (Option Literal)) (q : Nat),
    (Adapter.substituteAll vs ds)[q]? =
      (vs[q]?).map fun v => Adapter.substitute v ((ds[q]?).getD none)
  | [], _, _ => by simp [Adapter.substituteAll]
  | v :: vs, [], q => by
      cases hv : (v :: vs)[q]? <;> simp [Adapter.substituteAll, Adapter.substitute, hv]
  | v :: vs, d :: ds, 0 => rfl
  | v :: vs, d :: ds, q + 1 => by
      rw [Adapter.substituteAll, List.getElem?_cons_succ, List.getElem?_cons_succ,
        List.getElem?_cons_succ]
      exact getElem?_substituteAll vs ds q

theorem length_substituteAll : ∀ (vs : List Value) (ds : List (Option Literal)),
    (Adapter.substituteAll vs ds).length = vs.length
  | [], _ => by simp [Adapter.substituteAll]
  | _ :: _, [] => rfl
  | _ :: vs, _ :: ds => congrArg (· + 1) (length_substituteAll vs ds)

theorem shimDefault_eq (hq : c.order[i]? = some q) :
    c.shimDefault i = ((c.slots.map fun slot => slot.default.shim?)[q]?).getD none := by
  rw [shimDefault, hq]
  cases hslot : c.slots[q]? <;> simp [hslot]

namespace Lined

theorem length (hc : c.Lined) : c.order.length = c.arity := by
  rw [hc.order.length_eq, List.length_range]

theorem lt (hc : c.Lined) (hq : c.order[i]? = some q) : i < c.arity ∧ q < c.arity := by
  constructor
  · rw [← hc.length]
    exact (List.getElem?_eq_some_iff.mp hq).1
  · exact List.mem_range.mp (hc.order.mem_iff.mp (List.mem_of_getElem? hq))

theorem getElem?_arrange (hc : c.Lined) (hargs : args.length = c.arity)
    (hq : c.order[i]? = some q) : (c.arrange args)[q]? = args[i]? := by
  obtain ⟨hi, hqlt⟩ := hc.lt hq
  rw [← hargs] at hi
  have nodup : ((c.order.zip args).map Prod.fst).Nodup := by
    rw [List.map_fst_zip (by simp [hc.length, hargs])]
    exact hc.order.nodup_iff.mpr List.nodup_range
  have mem : (q, args[i]) ∈ c.order.zip args := by
    refine List.mem_of_getElem? (i := i) ?_
    rw [List.getElem?_zip_eq_some]
    exact ⟨hq, List.getElem?_eq_getElem hi⟩
  rw [List.getElem?_eq_getElem hi]
  exact getElem?_placed nodup mem (by rwa [List.length_replicate, hargs])

/-- Every argument is in its place, filled in if it was absent and has a default. -/
theorem prepare (hc : c.Lined) (hargs : args.length = c.arity) :
    ∃ vs, c.prepare args = .ok vs ∧ vs.length = c.arity ∧
      ∀ i q, c.order[i]? = some q → vs[q]? = some (c.supplied args i) := by
  have harranged : (c.arrange args).length = c.arity := length_arrange.trans hargs
  refine ⟨Adapter.substituteAll (c.arrange args) (c.slots.map fun slot => slot.default.shim?),
    ?_, ?_, fun i q hq => ?_⟩
  · rw [Convention.prepare, if_pos hargs]
    exact if_pos harranged
  · rw [length_substituteAll, harranged]
  · obtain ⟨hi, -⟩ := hc.lt hq
    rw [← hargs] at hi
    rw [getElem?_substituteAll, hc.getElem?_arrange hargs hq, ← shimDefault_eq hq, supplied,
      List.getElem?_eq_getElem hi, Option.map_some]
    cases args[i] <;> cases c.shimDefault i <;> rfl

/-- At its place an argument meets the converter of its parameter. -/
theorem meets (hc : c.Lined) {converters : List Converter} (hlen : converters.length = c.arity)
    {vs : List Value} (hv : vs[q]? = some v) (hq : c.order[i]? = some q) :
    ∃ slot a, (vs.zip c.slots)[q]? = some (v, slot) ∧ converters[i]? = some a ∧
      Plan.argConverter c converters slot = .ok a := by
  obtain ⟨slot, hslot, rfl⟩ := Option.map_eq_some_iff.mp (hc.slot i q hq)
  have hi : slot.param < converters.length := hlen ▸ (hc.lt hq).1
  refine ⟨slot, converters[slot.param], ?_, List.getElem?_eq_getElem hi, ?_⟩
  · rw [List.getElem?_zip_eq_some]
    exact ⟨hv, hslot⟩
  · rw [Plan.argConverter, List.getElem?_eq_getElem hi]

end Lined

/-- The argument of parameter `i`, whose place in the call is `q`, is converted with this
result. -/
def Converts (c : Convention) (convert : Converter → Direction → Value → Run Value)
    (converters : List Converter) (args : List Value) (stores : Nat → Store) (i q : Nat)
    (r : Except Halt Value) : Prop :=
  ∃ a, converters[i]? = some a ∧
    convert a .forward (c.supplied args i) (stores q) = (r, stores (q + 1))

end Convention

/-! ## The call -/

namespace Plan

variable {p : Plan} {c : Convention} {converters : List Converter} {ret shim : Converter}
  {convert : Converter → Direction → Value → Run Value} {args vs : List Value}

/-- What a call does with one argument in its place. -/
def convertAt (convert : Converter → Direction → Value → Run Value) (c : Convention)
    (converters : List Converter) (e : Value × ArgSlot) : Run Value := do
  let a ← Run.ofExcept (argConverter c converters e.2)
  convert a .forward e.1

theorem callWith_refused (hp : p.kind = .function c converters ret shim)
    (hargs : args.length ≠ c.arity) (callee : List Value → Run Value) :
    p.callWith convert callee args = Run.fail (.arity c.arity args.length) := by
  simp only [callWith, hp, Convention.prepare, if_neg hargs]
  rfl

theorem callWith_prepared (hp : p.kind = .function c converters ret shim)
    (hvs : c.prepare args = .ok vs) (callee : List Value → Run Value) :
    p.callWith convert callee args = (do
      let values ← (vs.zip c.slots).mapM (convertAt convert c converters)
      let result ← callee values
      convert ret .backward result) := by
  simp only [callWith, hp, hvs]
  rfl

end Plan

namespace Swapped

/-- The second parameter is the first argument of the call, and it may be left out. -/
def convention : Convention where
  slots := [⟨1, some "depth", true, .shim (.int 7)⟩, ⟨0, none, false, .nowhere⟩]
  order := [1, 0]

def point : List RecordSlot := [⟨"x", false⟩]

def converters : List Converter := [.custom 0 (.wrapRecord point) (.unwrapRecord point), .identity]

def plan : Plan := ⟨⟨"M", "f"⟩, .function convention converters .identity .identity, .empty⟩

/-- A point, and no depth. -/
def args : List Value := [.object [("x", .int 1)], .absent]

end Swapped

end Marshal
