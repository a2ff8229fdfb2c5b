import Marshal.Run.Apply
import Marshal.Value.Text

/-!
# Calling functions

A function is invoked with exactly as many arguments as it takes. A call with
more arguments feeds the result, which has to be a function again, with what
remains; a call that would leave a function short of arguments is refused.

`feed` and all that is built on it take the way to invoke one function as an
argument, so what they say of the arguments holds whatever functions do.
-/

namespace Marshal

namespace Adapter

/-- Puts the default for an absent argument, where there is one. -/
def substitute (v : Value) : Option Literal → Value
  | some lit => if v.isAbsent then .ofLiteral lit else v
  | none => v

/-- Arguments with their defaults; those beyond the defaults stay. -/
def substituteAll : List Value → List (Option Literal) → List Value
  | v :: vs, d :: ds => substitute v d :: substituteAll vs ds
  | vs, _ => vs

/-- Checks the number of arguments and fills in the defaults. -/
def complete (a : Adapter) (args : List Value) : Except Fault (List Value) :=
  if args.length = a.arity then .ok (substituteAll args a.defaults)
  else .error (.arity a.arity args.length)

end Adapter

namespace Run

/-- A way to invoke one function with all its arguments. -/
abbrev Invoke := Closure → List Value → Run Value

/-- Feeds `args`, which are what remains of `total` arguments, to a function
and then to its results. A function without parameters consumes nothing, so
arguments must not remain for it. -/
def feed (invoke : Invoke) (total : Nat) : Nat → Closure → List Value → Run Value
  | budget, callee, args =>
    if args.length < callee.arity ∨ (callee.arity = 0 ∧ args ≠ []) then
      fail (.arity (total - args.length + callee.arity) total)
    else do
      let result ← invoke callee (args.take callee.arity)
      match args.drop callee.arity, budget with
      | [], _ => pure result
      | _ :: _, 0 => throw .outOfFuel
      | rest, budget + 1 =>
        match result with
        | .fn next => feed invoke total budget next rest
        | v => fail (.shape "function for the remaining arguments" v.kind)

/-- Applies a function to arguments, as many at a time as it takes. Each turn
but the last consumes one, so there are never more turns than arguments. -/
def callFully (invoke : Invoke) (callee : Closure) (args : List Value) : Run Value :=
  feed invoke args.length args.length callee args

def expectBox : Value → Run BoxId
  | .box b => pure b
  | v => fail (.shape "box" v.kind)

def expectInt : Value → Run Int64
  | .int n => pure n
  | v => fail (.shape "int" v.kind)

/-- What a script sees: the captured values and the arguments, and the function
it belongs to. -/
structure Frame where
  env : List Value
  self : Closure

/-- One layer of a script; `sub` evaluates the parts. -/
def evalLayer (invoke : Invoke) (sub : Expr → Run Value) (frame : Frame) :
    Expr → Run Value
  | .arg i => pure ((frame.env[i]?).getD .absent)
  | .lit v => pure v
  | .array es => do pure (.array (← es.mapM sub))
  | .object es => do pure (.object (← es.mapM fun (k, e) => do pure (k, ← sub e)))
  | .block tag es => do pure (.block tag (← es.mapM sub))
  | .get e key => do pure (((← sub e).get? key).getD .absent)
  | .item e i => do pure (((← sub e).item? i).getD .absent)
  | .invoke f es => do
    let f ← expectFn (← sub f)
    invoke f (← es.mapM sub)
  | .curried f es => do
    let f ← expectFn (← sub f)
    callFully invoke f (← es.mapM sub)
  | .setBox b e => do
    let b ← expectBox (← sub b)
    write b (← sub e)
    pure .unit
  | .getBox b => do read (← expectBox (← sub b))
  | .makeBox e => do newBox (← sub e)
  | .text e => do
    let v ← sub e
    pure (.str (v.text (← get)))
  | .kind e => do pure (.str (← sub e).kind)
  | .add a b => do
    let m ← expectInt (← sub a)
    let n ← expectInt (← sub b)
    pure (.int (m + n))
  | .fail found => fail (.shape "success" found)
  | .lambda arity code => newFn arity (.script frame.env code)
  | .again => newFn frame.self.arity frame.self.body

mutual

/-- Invokes a function, to a bounded depth. -/
def invokeWithin : Nat → Closure → List Value → Run Value
  | 0, _, _ => throw .outOfFuel
  | depth + 1, f, args =>
    if args.length = f.arity then
      match f.body with
      | .script captured code => evalWithin depth ⟨captured ++ args, f⟩ code
      | .adapt adapter callee => do
        callFully (invokeWithin depth) callee (← ofExcept (adapter.complete args))
      | .convert table steps ret callee => do
        let converted ← (args.zip steps).mapM fun (arg, step) =>
          applyWithin table depth step arg
        let result ← callFully (invokeWithin depth) callee converted
        applyWithin table depth ret result
    else
      fail (.arity f.arity args.length)

/-- Evaluates a script, to a bounded depth. -/
def evalWithin : Nat → Frame → Expr → Run Value
  | 0, _, _ => throw .outOfFuel
  | depth + 1, frame, e => evalLayer (invokeWithin depth) (evalWithin depth frame) frame e

end

/-! ## At any depth -/

/-- How deep runs may nest in practice. -/
def depthLimit : Nat := 10000000

def apply (table : FixTable) (step : Step) (v : Value) : Run Value :=
  applyWithin table depthLimit step v

def convert (table : FixTable) (c : Converter) (d : Direction) (v : Value) : Run Value :=
  convertWithin table depthLimit c d v

def invoke (f : Closure) (args : List Value) : Run Value := invokeWithin depthLimit f args

def call (f : Closure) (args : List Value) : Run Value := callFully invoke f args

end Run

end Marshal
