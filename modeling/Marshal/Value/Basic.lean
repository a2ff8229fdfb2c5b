import Marshal.Converter

/-!
# Values and functions

One model of values serves both runtimes; they differ in which carriers they
use. A cell is a handle into a store, so that two handles can be the same cell.

A function has a fixed arity and a body. A body is a script, written in a small
expression language over captured values and arguments, or a wrapper that a
conversion put around another function. Functions carry a token, drawn when
they are made, and are the same function exactly when their tokens are equal.
-/

namespace Marshal

/-- A handle to a mutable cell of a store. -/
structure BoxId where
  index : Nat
  deriving DecidableEq, Repr

mutual

inductive Value where
  /-- Nothing there: a key left out, an argument not given. -/
  | absent
  | null
  | unit
  | bool (b : Bool)
  | int (n : Int64)
  | float (x : Binary64)
  | str (s : String)
  | array (items : List Value)
  /-- Entries in order; their order carries no meaning. -/
  | object (entries : List (String × Value))
  /-- A tagged tuple of fields. -/
  | block (tag : UInt32) (fields : List Value)
  | box (b : BoxId)
  | fn (f : Closure)

structure Closure where
  token : Nat
  arity : Nat
  body : Body

inductive Body where
  /-- Evaluates an expression over the captured values and the arguments. -/
  | script (captured : List Value) (code : Expr)
  /-- Fills in defaults and applies another function. -/
  | adapt (adapter : Adapter) (callee : Closure)
  /-- Converts the arguments, applies another function, converts the result;
  recursive types are looked up in the table. -/
  | convert (table : FixTable) (args : List Step) (ret : Step) (callee : Closure)

/-- Scripts. Parts are evaluated from left to right and the first fault wins. -/
inductive Expr where
  /-- A captured value or an argument; absent beyond them. -/
  | arg (index : Nat)
  | lit (v : Value)
  | array (items : List Expr)
  | object (entries : List (String × Expr))
  | block (tag : UInt32) (fields : List Expr)
  /-- The value under a key, else absent. -/
  | get (e : Expr) (key : String)
  /-- An element of an array or block, else absent. -/
  | item (e : Expr) (index : Nat)
  /-- A call with exactly the arguments of one function. -/
  | invoke (f : Expr) (args : List Expr)
  /-- A call that feeds results with the remaining arguments. -/
  | curried (f : Expr) (args : List Expr)
  | setBox (b e : Expr)
  | getBox (b : Expr)
  | makeBox (e : Expr)
  /-- The value as text. -/
  | text (e : Expr)
  /-- What kind of value it is, as text. -/
  | kind (e : Expr)
  /-- A sum of integers that wraps around. -/
  | add (a b : Expr)
  | fail (found : String)
  /-- A function that captures all that the script sees. -/
  | lambda (arity : Nat) (code : Expr)
  /-- A new function like the one that is running. -/
  | again

end

instance : Inhabited Value := ⟨.absent⟩

namespace Value

def isAbsent : Value → Bool
  | .absent => true
  | _ => false

def isNull : Value → Bool
  | .null => true
  | _ => false

/-- What a value is called in messages. -/
def kind : Value → String
  | .absent => "absent"
  | .null => "null"
  | .unit => "unit"
  | .bool _ => "bool"
  | .int _ => "int"
  | .float _ => "float"
  | .str _ => "string"
  | .array _ => "array"
  | .object _ => "object"
  | .block _ _ => "block"
  | .box _ => "box"
  | .fn _ => "function"

def ofLiteral : Literal → Value
  | .unit => .unit
  | .bool b => .bool b
  | .int n => .int n
  | .float x => .float x
  | .string s => .str s

/-- The first present value under a key. -/
def findKey (key : String) : List (String × Value) → Option Value
  | [] => none
  | (k, v) :: rest => if k = key ∧ v.isAbsent = false then some v else findKey key rest

/-- The value under a key of an object; an absent one does not count. -/
def get? (v : Value) (key : String) : Option Value :=
  match v with
  | .object entries => findKey key entries
  | _ => none

/-- An element of an array or a field of a block. -/
def item? (v : Value) (index : Nat) : Option Value :=
  match v with
  | .array items | .block _ items => items[index]?
  | _ => none

end Value

/-- The cells, by handle, and the supply of tokens. -/
structure Store where
  boxes : Array Value
  supply : Nat

namespace Store

def empty : Store := ⟨#[], 0⟩

/-- The contents of a cell. -/
def read (s : Store) (b : BoxId) : Value := (s.boxes[b.index]?).getD .absent

def write (s : Store) (b : BoxId) (v : Value) : Store :=
  { s with boxes := s.boxes.setIfInBounds b.index v }

/-- A new cell. -/
def newBox (s : Store) (v : Value) : BoxId × Store :=
  (⟨s.boxes.size⟩, { s with boxes := s.boxes.push v })

/-- A new function. -/
def newClosure (s : Store) (arity : Nat) (body : Body) : Closure × Store :=
  (⟨s.supply, arity, body⟩, { s with supply := s.supply + 1 })

end Store

/-- Work on values: it may halt, and what it did to the store stays. -/
abbrev Run := ExceptT Halt (StateM Store)

namespace Run

variable {α : Type}

def fail (f : Fault) : Run α := throw (.fault f)

def ofExcept : Except Fault α → Run α
  | .ok v => pure v
  | .error f => fail f

def read (b : BoxId) : Run Value := do pure ((← get).read b)

def write (b : BoxId) (v : Value) : Run Unit := modify fun s => s.write b v

def newBox (v : Value) : Run Value := fun s =>
  let (b, s) := s.newBox v
  (.ok (.box b), s)

def newFn (arity : Nat) (body : Body) : Run Value := fun s =>
  let (f, s) := s.newClosure arity body
  (.ok (.fn f), s)

def expectFn : Value → Run Closure
  | .fn f => pure f
  | v => fail (.shape "function" v.kind)

end Run

end Marshal
