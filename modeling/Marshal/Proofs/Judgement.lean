import Mathlib.Data.Set.Insert
import Marshal.Proofs.Canonical

/-!
# Planning as a judgement

What the planner does, as rules: `Plans w rivals e job m out m'` says that a
planner which stands at `job` in the surroundings `e`, with `m` in memory, may
end with `out` and leave `m'`. It is planning over an arena that holds all
instances already, with contents for converters, and with everything left out
that planning does not depend on: stamps and the bound on the depth. Of the path
only what a fault tells is left, the way from the job to the place where it was met.

The surroundings are only handed down, so what the planner undoes on its way back
does not occur here. The uses of guesses are part of the outcome. What other
planners may do to the cache between two accesses is the relation `rivals`.
-/

namespace Marshal

open Converter

/-- A recursive type that is being planned, with what is guessed of it and the
number of lazily converted positions around the place where it was entered. -/
structure Open where
  ty : TyId
  guess : Assembly.Content
  depth : Nat

/-- What stands around the place where planning is. -/
structure Env where
  /-- The planner uses the shared cache. -/
  caching : Bool
  /-- The open types, innermost first. -/
  stack : List Open
  /-- How many enclosing positions are converted lazily. -/
  depth : Nat

namespace Env

def find? (e : Env) (ty : TyId) : Option Open := e.stack.find? fun o => o.ty = ty

/-- The types that are open. -/
def opened (e : Env) : Set TyId := {ty | (e.find? ty).isSome}

def enter (e : Env) (ty : TyId) (guess : Assembly.Content) : Env :=
  { e with stack := ⟨ty, guess, e.depth⟩ :: e.stack }

/-- At a part, which may be one that is converted lazily. -/
def inside (e : Env) (lazily : Bool) : Env :=
  { e with depth := if lazily then e.depth + 1 else e.depth }

variable {e : Env} {x y : TyId} {g : Assembly.Content} {o : Open}

@[simp] theorem inside_caching (l : Bool) : (e.inside l).caching = e.caching := rfl

@[simp] theorem inside_stack (l : Bool) : (e.inside l).stack = e.stack := rfl

@[simp] theorem inside_find? (l : Bool) : (e.inside l).find? x = e.find? x := rfl

@[simp] theorem inside_opened (l : Bool) : (e.inside l).opened = e.opened := rfl

@[simp] theorem enter_caching : (e.enter x g).caching = e.caching := rfl

@[simp] theorem enter_depth : (e.enter x g).depth = e.depth := rfl

@[simp] theorem enter_stack : (e.enter x g).stack = ⟨x, g, e.depth⟩ :: e.stack := rfl

@[simp] theorem enter_find?_self : (e.enter x g).find? x = some ⟨x, g, e.depth⟩ := by
  simp [find?]

theorem enter_find?_of_ne (h : y ≠ x) : (e.enter x g).find? y = e.find? y := by
  simp [find?, h.symm]

@[simp] theorem enter_opened : (e.enter x g).opened = insert x e.opened := by
  ext y
  by_cases h : y = x
  · subst h; simp [opened]
  · simp [opened, enter_find?_of_ne h, h]

theorem mem_opened : x ∈ e.opened ↔ ∃ o, e.find? x = some o := Option.isSome_iff_exists

theorem notMem_opened : x ∉ e.opened ↔ e.find? x = none := by
  rw [opened, Set.mem_ofPred_eq, Bool.not_eq_true, Option.isSome_eq_false_iff,
    Option.isNone_iff_eq_none]

theorem find?_ty (h : e.find? x = some o) : o.ty = x := by
  simpa using List.find?_some h

theorem find?_mem (h : e.find? x = some o) : o ∈ e.stack := List.mem_of_find?_eq_some h

end Env

/-! ## Memory -/

/-- Contents by id. -/
abbrev Contents := TyId → Option Assembly.Content

namespace Contents

/-- Puts an entry, in place of an older one. -/
def put (f : Contents) (ty : TyId) (c : Assembly.Content) : Contents :=
  fun u => if u = ty then some c else f u

/-- Puts an entry unless there is one. -/
def keep (f : Contents) (ty : TyId) (c : Assembly.Content) : Contents :=
  fun u => if u = ty then some ((f ty).getD c) else f u

/-- Entries are added, none is changed. -/
def Extends (f g : Contents) : Prop := ∀ u c, f u = some c → g u = some c

variable {f g h : Contents} {ty u : TyId} {c : Assembly.Content}

@[simp] theorem put_self : f.put ty c ty = some c := if_pos rfl

theorem put_of_ne (h : u ≠ ty) : f.put ty c u = f u := if_neg h

@[simp] theorem keep_self : f.keep ty c ty = some ((f ty).getD c) := if_pos rfl

theorem keep_of_ne (h : u ≠ ty) : f.keep ty c u = f u := if_neg h

theorem Extends.refl (f : Contents) : f.Extends f := fun _ _ h => h

theorem Extends.trans (h₁ : f.Extends g) (h₂ : g.Extends h) : f.Extends h :=
  fun u c hc => h₂ u c (h₁ u c hc)

theorem Extends.ne_none (h : f.Extends g) (hu : f u ≠ none) : g u ≠ none := by
  obtain ⟨c, hc⟩ := Option.ne_none_iff_exists'.mp hu
  rw [h u c hc]
  simp

theorem extends_keep : f.Extends (f.keep ty c) := by
  intro u d hu
  by_cases h : u = ty
  · subst h; simp [hu]
  · rw [keep_of_ne h, hu]

theorem extends_put (hf : f ty = none) : f.Extends (f.put ty c) := by
  intro u d hu
  by_cases h : u = ty
  · subst h; rw [hf] at hu; cases hu
  · rw [put_of_ne h, hu]

theorem put_ne_none (h : f u ≠ none) : f.put ty c u ≠ none := by
  by_cases hu : u = ty
  · subst hu; simp
  · rw [put_of_ne hu]; exact h

/-- Where one is led from some types by the targets of their entries. -/
def Leads (f : Contents) : TyId → TyId → Prop :=
  Relation.ReflTransGen fun t u => ∃ c, f t = some c ∧ u ∈ (bare c).targets

/-- The list holds exactly what is led to from `roots`. -/
def Needs (f : Contents) (roots tys : List TyId) : Prop :=
  ∀ t, t ∈ tys ↔ ∃ r ∈ roots, f.Leads r t

end Contents

/-- What the shared cache holds. -/
structure Stock where
  converters : Contents
  bodies : Contents

/-- What planning remembers. -/
structure Memory where
  settled : Contents
  bodies : Contents
  cache : Stock

namespace Memory

def remember (m : Memory) (ty : TyId) (c : Assembly.Content) : Memory :=
  { m with settled := m.settled.put ty c }

def setBody (m : Memory) (ty : TyId) (c : Assembly.Content) : Memory :=
  { m with bodies := m.bodies.put ty c }

/-- The memory with the cache as it is found later. -/
def found (m : Memory) (k : Stock) : Memory := { m with cache := k }

variable (m : Memory) (k : Stock) (ty : TyId) (c : Assembly.Content)

@[simp] theorem remember_settled : (m.remember ty c).settled = m.settled.put ty c := rfl

@[simp] theorem remember_bodies : (m.remember ty c).bodies = m.bodies := rfl

@[simp] theorem remember_cache : (m.remember ty c).cache = m.cache := rfl

@[simp] theorem setBody_settled : (m.setBody ty c).settled = m.settled := rfl

@[simp] theorem setBody_bodies : (m.setBody ty c).bodies = m.bodies.put ty c := rfl

@[simp] theorem setBody_cache : (m.setBody ty c).cache = m.cache := rfl

@[simp] theorem found_settled : (m.found k).settled = m.settled := rfl

@[simp] theorem found_bodies : (m.found k).bodies = m.bodies := rfl

@[simp] theorem found_cache : (m.found k).cache = k := rfl

end Memory

namespace World

/-! ## Accesses to the cache -/

section Accesses

variable (rivals : Stock → Stock → Prop)

/-- Bodies are taken over from the cache for the targets on the stack; `false` if
one is missing. -/
inductive Takes : Memory → List TyId → Memory → Bool → Prop
  | done {m : Memory} : Takes m [] m true
  | skip {m m' : Memory} {t : TyId} {stack : List TyId} {ok : Bool} :
      m.bodies t ≠ none → Takes m stack m' ok → Takes m (t :: stack) m' ok
  | take {m m' : Memory} {k : Stock} {t : TyId} {c : Assembly.Content} {stack : List TyId}
      {ok : Bool} : m.bodies t = none → rivals m.cache k → k.bodies t = some c →
      Takes ((m.found k).setBody t c) ((bare c).targets.reverse ++ stack) m' ok →
      Takes m (t :: stack) m' ok
  | missing {m : Memory} {k : Stock} {t : TyId} {stack : List TyId} : m.bodies t = none →
      rivals m.cache k → k.bodies t = none → Takes m (t :: stack) (m.found k) false

/-- The bodies of some types are offered, as far as they are known. -/
inductive Publishes (bodies : Contents) : Stock → List TyId → Stock → Prop
  | done {k : Stock} : Publishes bodies k [] k
  | skip {k k' : Stock} {t : TyId} {tys : List TyId} : bodies t = none →
      Publishes bodies k tys k' → Publishes bodies k (t :: tys) k'
  | offer {k k₁ k' : Stock} {t : TyId} {c : Assembly.Content} {tys : List TyId} :
      bodies t = some c → rivals k k₁ →
      Publishes bodies { k₁ with bodies := k₁.bodies.keep t c } tys k' →
      Publishes bodies k (t :: tys) k'

/-- The cache is asked for the converter of a type, if it is used at all, and has
none. -/
inductive Misses (e : Env) (m : Memory) (x : TyId) : Memory → Prop
  | alone : e.caching = false → Misses e m x m
  | shared {k : Stock} : e.caching = true → rivals m.cache k → k.converters x = none →
      Misses e m x (m.found k)

/-- A result is remembered, and shared. What the cache had before is kept. -/
inductive Settles (e : Env) (m : Memory) (x : TyId) (c : Assembly.Content) :
    Assembly.Content → Memory → Prop
  | alone : e.caching = false → Settles e m x c c (m.remember x c)
  | shared {tys : List TyId} {k k₁ : Stock} : e.caching = true →
      m.bodies.Needs (bare c).targets tys → Publishes rivals m.bodies m.cache tys k →
      rivals k k₁ → Settles e m x c ((k₁.converters x).getD c)
        ((m.remember x ((k₁.converters x).getD c)).found
          { k₁ with converters := k₁.converters.keep x c })

end Accesses

end World

/-! ## The rules -/

/-- Where a planner stands. -/
inductive Job where
  /-- At a type, which may be remembered. -/
  | visit (ty : TyId)
  /-- At a type that has to be planned. -/
  | layer (ty : TyId)
  /-- Before the parts of a type. -/
  | parts (ps : List Planner.Part)

/-- The types whose contents a job gives. -/
def Job.types : Job → List TyId
  | .visit ty | .layer ty => [ty]
  | .parts ps => ps.map Planner.Part.ty

/-- A fault, and the way to the place where it was met, outermost place first. -/
structure Failure where
  fault : Fault
  way : List Segment

namespace Failure

/-- A fault that is met where one stands. -/
def here (f : Fault) : Failure := ⟨f, []⟩

/-- The failure as it is seen from before these places. -/
def under (places : List Segment) (f : Failure) : Failure := ⟨f.fault, places ++ f.way⟩

def halt (f : Failure) : Halt := .fault f.fault

/-- The way to the fault, if there is one. -/
def wayOf {α : Type} : Except Failure α → List Segment
  | .ok _ => []
  | .error f => f.way

end Failure

/-- The contents with the open types whose guesses they hang on, or a failure. -/
abbrev Verdict := Except Failure (List Assembly.Content × Set TyId)

namespace World

open Planner

/-- The type is a reference. -/
def Refers (w : World) (x : TyId) : Prop :=
  ∃ t, w.arena.term? x = some t ∧ t.isReference = true

theorem Resolves.refers {w : World} {x : TyId} {r : Referent} (hr : w.Resolves x (.ok r)) :
    w.Refers x := by
  obtain ⟨t, ht⟩ := (Edge.node hr).term?
  exact ⟨t, ht, hr.isReference ht⟩

/-- Planning, rule by rule. -/
inductive Plans (w : World) (rivals : Stock → Stock → Prop) :
    Env → Job → Memory → Verdict → Memory → Prop
  /-- The type was settled before. -/
  | remembered {e : Env} {m : Memory} {x : TyId} {c : Assembly.Content} :
      m.settled x = some c → Plans w rivals e (.visit x) m (.ok ([c], ∅)) m
  /-- The cache has the type, and all bodies that it needs. -/
  | adopted {e : Env} {m m' : Memory} {k : Stock} {x : TyId} {c : Assembly.Content} :
      m.settled x = none → e.caching = true → rivals m.cache k → k.converters x = some c →
      Takes rivals (m.found k) (bare c).targets.reverse m' true →
      Plans w rivals e (.visit x) m (.ok ([c], ∅)) (m'.remember x c)
  /-- The cache has the type, but not all bodies. -/
  | bodyless {e : Env} {m m' : Memory} {k : Stock} {x : TyId} {c : Assembly.Content}
      {shown : String} :
      m.settled x = none → e.caching = true → rivals m.cache k → k.converters x = some c →
      Takes rivals (m.found k) (bare c).targets.reverse m' false →
      Plans w rivals e (.visit x) m (.error (.here (.unsupported shown bodyMissing))) m'
  /-- The type is planned, and hangs on no open guess. -/
  | settles {e : Env} {m m₁ m₂ m' : Memory} {x : TyId} {c kept : Assembly.Content} :
      m.settled x = none → Misses rivals e m x m₁ →
      Plans w rivals e (.layer x) m₁ (.ok ([c], ∅)) m₂ → Settles rivals e m₂ x c kept m' →
      Plans w rivals e (.visit x) m (.ok ([kept], ∅)) m'
  /-- The type is planned, and hangs on a guess. -/
  | hangs {e : Env} {m m₁ m' : Memory} {x : TyId} {c : Assembly.Content} {U : Set TyId} :
      m.settled x = none → Misses rivals e m x m₁ → U.Nonempty →
      Plans w rivals e (.layer x) m₁ (.ok ([c], U)) m' →
      Plans w rivals e (.visit x) m (.ok ([c], U)) m'
  | fails {e : Env} {m m₁ m' : Memory} {x : TyId} {f : Failure} :
      m.settled x = none → Misses rivals e m x m₁ →
      Plans w rivals e (.layer x) m₁ (.error f) m' → Plans w rivals e (.visit x) m (.error f) m'
  | leaf {e : Env} {m : Memory} {x : TyId} {t : Term} :
      w.arena.term? x = some t → t.isLeaf = true → Plans w rivals e (.layer x) m (.ok ([none], ∅)) m
  | refused {e : Env} {m : Memory} {x : TyId} {t : Term} {l : Layer} {f : Fault} :
      w.arena.term? x = some t → w.layer? x t = some l →
      w.Answers l.before (.error (.fault f)) → Plans w rivals e (.layer x) m (.error (.here f)) m
  | partsFail {e : Env} {m m' : Memory} {x : TyId} {t : Term} {l : Layer} {f : Failure} :
      w.arena.term? x = some t → w.layer? x t = some l → w.Answers l.before (.ok ()) →
      Plans w rivals e (.parts l.parts) m (.error f) m' →
      Plans w rivals e (.layer x) m (.error f) m'
  | unassembled {e : Env} {m m' : Memory} {x : TyId} {t : Term} {l : Layer} {f : Fault}
      {cs : List Assembly.Content} {U : Set TyId} :
      w.arena.term? x = some t → w.layer? x t = some l → w.Answers l.before (.ok ()) →
      Plans w rivals e (.parts l.parts) m (.ok (cs, U)) m' →
      w.Assembles l cs (.error (.fault f)) → Plans w rivals e (.layer x) m (.error (.here f)) m'
  | assembled {e : Env} {m m' : Memory} {x : TyId} {t : Term} {l : Layer}
      {cs : List Assembly.Content} {c : Assembly.Content} {U : Set TyId} :
      w.arena.term? x = some t → w.layer? x t = some l → w.Answers l.before (.ok ()) →
      Plans w rivals e (.parts l.parts) m (.ok (cs, U)) m' → w.Assembles l cs (.ok c) →
      Plans w rivals e (.layer x) m (.ok ([c], U)) m'
  /-- The type is open and was entered at the same depth. -/
  | circles {e : Env} {m : Memory} {x : TyId} {o : Open} :
      w.Refers x → e.find? x = some o → o.depth = e.depth →
      Plans w rivals e (.layer x) m (.error (.here (.cyclic (w.arena.text x) containsItself))) m
  | guessed {e : Env} {m : Memory} {x : TyId} {o : Open} :
      w.Refers x → e.find? x = some o → o.depth ≠ e.depth →
      Plans w rivals e (.layer x) m (.ok ([o.guess], {x})) m
  | unresolved {e : Env} {m : Memory} {x : TyId} {f : Fault} :
      w.Refers x → e.find? x = none → w.Resolves x (.error f) →
      Plans w rivals e (.layer x) m (.error (.here f)) m
  /-- The reference does not lead back to itself, so its node is planned in place. -/
  | inline {e : Env} {m m' : Memory} {x : TyId} {r : Referent} {cs : List Assembly.Content}
      {U : Set TyId} : e.find? x = none → w.Resolves x (.ok r) → r.recursive = false →
      Plans w rivals e (.visit r.node) m (.ok (cs, U)) m' →
      Plans w rivals e (.layer x) m (.ok (cs, U)) m'
  | inlineFails {e : Env} {m m' : Memory} {x : TyId} {r : Referent} {f : Failure} :
      e.find? x = none → w.Resolves x (.ok r) → r.recursive = false →
      Plans w rivals e (.visit r.node) m (.error f) m' →
      Plans w rivals e (.layer x) m (.error (f.under [.expansion (w.arena.text x)])) m'
  | grows {e : Env} {m : Memory} {x : TyId} {r : Referent} :
      e.find? x = none → w.Resolves x (.ok r) → r.recursive = true → r.regular = false →
      Plans w rivals e (.layer x) m (.error (.here (.cyclic (w.arena.text x) growingArguments))) m
  | firstFails {e : Env} {m m' : Memory} {x : TyId} {r : Referent} {f : Failure} :
      e.find? x = none → w.Resolves x (.ok r) → r.recursive = true → r.regular = true →
      Plans w rivals (e.enter x none) (.visit r.node) m (.error f) m' →
      Plans w rivals e (.layer x) m (.error (f.under [.expansion (w.arena.text x)])) m'
  /-- With the guess that nothing has to be done, nothing has to be done. -/
  | idle {e : Env} {m m' : Memory} {x : TyId} {r : Referent} {U : Set TyId} :
      e.find? x = none → w.Resolves x (.ok r) → r.recursive = true → r.regular = true →
      Plans w rivals (e.enter x none) (.visit r.node) m (.ok ([none], U)) m' →
      Plans w rivals e (.layer x) m (.ok ([none], U \ {x})) m'
  | secondFails {e : Env} {m m₁ m' : Memory} {x : TyId} {r : Referent} {c : Assembly.Content}
      {U : Set TyId} {f : Failure} :
      e.find? x = none → w.Resolves x (.ok r) → r.recursive = true → r.regular = true →
      Plans w rivals (e.enter x none) (.visit r.node) m (.ok ([c], U)) m₁ → c ≠ none →
      Plans w rivals (e.enter x (deferring x)) (.visit r.node) m₁ (.error f) m' →
      Plans w rivals e (.layer x) m (.error (f.under [.expansion (w.arena.text x)])) m'
  /-- The first guess was wrong. The second turn gives the body. -/
  | defers {e : Env} {m m₁ m₂ : Memory} {x : TyId} {r : Referent} {c d : Assembly.Content}
      {U V : Set TyId} :
      e.find? x = none → w.Resolves x (.ok r) → r.recursive = true → r.regular = true →
      Plans w rivals (e.enter x none) (.visit r.node) m (.ok ([c], U)) m₁ → c ≠ none →
      Plans w rivals (e.enter x (deferring x)) (.visit r.node) m₁ (.ok ([d], V)) m₂ →
      Plans w rivals e (.layer x) m (.ok ([deferring x], (U ∪ V) \ {x})) (m₂.setBody x d)
  | noParts {e : Env} {m : Memory} : Plans w rivals e (.parts []) m (.ok ([], ∅)) m
  | partRefused {e : Env} {m : Memory} {p : Part} {ps : List Part} {f : Fault} :
      w.Admits p (.error (.fault f)) →
      Plans w rivals e (.parts (p :: ps)) m (.error ((Failure.here f).under p.place.toList)) m
  | partFails {e : Env} {m m' : Memory} {p : Part} {ps : List Part} {f : Failure} :
      w.Admits p (.ok ()) → Plans w rivals (e.inside p.lazy) (.visit p.ty) m (.error f) m' →
      Plans w rivals e (.parts (p :: ps)) m (.error (f.under p.place.toList)) m'
  | restFails {e : Env} {m m₁ m' : Memory} {p : Part} {ps : List Part} {c : Assembly.Content}
      {U : Set TyId} {f : Failure} :
      w.Admits p (.ok ()) → Plans w rivals (e.inside p.lazy) (.visit p.ty) m (.ok ([c], U)) m₁ →
      Plans w rivals e (.parts ps) m₁ (.error f) m' →
      Plans w rivals e (.parts (p :: ps)) m (.error f) m'
  | someParts {e : Env} {m m₁ m' : Memory} {p : Part} {ps : List Part} {c : Assembly.Content}
      {cs : List Assembly.Content} {U V : Set TyId} :
      w.Admits p (.ok ()) → Plans w rivals (e.inside p.lazy) (.visit p.ty) m (.ok ([c], U)) m₁ →
      Plans w rivals e (.parts ps) m₁ (.ok (cs, V)) m' →
      Plans w rivals e (.parts (p :: ps)) m (.ok (c :: cs, U ∪ V)) m'

end World

end Marshal
