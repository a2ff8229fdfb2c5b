import Marshal.Proofs.Needed

/-!
# Courses of planning

What the judgement sees of the state of planning: the memory without stamps, and
the surroundings. A `Course` is what a stretch of work has done to a state: the
arena has grown, the surroundings and the path are the same again, the log of uses is
longer by the uses of this stretch, and if it failed, the way to the fault is noted.
Courses are put one after the other and enclosed like the work that they describe.

The schedule of other planners' offers is tied to the judgement by a condition `I`
on the cache, which every access keeps and under which every arrival is one that
`rivals` allows (`Heeds`).
-/

namespace Marshal

open Converter Planner PlanM

/-! ## What the judgement sees of a state -/

def Cache.stock (k : Cache) : Stock where
  converters u := (k.converters.lookup u).map content
  bodies u := (k.bodies.lookup u).map content

def PlanState.memory (s : PlanState) : Memory where
  settled u := (s.planner.settled.lookup u).map content
  bodies := s.planner.fixpoints.contents
  cache := s.shared.cache.stock

/-- The planner stands in these surroundings. -/
structure Env.Of (e : Env) (p : Planner) : Prop where
  caching : p.caching = e.caching
  pending : p.pending = e.stack.map fun o => ⟨o.ty, o.depth⟩
  guesses : ∀ u, (p.guess? u).map content = (e.find? u).map Open.guess
  depth : p.lazyDepth = e.depth

namespace Env.Of

variable {e : Env} {p : Planner} {x u : TyId} {g : Assembly.Content} {c : Converter}

theorem isSome_guess? (h : e.Of p) : (p.guess? u).isSome = true ↔ u ∈ e.opened := by
  have := congrArg Option.isSome (h.guesses u)
  rw [Option.isSome_map, Option.isSome_map] at this
  rw [this]
  rfl

theorem enteredAt (h : e.Of p) : p.enteredAt u = (e.find? u).map Open.depth := by
  rw [Planner.enteredAt, h.pending, Env.find?, List.find?_map, Option.map_map]
  rfl

theorem inside (h : e.Of p) : (e.inside true).Of { p with lazyDepth := p.lazyDepth + 1 } :=
  ⟨h.caching, h.pending, h.guesses, by simp [Env.inside, h.depth]⟩

theorem outside (h : (e.inside true).Of p) : e.Of { p with lazyDepth := p.lazyDepth - 1 } :=
  ⟨h.caching, h.pending, h.guesses, by simp [h.depth, Env.inside]⟩

theorem lookup_filter (l : List (TyId × Converter)) :
    (l.filter fun e => e.1 ≠ x).lookup u = if u = x then none else l.lookup u := by
  induction l with
  | nil => simp
  | cons a l ih =>
      obtain ⟨v, d⟩ := a
      by_cases hv : v = x
      · subst hv
        rw [List.filter_cons_of_neg (by simp), ih, List.lookup_cons]
        by_cases hu : u = v
        · simp [hu]
        · rw [beq_false_of_ne hu]
      · rw [List.filter_cons_of_pos (by simpa using hv), List.lookup_cons, List.lookup_cons]
        by_cases hu : u = v
        · subst hu; simp [hv]
        · rw [beq_false_of_ne hu]; exact ih

theorem guess?_setGuess :
    (p.setGuess x c).guess? u = if u = x then some c else p.guess? u := by
  simp only [Planner.guess?, Planner.setGuess, Planner.dropGuess, List.lookup_cons]
  by_cases hu : u = x
  · simp [hu]
  · rw [beq_false_of_ne hu, if_neg hu]
    simpa [hu] using lookup_filter (x := x) (u := u) p.guesses

theorem guess?_dropGuess : (p.dropGuess x).guess? u = if u = x then none else p.guess? u :=
  lookup_filter p.guesses

theorem enter (h : e.Of p) : (e.enter x none).Of (p.enter x) where
  caching := h.caching
  pending := by
    show (⟨x, p.lazyDepth⟩ :: p.pending : List Pending) = _
    simp [h.pending, h.depth]
  guesses u := by
    show ((p.setGuess x .identity).guess? u).map content = _
    rw [guess?_setGuess]
    by_cases hu : u = x
    · subst hu; simp [content]
    · rw [if_neg hu, enter_find?_of_ne hu, h.guesses]
  depth := h.depth

theorem setGuess {g' : Assembly.Content} (h : (e.enter x g).Of p) (hc : c.content = g') :
    (e.enter x g').Of (p.setGuess x c) where
  caching := h.caching
  pending := h.pending
  guesses u := by
    rw [guess?_setGuess]
    by_cases hu : u = x
    · subst hu; simp [hc]
    · have := h.guesses u
      rw [enter_find?_of_ne hu] at this
      rw [if_neg hu, enter_find?_of_ne hu, this]
  depth := h.depth

theorem leave (h : (e.enter x g).Of p) (hx : e.find? x = none) : e.Of (p.leave x) where
  caching := h.caching
  pending := by
    show p.pending.tail = _
    rw [h.pending]
    rfl
  guesses u := by
    show ((p.dropGuess x).guess? u).map content = _
    rw [guess?_dropGuess]
    by_cases hu : u = x
    · subst hu; simp [hx]
    · have := h.guesses u
      rw [enter_find?_of_ne hu] at this
      rw [if_neg hu, this]
  depth := h.depth

end Env.Of

/-! ## What a planner notes -/

namespace Planner

/-- The noted path after work that failed, with the way to the fault from where the planner
stands. A fault that is met at the very start is at no place. -/
def noting (p : Planner) (way : List Segment) : Option (List Segment) :=
  p.faultPath.or (if way = [] then none else some (p.path.reverse ++ way))

variable {p q : Planner}

@[simp] theorem noting_nil : p.noting [] = p.faultPath := by simp [noting]

theorem noting_congr (hpath : q.path = p.path) (hfault : q.faultPath = p.faultPath)
    (way : List Segment) : q.noting way = p.noting way := by rw [noting, hpath, hfault, noting]

theorem noteFault_eq (p : Planner) :
    p.noteFault = { p with faultPath := p.faultPath.or (some p.path.reverse) } := by
  rcases p with ⟨_, _, _, _, _, _, _, _, _ | _⟩ <;> rfl

/-- Seen from before a place, the way starts with it. -/
theorem noting_push {place : Segment} {way : List Segment}
    (hpath : q.path = (p.push place).path) (hfault : q.faultPath = (p.push place).noting way) :
    q.faultPath.or (some q.path.reverse) = p.noting (place :: way) := by
  rw [hpath, hfault]
  by_cases h : way = []
  · simp [noting, push, h]
  · simp [noting, push, h]

end Planner

/-- Between the states nothing happened but to the memory. -/
structure PlanState.Rests (s t : PlanState) : Prop where
  arena : t.shared.arena = s.shared.arena
  uses : t.planner.uses = s.planner.uses
  path : t.planner.path = s.planner.path
  faultPath : t.planner.faultPath = s.planner.faultPath
  env : ∀ {e : Env}, e.Of s.planner → e.Of t.planner

theorem PlanState.Rests.refl (s : PlanState) : s.Rests s := ⟨rfl, rfl, rfl, rfl, id⟩

theorem PlanState.Rests.trans {s t u : PlanState} (h : s.Rests t) (h' : t.Rests u) : s.Rests u :=
  ⟨h'.arena.trans h.arena, h'.uses.trans h.uses, h'.path.trans h.path,
    h'.faultPath.trans h.faultPath, fun he => h'.env (h.env he)⟩

/-- From one state to the other the surroundings change, and nothing else that
planning depends on. -/
structure PlanState.Moves (s : PlanState) (e e' : Env) (t : PlanState) : Prop where
  arena : t.shared.arena = s.shared.arena
  cache : t.shared.cache = s.shared.cache
  uses : t.planner.uses = s.planner.uses
  memory : t.memory = s.memory
  path : t.planner.path = s.planner.path
  faultPath : t.planner.faultPath = s.planner.faultPath
  caching : t.planner.caching = s.planner.caching
  env : e.Of s.planner → e'.Of t.planner

theorem PlanState.Moves.refl (s : PlanState) (e : Env) : s.Moves e e s :=
  ⟨rfl, rfl, rfl, rfl, rfl, rfl, rfl, id⟩

theorem PlanState.Moves.trans {e e' e'' : Env} {s t u : PlanState} (h : s.Moves e e' t)
    (h' : t.Moves e' e'' u) : s.Moves e e'' u :=
  ⟨h'.arena.trans h.arena, h'.cache.trans h.cache, h'.uses.trans h.uses,
    h'.memory.trans h.memory, h'.path.trans h.path, h'.faultPath.trans h.faultPath,
    h'.caching.trans h.caching, fun he => h'.env (h.env he)⟩

/-- The state after a change to what its planner remembers. -/
def PlanState.planning (s : PlanState) (p : Planner) : PlanState := { s with planner := p }

/-- Noting a fault has no part in planning. -/
theorem memory_noteFault (t : PlanState) :
    (t.planning t.planner.noteFault.pop).memory = t.memory := by
  rw [noteFault_eq]
  rfl

/-! ## Courses -/

/-- Arrivals are allowed by `rivals` while `I` holds of the cache, and `I` goes on to
hold. -/
structure Heeds (rivals : Stock → Stock → Prop) (I : Cache → Prop) : Prop where
  arrive : ∀ {k}, I k → rivals k.stock k.arrive.stock ∧ I k.arrive
  offer : ∀ {k}, I k → ∀ ty c, I { k with converters := (Cache.settle k.converters ty c).2 }
  offerBody : ∀ {k}, I k → ∀ ty c, I { k with bodies := (Cache.settle k.bodies ty c).2 }

/-- No other planner is going to touch the cache. -/
def Cache.Quiet (k : Cache) : Prop := k.incoming = []

theorem Cache.Quiet.arrive {k : Cache} (hk : k.Quiet) : k.arrive = k := by rw [Cache.arrive, hk]

theorem heeds_quiet : Heeds Eq Cache.Quiet where
  arrive hk := by
    rw [hk.arrive]
    exact ⟨rfl, hk⟩
  offer hk _ _ := hk
  offerBody hk _ _ := hk

/-- What is known of a state from which work on some types goes on. -/
structure Begins (w : World) (I : Cache → Prop) (e : Env) (tys : List TyId) (s : PlanState) :
    Prop where
  sound : s.shared.arena.Sound
  spans : w.catalog.Over s.shared.arena
  has : ∀ x ∈ tys, s.shared.arena.Has x
  env : e.Of s.planner
  heeds : I s.shared.cache

/-- A stretch of work led from `s` to `s'`. Its uses are `allowed`, and of those that
are open in `e`, `derived` holds in all later arenas. If it failed, it did so at `way`. -/
structure Course (w : World) (I : Cache → Prop) (e : Env) (allowed : Set TyId) (s : PlanState)
    (way : List Segment) (derived : Set TyId → Prop) (s' : PlanState) : Prop where
  within : s.shared.arena.Within s'.shared.arena
  sound : s'.shared.arena.Sound
  env : e.Of s'.planner
  heeds : I s'.shared.cache
  path : s'.planner.path = s.planner.path
  noted : s'.planner.faultPath = s.planner.noting way
  logged : ∃ used, s'.planner.uses = s.planner.uses ++ used ∧ (∀ o ∈ used, o ∈ allowed) ∧
    (s'.shared.arena.Within w.arena → derived {o | o ∈ used ∧ o ∈ e.opened})

section Courses

variable {w : World} {I : Cache → Prop} {e e' : Env} {tys : List TyId} {A A' : Set TyId}
  {D D' : Set TyId → Prop} {s s₁ s₂ t : PlanState} {way : List Segment}

theorem Begins.rests (h : Begins w I e tys s) (ht : s.Rests t) (hI : I t.shared.cache) :
    Begins w I e tys t where
  sound := ht.arena ▸ h.sound
  spans := ht.arena ▸ h.spans
  has := ht.arena ▸ h.has
  env := ht.env h.env
  heeds := hI

theorem Begins.moves (h : Begins w I e tys s) (ht : s.Moves e e' t) : Begins w I e' tys t where
  sound := ht.arena ▸ h.sound
  spans := ht.arena ▸ h.spans
  has := ht.arena ▸ h.has
  env := ht.env h.env
  heeds := ht.cache ▸ h.heeds

theorem Begins.push (h : Begins w I e tys s) (place : Segment) :
    Begins w I e tys (s.planning (s.planner.push place)) :=
  ⟨h.sound, h.spans, h.has, ⟨h.env.caching, h.env.pending, h.env.guesses, h.env.depth⟩, h.heeds⟩

theorem Begins.of_mem (h : Begins w I e tys s) {tys' : List TyId} (hsub : ∀ x ∈ tys', x ∈ tys) :
    Begins w I e tys' s :=
  ⟨h.sound, h.spans, fun x hx => h.has x (hsub x hx), h.env, h.heeds⟩

namespace Course

/-- Work that uses no guess and does not touch the arena. -/
theorem rest (hs : Begins w I e tys s) (ht : s.Rests t) (hI : I t.shared.cache)
    (hD : t.shared.arena.Within w.arena → D ∅) :
    Course w I e A s [] D t where
  within := ht.arena ▸ .refl _
  sound := ht.arena ▸ hs.sound
  env := ht.env hs.env
  heeds := hI
  path := ht.path
  noted := by rw [ht.faultPath, noting_nil]
  logged := ⟨[], by simp [ht.uses], by simp, fun hw => by simpa using hD hw⟩

theorem begins (h : Course w I e A s way D t) (hs : Begins w I e' tys s) : Begins w I e tys t where
  sound := h.sound
  spans := hs.spans.within h.within
  has x hx := h.within.has (hs.has x hx)
  env := h.env
  heeds := h.heeds

theorem mono (h : Course w I e A s way D t) (hA : A ⊆ A')
    (hD : t.shared.arena.Within w.arena → ∀ U ⊆ e.opened, D U → D' U) :
    Course w I e A' s way D' t where
  within := h.within
  sound := h.sound
  env := h.env
  heeds := h.heeds
  path := h.path
  noted := h.noted
  logged := by
    obtain ⟨used, huses, hused, hd⟩ := h.logged
    exact ⟨used, huses, fun o ho => hA (hused o ho),
      fun hw => hD hw _ (fun o ho => ho.2) (hd hw)⟩

/-- One stretch of work after the other. Only the last one may have failed. -/
theorem append {E : Set TyId → Prop} (h : Course w I e A s [] D s₁)
    (h' : Course w I e A s₁ way D' s₂)
    (hD : s₂.shared.arena.Within w.arena → ∀ U V, D U → D' V → E (U ∪ V)) :
    Course w I e A s way E s₂ where
  within := h.within.trans h'.within
  sound := h'.sound
  env := h'.env
  heeds := h'.heeds
  path := h'.path.trans h.path
  noted := h'.noted.trans (noting_congr h.path (h.noted.trans noting_nil) way)
  logged := by
    obtain ⟨used, huses, hused, hd⟩ := h.logged
    obtain ⟨used', huses', hused', hd'⟩ := h'.logged
    refine ⟨used ++ used', by rw [huses', huses, List.append_assoc], fun o ho => ?_, fun hw => ?_⟩
    · exact (List.mem_append.mp ho).elim (hused o) (hused' o)
    · have := hD hw _ _ (hd (h'.within.trans hw)) (hd' hw)
      rwa [show {o | o ∈ used ++ used' ∧ o ∈ e.opened} =
        {o | o ∈ used ∧ o ∈ e.opened} ∪ {o | o ∈ used' ∧ o ∈ e.opened} by
          ext o; simp [or_and_right]]

/-- Something that leaves the log and the arena alone, and then work. -/
theorem after (ht : s.Rests t) (h : Course w I e A t way D s₁) : Course w I e A s way D s₁ where
  within := ht.arena ▸ h.within
  sound := h.sound
  env := h.env
  heeds := h.heeds
  path := h.path.trans ht.path
  noted := h.noted.trans (noting_congr ht.path ht.faultPath way)
  logged := by rw [← ht.uses]; exact h.logged

/-- Work, and then something that leaves the log and the arena alone. -/
theorem before (h : Course w I e A s way D s₁) (ht : s₁.Rests t) (hI : I t.shared.cache) :
    Course w I e A s way D t where
  within := ht.arena ▸ h.within
  sound := ht.arena ▸ h.sound
  env := ht.env h.env
  heeds := hI
  path := ht.path.trans h.path
  noted := ht.faultPath.trans h.noted
  logged := by rw [ht.uses, ht.arena]; exact h.logged

/-- Work in narrower surroundings, seen from outside. -/
theorem enclose {E : Set TyId → Prop} (h : Course w I e' A s way D s₂)
    (hout : s₂.Moves e' e t) (hsub : e.opened ⊆ e'.opened)
    (hD : t.shared.arena.Within w.arena → ∀ U ⊆ e'.opened, D U → E (U ∩ e.opened)) :
    Course w I e A s way E t where
  within := hout.arena ▸ h.within
  sound := hout.arena ▸ h.sound
  env := hout.env h.env
  heeds := hout.cache ▸ h.heeds
  path := hout.path.trans h.path
  noted := hout.faultPath.trans h.noted
  logged := by
    obtain ⟨used, hused, hA, hd⟩ := h.logged
    refine ⟨used, by rw [hout.uses, hused], hA, fun hw => ?_⟩
    have := hD hw _ (fun o ho => ho.2) (hd (hout.arena ▸ hw))
    rwa [show {o | o ∈ used ∧ o ∈ e'.opened} ∩ e.opened = {o | o ∈ used ∧ o ∈ e.opened} by
      ext o; exact ⟨fun h => ⟨h.1.1, h.2⟩, fun h => ⟨⟨h.1, hsub h.2⟩, h.2⟩⟩] at this

/-- The surroundings of a course may be set up before it. -/
theorem entered {v : PlanState} (hv : s.Moves e e' v) (h : Course w I e' A v way D t) :
    Course w I e' A s way D t where
  within := hv.arena ▸ h.within
  sound := h.sound
  env := h.env
  heeds := h.heeds
  path := h.path.trans hv.path
  noted := h.noted.trans (noting_congr hv.path hv.faultPath way)
  logged := by rw [← hv.uses]; exact h.logged

/-- Work at a place, which then is left. -/
theorem placed {place : Segment} (h : Course w I e A (s.planning (s.planner.push place)) [] D t) :
    Course w I e A s [] D (t.planning t.planner.pop) where
  within := h.within
  sound := h.sound
  env := ⟨h.env.caching, h.env.pending, h.env.guesses, h.env.depth⟩
  heeds := h.heeds
  path := congrArg List.tail h.path
  noted := h.noted
  logged := h.logged

/-- Work that failed at a place, which then is noted and left. -/
theorem failed {place : Segment} (h : Course w I e A (s.planning (s.planner.push place)) way D t) :
    Course w I e A s (place :: way) D (t.planning t.planner.noteFault.pop) := by
  rw [noteFault_eq]
  exact
    { within := h.within
      sound := h.sound
      env := ⟨h.env.caching, h.env.pending, h.env.guesses, h.env.depth⟩
      heeds := h.heeds
      path := congrArg List.tail h.path
      noted := noting_push h.path h.noted
      logged := h.logged }

/-- Work that only looks at the arena. -/
theorem look {α : Type} {m : PlanM α} {r : Except Halt α} {a : Arena} (hs : Begins w I e tys s)
    (hm : Inspects m s.shared.arena r a) (hD : a.Within w.arena → D ∅) :
    Course w I e A s [] D (s.on a) where
  within := hm.within
  sound := hm.sound
  env := hs.env
  heeds := hs.heeds
  path := rfl
  noted := noting_nil.symm
  logged := ⟨[], by simp, by simp, fun hw => by simpa using hD hw⟩

end Course

end Courses

end Marshal
