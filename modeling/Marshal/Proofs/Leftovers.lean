import Marshal.Proofs.Rebuilding

/-!
# What failed calls leave behind

The first turn over a recursive type puts bodies of other types into the table that may
be wrong, and the second turn puts right ones in their place. If planning fails in
between, they stay. That a body is wrong cannot be told from the table, but all that are
left so are of types that lead to the one that was given up, and cannot be planned
either: a type that can be planned has no wrong body, whatever has failed before.

So an entry of the table is the body that a new planner finds, if a new planner finds
one at all (`Session.Comes.leftovers`), and it does for every entry of a planner none of
whose calls has failed, as all that a call adds can be planned if what it was asked for
can be (`Plans.adds`).
-/

namespace Marshal

open Converter Planner PlanM World

namespace World

variable {w : World} {C : Set TyId} {rivals : Stock → Stock → Prop} {e : Env} {m m₁ m' : Memory}
  {job job' : Job} {x u : TyId} {c : Assembly.Content} {k : Stock}

/-! ## Which types get a body -/

/-- The types that got a body are recursive and convert. They can be planned if those of the
job can. -/
def Adds (w : World) (job : Job) (m m' : Memory) : Prop :=
  ∀ u, m'.bodies u ≠ none → m.bodies u ≠ none ∨
    w.Recursive u ∧ w.Converts u ∧ ((∀ x ∈ job.types, w.Good x) → w.Good u)

namespace Adds

theorem of_bodies (h : m'.bodies = m.bodies) : w.Adds job m m' := fun _ hu => .inl (h ▸ hu)

theorem refl : w.Adds job m m := .of_bodies rfl

theorem trans (h : w.Adds job m m₁) (h' : w.Adds job m₁ m') : w.Adds job m m' := fun u hu =>
  (h' u hu).elim (h u) .inr

/-- What is put in at work on a part of the job. -/
theorem up (h : w.Adds job' m m')
    (hgood : (∀ x ∈ job.types, w.Good x) → ∀ x ∈ job'.types, w.Good x) : w.Adds job m m' :=
  fun u hu => (h u hu).imp_right fun ⟨hrec, hconv, hu⟩ => ⟨hrec, hconv, fun hjob => hu (hgood hjob)⟩

theorem node {r : Referent} (h : w.Adds (.visit r.node) m m') (hr : w.Resolves x (.ok r)) :
    w.Adds (.layer x) m m' :=
  h.up fun hx y hy => by
    cases List.mem_singleton.mp hy
    exact (hx x (List.mem_singleton_self x)).edge (.node hr)

theorem parts {t : Term} {l : Layer} (h : w.Adds (.parts l.parts) m m')
    (ht : w.arena.term? x = some t) (hl : w.layer? x t = some l) : w.Adds (.layer x) m m' :=
  h.up fun hx y hy => by
    obtain ⟨p, hp, rfl⟩ := List.mem_map.mp hy
    exact (hx x (List.mem_singleton_self x)).edge (.part ht hl hp)

theorem head {p : Part} {ps : List Part} (h : w.Adds (.visit p.ty) m m') :
    w.Adds (.parts (p :: ps)) m m' :=
  h.up fun hps y hy => by
    cases List.mem_singleton.mp hy
    exact hps p.ty (List.mem_cons_self ..)

theorem tail {p : Part} {ps : List Part} (h : w.Adds (.parts ps) m m') :
    w.Adds (.parts (p :: ps)) m m' :=
  h.up fun hps y hy => hps y (List.mem_cons_of_mem _ hy)

theorem setBody (h : w.Adds (.layer x) m m') (hrec : w.Recursive x) (hconv : w.Converts x) :
    w.Adds (.layer x) m (m'.setBody x c) := by
  intro u hu
  by_cases hux : u = x
  · subst hux
    exact .inr ⟨hrec, hconv, fun hgood => hgood u (List.mem_singleton_self u)⟩
  · rw [Memory.setBody_bodies, Contents.put_of_ne hux] at hu
    exact h u hu

end Adds

theorem Settles.bodies {d : Assembly.Content} (h : Settles rivals e m x c d m') :
    m'.bodies = m.bodies := by
  cases h <;> rfl

/-- Bodies are taken from the cache for types that converters in the cache need. -/
theorem Takes.adds (hq : w.Fair rivals) {stack : List TyId} {ok : Bool}
    (h : Takes rivals m stack m' ok) : w.Supplies m.cache → (∀ u ∈ stack, w.Supplied m.cache u) →
      w.Adds job m m' := by
  induction h with
  | done => exact fun _ _ => .refl
  | skip _ _ ih => exact fun hm hs => ih hm fun u hu => hs u (List.mem_cons_of_mem _ hu)
  | @take m m' k t c stack ok hn hk hc _ ih =>
      intro hm hs
      have hk' := hq.supplies hk hm
      have ht := (hs t (List.mem_cons_self ..)).later hq hk
      have rest := ih hk' fun u hu => by
        rcases List.mem_append.mp hu with hu | hu
        · exact ht.target (hk'.bodies t c hc ht.1) (List.mem_reverse.mp hu)
        · exact (hs u (List.mem_cons_of_mem _ hu)).later hq hk
      refine .trans (fun u hu => ?_) rest
      by_cases hut : u = t
      · subst hut
        obtain ⟨hgood, hrec, hconv, -⟩ := ht
        exact .inr ⟨hrec, hconv, fun _ => hgood⟩
      · rw [Memory.setBody_bodies, Contents.put_of_ne hut] at hu
        exact .inl hu
  | missing => exact fun _ _ => .of_bodies rfl

theorem Takes.adds_of_converter (hq : w.Fair rivals) {ok : Bool} (hm : w.Honest m)
    (hs : w.Supplies m.cache) (hk : rivals m.cache k) (hkx : k.converters x = some c)
    (h : Takes rivals (m.found k) (bare c).targets.reverse m' ok) : w.Adds job m m' := by
  obtain ⟨hgood, hcanon⟩ := hq.vouching _ _ hk hm.cached x c hkx
  refine (Adds.of_bodies (Memory.found_bodies m k)).trans
    (Takes.adds hq h (hq.supplies hk hs) fun t ht => ?_)
  obtain ⟨hreach, hrec, hconv⟩ := hcanon.targets (List.mem_reverse.mp ht)
  exact ⟨hgood.reach hreach, hrec, hconv, x, by simp [hkx], hreach⟩

/-- A body is put in the table at the end of the turns of a recursive type that converts, or
taken from the cache. -/
theorem Plans.adds (hq : w.Fair rivals) {out : Verdict} (h : w.Plans rivals e job m out m') :
    w.Stands C e job m → Due C m job → w.Adds job m m' := by
  induction h with
  | remembered | leaf | refused | circles | guessed | unresolved | grows | noParts | partRefused =>
      exact fun _ _ => .refl
  | adopted _ _ hk hkx ht =>
      exact fun st _ => .trans
        (Takes.adds_of_converter hq st.honest st.sane.supplies hk hkx ht) (.of_bodies rfl)
  | bodyless _ _ hk hkx ht =>
      exact fun st _ => Takes.adds_of_converter hq st.honest st.sane.supplies hk hkx ht
  | settles hs hm _ hset ih =>
      intro st _
      obtain ⟨st₁, hx, hbodies⟩ := st.missed hq hs hm
      exact .trans (.of_bodies hbodies) (.trans (ih st₁ hx) (.of_bodies (Settles.bodies hset)))
  | hangs hs hm _ _ ih | fails hs hm _ ih =>
      intro st _
      obtain ⟨st₁, hx, hbodies⟩ := st.missed hq hs hm
      exact .trans (.of_bodies hbodies) (ih st₁ hx)
  | partsFail ht hl _ _ ih | unassembled ht hl _ _ _ ih | assembled ht hl _ _ _ ih =>
      exact fun st _ => (ih (st.parts ht hl) trivial).parts ht hl
  | inline _ hr _ _ ih | inlineFails _ hr _ _ ih =>
      exact fun st _ => (ih (st.inline hr) trivial).node hr
  | firstFails hopen hr hrec hreg _ ih | idle hopen hr hrec hreg _ ih =>
      intro st hx
      exact (ih (st.first hx hopen hr (recursive_of_resolves hr hrec hreg)) trivial).node hr
  | secondFails hopen hr hrec hreg h hc _ ih ih' =>
      intro st hx
      have hrecx := recursive_of_resolves hr hrec hreg
      have st₁ := st.first hx hopen hr hrecx
      obtain ⟨-, st₂⟩ := st.after_first hq hx hopen hr hrecx h hc (h.keeps hq st₁ trivial).sane
      exact .trans ((ih st₁ trivial).node hr) ((ih' st₂ trivial).node hr)
  | defers hopen hr hrec hreg h hc _ ih ih' =>
      intro st hx
      have hrecx := recursive_of_resolves hr hrec hreg
      have st₁ := st.first hx hopen hr hrecx
      obtain ⟨hconv, st₂⟩ :=
        st.after_first hq hx hopen hr hrecx h hc (h.keeps hq st₁ trivial).sane
      exact .setBody (.trans ((ih st₁ trivial).node hr) ((ih' st₂ trivial).node hr)) hrecx hconv
  | partFails _ _ ih => exact fun st _ => (ih st.head trivial).head
  | restFails _ h _ ih ih' | someParts _ h _ ih ih' =>
      intro st _
      have st₁ := st.after_head hq h (h.keeps hq st.head trivial).sane
      exact .trans (ih st.head trivial).head (ih' st₁ trivial).tail

/-! ## Between two calls -/

/-- The tables of planners that are not at work have the same body for a type that can be
planned. -/
theorem Calm.same_body {k k' : Bool} {d : Assembly.Content} (hm : w.Calm k m)
    (hm' : w.Calm k' m') (hu : w.Good u) (hrec : w.Recursive u) (hconv : w.Converts u)
    (hc : m.bodies u = some c) (hd : m'.bodies u = some d) : c = d := by
  have body : w.Body u c := not_not.mp fun hn => hm.right u ⟨hu, hrec, hconv, c, hc, hn⟩
  have body' : w.Body u d := not_not.mp fun hn => hm'.right u ⟨hu, hrec, hconv, d, hd, hn⟩
  exact body.unique body'

/-- What a call puts in the table. If the call is answered, all of it can be planned. -/
theorem Calm.call_adds {k : Bool} {call : Call} {d : Nat} {r : Except Halt Answer}
    {s s' : PlanState} (hs : Begins w Cache.Quiet (World.idle k) call.types s) (hw : w.Ready)
    (hm : w.Calm k s.memory) (h : call.run w.catalog w.options d s = (r, s'))
    (hr : r ≠ .error .outOfFuel) (hb : s'.shared.arena.Within w.arena)
    (hu : s'.memory.bodies u ≠ none) : s.memory.bodies u ≠ none ∨
      w.Recursive u ∧ w.Converts u ∧ ((∃ a, r = .ok a) → w.Good u) := by
  obtain ⟨-, -, ⟨f, hj, -⟩ | ⟨job, out, hj, hplans, told⟩⟩ := hm.called hs hw h hr hb
  · cases (run_refused_call hj).symm.trans h
    exact .inl hu
  · have asked := asked_of_job hj
    refine ((hplans.adds fair_eq (hm.stands job) (due asked)) u hu).imp_right
      fun ⟨hrec, hconv, hgood⟩ => ⟨hrec, hconv, ?_⟩
    rintro ⟨a, rfl⟩
    cases out with
    | error f => cases told
    | ok result =>
        obtain ⟨cs, U⟩ := result
        obtain ⟨-, all⟩ := hm.result fair_eq asked hplans
        refine hgood fun x hx => ?_
        obtain ⟨_, -, hx, -⟩ := exists_of_mem_right all.flip hx
        exact hx

end World

/-! ## Calls of a session -/

namespace Session

/-- Sessions in which no call of planner `i` has failed. -/
inductive Unfailing (catalog : Catalog) (options : Options) (i : Nat) : Session → Prop
  | opens {a : Arena} {supply : Nat} : a.Sound → catalog.Over a →
      Unfailing catalog options i ⟨⟨a, supply, .empty⟩, []⟩
  | joins {S : Session} (caching : Bool) : Unfailing catalog options i S →
      Unfailing catalog options i { S with planners := S.planners ++ [.new caching] }
  | grows {S : Session} {a : Arena} : Unfailing catalog options i S →
      S.shared.arena.Within a → a.Sound →
      Unfailing catalog options i { S with shared := { S.shared with arena := a } }
  | calls {S : Session} {j : Nat} {p : Planner} {call : Call} {d : Nat}
      {r : Except Halt Answer} {s : PlanState} : Unfailing catalog options i S →
      S.planners[j]? = some p → (∀ x ∈ call.types, S.shared.arena.Has x) →
      call.run catalog options d ⟨S.shared, p⟩ = (r, s) → r ≠ .error .outOfFuel →
      (j = i → ∃ a, r = .ok a) → Unfailing catalog options i (S.after j s)

variable {catalog : Catalog} {options : Options} {S : Session} {p : Planner} {i : Nat} {u : TyId}

theorem Unfailing.comes (h : Unfailing catalog options i S) : Comes catalog options S := by
  induction h with
  | opens ha hc => exact .opens ha hc
  | joins k _ ih => exact .joins k ih
  | grows _ hsa ha ih => exact .grows ih hsa ha
  | calls _ hp hx hrun hr _ ih => exact .calls ih hp hx hrun hr

/-- Every planner has bodies of recursive types that convert, in the world of any later
arena. -/
theorem Comes.bodied (hS : Comes catalog options S) : ∀ {b : Arena}, b.Sound →
    S.shared.arena.Within b → ∀ p ∈ S.planners, ∀ u, p.fixpoints.contents u ≠ none →
      World.Recursive ⟨catalog, options, b⟩ u ∧ World.Converts ⟨catalog, options, b⟩ u := by
  induction hS with
  | opens => exact fun _ _ p hp => absurd hp List.not_mem_nil
  | joins k _ ih =>
      intro b hb hab p hp u hu
      rcases List.mem_append.mp hp with hp | hp
      · exact ih hb hab p hp u hu
      · cases List.mem_singleton.mp hp
        exact absurd rfl hu
  | grows _ hsa _ ih => exact fun hb hab => ih hb (hsa.trans hab)
  | @calls S i p call d r s hS hp hx hrun hr ih =>
      intro b hb hab q hq u hu
      obtain ⟨begins, hw, calm⟩ := hS.begins hp hx hrun hb hab
      have within := (rests_call hb begins hrun).2.trans hab
      rcases List.mem_or_eq_of_mem_set hq with hq | rfl
      · exact ih hb within q hq u hu
      · rcases calm.call_adds begins hw hrun hr hab hu with hu | ⟨hrec, hconv, -⟩
        · exact ih hb within p (List.mem_of_getElem? hp) u hu
        · exact ⟨hrec, hconv⟩

/-- A planner none of whose calls has failed has bodies of types only that can be planned. -/
theorem Unfailing.good (hS : Unfailing catalog options i S) : ∀ {b : Arena}, b.Sound →
    S.shared.arena.Within b → ∀ p, S.planners[i]? = some p →
      ∀ u, p.fixpoints.contents u ≠ none → World.Good ⟨catalog, options, b⟩ u := by
  induction hS with
  | opens => exact fun _ _ p hp => nomatch hp
  | joins k _ ih =>
      intro b hb hab p hp u hu
      rw [List.getElem?_append] at hp
      split at hp
      · exact ih hb hab p hp u hu
      · cases List.mem_singleton.mp (List.mem_of_getElem? hp)
        exact absurd rfl hu
  | grows _ hsa _ ih => exact fun hb hab => ih hb (hsa.trans hab)
  | @calls S j p call d r s hS hp hx hrun hr hok ih =>
      intro b hb hab q hq u hu
      obtain ⟨begins, hw, calm⟩ := hS.comes.begins hp hx hrun hb hab
      have within := (rests_call hb begins hrun).2.trans hab
      by_cases hji : j = i
      · subst hji
        rw [after, List.getElem?_set_self (List.getElem?_eq_some_iff.mp hp).1] at hq
        cases hq
        rcases calm.call_adds begins hw hrun hr hab hu with hu | ⟨-, -, hgood⟩
        · exact ih hb within p hp u hu
        · exact hgood (hok rfl)
      · rw [after, List.getElem?_set_ne hji] at hq
        exact ih hb within q hq u hu

/-- The entries of a planner's table, between two calls. If a new planner without a cache plans
the type of an entry, over this or any later arena, then it comes to the same body, and the
table has a body for all that this one defers to. A type that cannot be planned has an entry
only if a call of the planner has failed. -/
theorem Comes.leftovers {body : Converter} (hS : Comes catalog options S)
    (hp : S.planners[i]? = some p) (hu : p.fixpoints.find? u = some body) {b : Arena}
    (hb : b.Sound) (hsb : S.shared.arena.Within b) :
    (∀ depth c s, planWithin catalog options depth u (blank b) = (.ok c, s) →
      (∃ body', s.planner.fixpoints.find? u = some body' ∧ body'.content = body.content) ∧
        ∀ v ∈ body.targets, p.fixpoints.contains v = true) ∧
      (Unfailing catalog options i S → ∃ n, ∀ depth ≥ n, ∃ c s,
        planWithin catalog options depth u (blank b) = (.ok c, s)) := by
  have hbody : p.fixpoints.contents u = some body.content := by rw [FixTable.contents, hu]; rfl
  have present : p.fixpoints.contents u ≠ none := by simp [hbody]
  have mem : p ∈ S.planners := List.mem_of_getElem? hp
  have has : b.Has u := by
    obtain ⟨⟨r, hr, -⟩, -⟩ := hS.bodied hb hsb p mem u present
    exact Arena.has_of_term? (Edge.node hr).term?.choose_spec
  constructor
  · intro depth c s hrun
    -- The new planner is one of a session of its own, over the same arena.
    have alone : Comes catalog options ⟨⟨b, 0, .empty⟩, [.new false]⟩ :=
      .joins false (.opens hb (hS.rests.spans.within hsb))
    have stored : ∀ x ∈ (Call.type u).types, b.Has x :=
      fun x hx => List.mem_singleton.mp hx ▸ has
    obtain ⟨begins, within⟩ := rests_call (w := ⟨catalog, options, b⟩) hb
      (alone.rests.begins (i := 0) rfl stored) (run_type hrun)
    obtain ⟨hgood, hcanon, calm', covered⟩ :=
      alone.planned (i := 0) rfl has hrun begins.sound (.refl _)
    have calm := (hS.calm begins.sound (hsb.trans within)).planners p mem
    obtain ⟨hrec, hconv⟩ := hS.bodied begins.sound (hsb.trans within) p mem u present
    have defers : c.content = deferring u := hcanon.unique (.deferring hrec hconv)
    obtain ⟨d, hd⟩ := Option.ne_none_iff_exists'.mp
      (covered u (defers ▸ mem_targets_deferring.mpr rfl))
    obtain ⟨body', hbody', rfl⟩ := Option.map_eq_some_iff.mp hd
    refine ⟨⟨body', hbody', calm'.same_body calm hgood hrec hconv hd hbody⟩, fun v hv => ?_⟩
    have target : v ∈ (bare body.content).targets := (targets_strip body).symm ▸ hv
    have closed : p.fixpoints.contents v ≠ none := by
      refine (calm.sane.closed u _ hbody hgood v target).resolve_right ?_
      rintro ⟨o, ho, -⟩
      cases ho
    exact (FixTable.contains_iff _).mpr closed
  · intro hall
    have hw : World.Ready ⟨catalog, options, b⟩ := ⟨hb, hS.rests.spans.within hsb⟩
    obtain ⟨n, hn⟩ := (hall.good hb hsb p hp u present).planned_blank hw has
    refine ⟨n, fun depth hdepth => ?_⟩
    obtain ⟨c, s, hrun, -⟩ := hn depth hdepth
    exact ⟨c, s, hrun⟩

end Session

/-! ## Entries that stand, and one that is left over -/

namespace Tree

/-- The call that planned trees. -/
theorem call_opened : (call opened (.new true)).1 = .ok (.converter converter) ∧
    (call opened (.new true)).2.planner.fixpoints.find? ty = some body := by
  decide +kernel

theorem unfailing : Session.Unfailing catalog .standard 0 served := by
  refine .calls (p := .new true) (.joins true (.joins true (.opens sound ?_)))
    rfl ?_ (call_eq opened (.new true)) served_spec.1 fun _ => ⟨_, call_opened.1⟩
  · decide
  · decide

end Tree

/-- The body of trees in the table of the planner that has planned them. -/
theorem Session.Comes.leftovers_tree :
    (∃ n, ∀ depth ≥ n, ∃ c s,
      planWithin Tree.catalog .standard depth Tree.ty (blank Tree.arena) = (.ok c, s)) ∧
    ∀ depth c s, planWithin Tree.catalog .standard depth Tree.ty (blank Tree.arena) = (.ok c, s) →
      (∃ body, s.planner.fixpoints.find? Tree.ty = some body ∧
        body.content = Tree.body.content) ∧
      ∀ v ∈ Tree.body.targets,
        (Tree.call Tree.opened (.new true)).2.planner.fixpoints.contains v = true := by
  have arena : Tree.served.shared.arena = Tree.arena := by decide +kernel
  have later : Tree.served.shared.arena.Within Tree.arena := arena ▸ .refl _
  have first : Tree.served.planners[0]? = some (Tree.call Tree.opened (.new true)).2.planner :=
    List.getElem?_set_self (by decide)
  obtain ⟨same, all⟩ := Session.Comes.leftovers Tree.comes_served first
    Tree.call_opened.2 Tree.sound later
  exact ⟨all Tree.unfailing, same⟩

namespace Halves

def arena : Arena :=
  [.named ⟨"M", "left"⟩ [], .array ⟨5⟩, .named ⟨"M", "right"⟩ [], .array ⟨7⟩,
    .option Scalar.int.id, .option ⟨9⟩,
    .record [⟨"b", ⟨8⟩, false, false⟩, ⟨"z", ⟨10⟩, false, false⟩],
    .record [⟨"a", ⟨6⟩, false, false⟩]].foldl (fun a t => (Arena.intern t a).2) .new

/-- The type `left` is `{b: array<right>, z: option<option<int>>}`, which is refused for `z`. -/
def left : TyId := ⟨5⟩

/-- The type `right` is `{a: array<left>}`. -/
def right : TyId := ⟨7⟩

def catalog : Catalog :=
  .ofDecls arena [⟨⟨"M", "left"⟩, 0, ⟨11⟩⟩, ⟨⟨"M", "right"⟩, 0, ⟨12⟩⟩]

/-- A new planner is asked for the type. -/
def call (ty : TyId) : Except Halt Converter × PlanState :=
  planWithin catalog .standard 12 ty (blank arena)

/-- Neither type can be planned, but the turn over `left` that was given up has left a body
of `right`, in which `left` crosses unchanged. -/
example : (call left).1.isOk = false ∧ (call right).1.isOk = false ∧
    (call left).2.planner.fixpoints.entries.map (fun e => (e.1, e.2.targets)) =
      [(right, [])] := by
  decide +kernel

end Halves

end Marshal
