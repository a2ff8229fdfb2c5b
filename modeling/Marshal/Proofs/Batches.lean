import Marshal.Proofs.Isolation

/-!
# A batch over time

A batch analyses modules again and again, one after another or at once, and all of them share
its cache. However often it has done so, and whichever exports fail, the outcome of each export
is the one that a new batch comes to when it analyses this export alone
(`Batch.Comes.isolated`).

One after another, the modules cannot be told apart from the calls of one planner after
another. At once, each module begins with the cache as all of them found it, and the offers of
the others arrive between its accesses. If these are right, bodies before converters, and none
is the converter of a type on a cycle that the module's own exports lead to (`Batch.Meets`), then
the module is not disturbed. Without the last condition it may be: what was shared by then is
right, but a body that an unfinished guess has left in the module's table stays
(`Pair.hasty_batch`).
-/

namespace Marshal

open Converter Planner PlanM World

/-! ## Lists of work -/

/-- Work on a list, with an arena that grows. What holds of a state and is kept by each step,
holds in the end. What a step gives that ends before the arena is `t`, holds of all
results then. -/
theorem Traces.forall₂ {ε σ α β : Type} {f : α → ExceptT ε (StateM σ) β} {A : σ → Arena}
    {t : Arena} {I K : σ → Prop} {Q : α → β → Prop} {xs : List α} {ys : List β} {s s' : σ}
    (h : Traces f xs s ys s')
    (grows : ∀ x ∈ xs, ∀ {y s s'}, f x s = (.ok y, s') → I s →
      (A s).Within (A s') ∧ I s')
    (gives : ∀ x ∈ xs, ∀ {y s s'}, f x s = (.ok y, s') → I s → (A s').Within t → K s →
      K s' ∧ Q x y) (hs : I s) :
    (A s).Within (A s') ∧ I s' ∧
      ((A s').Within t → K s → K s' ∧ List.Forall₂ Q xs ys) := by
  induction h with
  | nil => exact ⟨.refl _, hs, fun _ hk => ⟨hk, .nil⟩⟩
  | cons hx _ ih =>
      obtain ⟨within, hs₁⟩ := grows _ (List.mem_cons_self ..) hx hs
      obtain ⟨within', hs', rest⟩ := ih (fun x hx => grows x (List.mem_cons_of_mem _ hx))
        (fun x hx => gives x (List.mem_cons_of_mem _ hx)) hs₁
      refine ⟨within.trans within', hs', fun hl hk => ?_⟩
      obtain ⟨hk₁, hxy⟩ := gives _ (List.mem_cons_self ..) hx hs (within'.trans hl) hk
      obtain ⟨hk', hall⟩ := rest hl hk₁
      exact ⟨hk', .cons hxy hall⟩

/-! ## Caches that are put together -/

namespace Cache

variable {k other : Cache}

/-- An entry that is kept, before those of a list. -/
theorem keep_or (f : Contents) (ty : TyId) (c : Converter) (entries : List (TyId × Converter)) :
    (fun u => (f.keep ty c.content u).or ((entries.lookup u).map content)) =
      fun u => (f u).or ((((ty, c) :: entries).lookup u).map content) := by
  funext u
  rw [List.lookup_cons]
  by_cases hu : u = ty
  · subst hu
    rw [Contents.keep_self, BEq.rfl]
    cases f u <;> rfl
  · rw [Contents.keep_of_ne hu, beq_false_of_ne hu]

theorem receives_bodies : ∀ (entries : List (TyId × Converter)) (k : Cache),
    ((entries.map fun e => Offer.body e.1 e.2).foldl receive k).stock =
      ⟨k.stock.converters, fun u => (k.stock.bodies u).or ((entries.lookup u).map content)⟩
  | [], k => by simp
  | (ty, c) :: entries, k => by
      have first : (k.receive (.body ty c)).stock =
          ⟨k.stock.converters, k.stock.bodies.keep ty c.content⟩ :=
        congrArg (Stock.mk _) (lookup_settle k.bodies ty c)
      rw [List.map_cons, List.foldl_cons, receives_bodies entries, first, keep_or]

theorem receives_converters : ∀ (entries : List (TyId × Converter)) (k : Cache),
    ((entries.map fun e => Offer.converter e.1 e.2).foldl receive k).stock =
      ⟨fun x => (k.stock.converters x).or ((entries.lookup x).map content), k.stock.bodies⟩
  | [], k => by simp
  | (ty, c) :: entries, k => by
      have first : (k.receive (.converter ty c)).stock =
          ⟨k.stock.converters.keep ty c.content, k.stock.bodies⟩ :=
        congrArg (Stock.mk · _) (lookup_settle k.converters ty c)
      rw [List.map_cons, List.foldl_cons, receives_converters entries, first, keep_or]

/-- What there was stays, and what there was not comes from the other. -/
theorem absorb_stock (k other : Cache) : (k.absorb other).stock =
    ⟨fun x => (k.stock.converters x).or (other.stock.converters x),
      fun u => (k.stock.bodies u).or (other.stock.bodies u)⟩ := by
  rw [absorb, offers, List.foldl_append, receives_converters, receives_bodies]
  rfl

theorem absorb_incoming : (k.absorb other).incoming = k.incoming := incoming_receives

end Cache

theorem World.Reliable.absorb {w : World} {k other : Cache} (h : w.Reliable k.stock)
    (h' : w.Reliable other.stock) : w.Reliable (k.absorb other).stock := by
  rw [Cache.absorb_stock]
  refine ⟨fun x c hc => ?_, fun u c hc => ?_⟩
  · rcases Option.or_eq_some_iff.mp hc with hx | ⟨-, hx⟩
    · obtain ⟨good, canon, bodies⟩ := h.converters x c hx
      refine ⟨good, canon, fun u hxu hrec hconv hnone => ?_⟩
      exact bodies u hxu hrec hconv (Option.or_eq_none_iff.mp hnone).1
    · obtain ⟨good, canon, bodies⟩ := h'.converters x c hx
      refine ⟨good, canon, fun u hxu hrec hconv hnone => ?_⟩
      exact bodies u hxu hrec hconv (Option.or_eq_none_iff.mp hnone).2
  · rcases Option.or_eq_some_iff.mp hc with hu | ⟨-, hu⟩
    · exact h.bodies u c hu
    · exact h'.bodies u c hu

/-! ## Modules -/

namespace Batch

/-- An outcome of the export that stands by itself: a plan without an error, or one error and no
plan. A new batch over the arena that analyses the export alone comes to it as well. -/
structure StandsAlone (b : Batch) (a : Arena) (m : Module) (e : Export) (o : Outcome) : Prop where
  declaration : o.declaration = m.keyOf e
  settled : o.isOk = true ∧ o.errors = [] ∨ o.plan = none ∧ ∃ d, o.errors = [d]
  isolated : b.Isolates a m.name e o

/-- The report is on the module, with an outcome for each export in their order, each of which
stands by itself. -/
def Reports (b : Batch) (a : Arena) (m : Module) (r : ModuleOutcomes) : Prop :=
  r.module = m.name ∧ List.Forall₂ (b.StandsAlone a m) m.exports r.outcomes

/-- Nothing is at work in the batch, these types are in the arena, and `I` holds of the cache. -/
abbrev Idle (b : Batch) (a : Arena) (I : Cache → Prop) (tys : List TyId) (sh : Shared) : Prop :=
  Begins (b.world a) I (World.idle true) tys ⟨sh, .new true⟩

/-- What others share while the module is analysed is right, and it is no converter of a type
on a cycle that the module's exports lead to. -/
def Fits (b : Batch) (a : Arena) (m : Module) (k : Cache) : Prop :=
  (b.world a).Expects ((b.world a).Knots m.exported) k

variable {b : Batch} {a : Arena} {d : Nat} {m : Module} {tys : List TyId} {sh sh' : Shared}
  {modules : List Module} {report : Report} {r : ModuleOutcomes} {I : Cache → Prop}
  {rivals : Stock → Stock → Prop} {meanwhile : Meanwhile}

theorem fits_quiet {k : Cache} (h : k.Quiet) : b.Fits a m k := by
  rw [Fits, Expects, show k.incoming = [] from h]
  exact .done

/-- A module, by its planner from export to export. -/
theorem reportModule_stands (ha : a.Sound) (hI : Heeds rivals I) (hsh : b.Idle a I tys sh)
    (hx : ∀ x ∈ m.exported, x ∈ tys) (h : b.reportModule d m sh = (.ok r, sh')) :
    sh.arena.Within sh'.arena ∧ b.Idle a I tys sh' ∧ (sh'.arena.Within a → b.Fits a m sh.cache →
      (b.world a).Reliable sh.cache.stock →
        (b.world a).Reliable sh'.cache.stock ∧ b.Reports a m r) := by
  obtain ⟨name, s', traces, rfl⟩ := reportModule_ok h
  have types (e) (he : e ∈ m.exports) (x) (hmem : x ∈ e.kind.types) : x ∈ m.exported :=
    List.mem_flatMap.mpr ⟨e, he, hmem⟩
  have start : PlanState.Between (b.world a) I tys ⟨sh, .new true⟩ := PlanState.between_new hsh
  have grown : sh.arena.Within s'.shared.arena ∧ s'.Between (b.world a) I tys := by
    obtain ⟨within, between, -⟩ := traces.forall₂ (A := fun s => s.shared.arena) (t := a)
      (K := fun _ => True) (Q := fun _ _ => True)
      (fun e he _ _ _ hrun hs => outcomeOf_grows ha hI hs (fun x hm => hx x (types e he x hm)) hrun)
      (fun _ _ _ _ _ _ _ _ _ => ⟨trivial, trivial⟩) start
    exact ⟨within, between⟩
  obtain ⟨within, between⟩ := grown
  refine ⟨within, ?_, fun hsa hfits hk => ?_⟩
  · exact ⟨between.begins.sound, between.begins.spans, between.begins.has, idle_new true,
      between.begins.heeds⟩
  · have hw : (b.world a).Ready := ⟨ha, hsh.spans.within (within.trans hsa)⟩
    have start' : PlanState.Between (b.world a) I m.exported ⟨sh, .new true⟩ :=
      PlanState.between_new ⟨hsh.sound, hsh.spans, fun x hm => hsh.has x (hx x hm), idle_new true, hsh.heeds⟩
    obtain ⟨-, -, gives⟩ := traces.forall₂ (A := fun s => s.shared.arena)
      (K := fun s => b.Fits a m s.shared.cache ∧
        s.Knows (b.world a) ((b.world a).Reached m.exported)) (Q := b.StandsAlone a m)
      (fun e he _ _ _ hrun hs => outcomeOf_grows ha hI hs (types e he) hrun)
      (fun e he o s s' hrun hs hsa hk => by
        have hgrow := (outcomeOf_grows ha hI hs (types e he) hrun).1
        obtain ⟨fits, knows, isolated⟩ := outcomeOf_isolated hw hs (types e he) hk.1 hk.2 hrun
          (hgrow.trans hsa) hsa
        obtain ⟨declaration, settled⟩ := outcome_settled hrun
        exact ⟨⟨fits, knows⟩, declaration, settled, isolated⟩) start'
    obtain ⟨⟨-, knows⟩, all⟩ := gives hsa ⟨hfits, hk.knows _⟩
    exact ⟨knows.reliable, name, all⟩

/-! ### At once -/

theorem reportAmong_ok {found : Cache} {arriving : List (List Offer)}
    (h : b.reportAmong d found arriving m sh = (.ok r, sh')) :
    ∃ left, b.reportModule d m { sh with cache := { found with incoming := arriving } } =
      (.ok r, left) ∧ sh' = { left with cache := sh.cache.absorb left.cache } := by
  rcases hrun : b.reportModule d m { sh with cache := { found with incoming := arriving } } with
    ⟨r', left⟩
  cases (reportAmong_run hrun).symm.trans h
  exact ⟨left, rfl, rfl⟩

/-- A module that is analysed at once with others, from a cache that all of them found. -/
theorem reportAmong_stands {found : Cache} {arriving : List (List Offer)} (ha : a.Sound)
    (hsh : b.Idle a Cache.Quiet tys sh) (hx : ∀ x ∈ m.exported, x ∈ tys)
    (h : b.reportAmong d found arriving m sh = (.ok r, sh')) :
    sh.arena.Within sh'.arena ∧ b.Idle a Cache.Quiet tys sh' ∧ (sh'.arena.Within a →
      b.Fits a m { found with incoming := arriving } → (b.world a).Reliable found.stock →
      (b.world a).Reliable sh.cache.stock →
        (b.world a).Reliable sh'.cache.stock ∧ b.Reports a m r) := by
  obtain ⟨left, hrun, rfl⟩ := reportAmong_ok h
  have start : b.Idle a (fun _ => True) tys
      { sh with cache := { found with incoming := arriving } } :=
    ⟨hsh.sound, hsh.spans, hsh.has, idle_new true, trivial⟩
  obtain ⟨within, idle, stands⟩ := reportModule_stands ha heeds_any start hx hrun
  have quiet : (sh.cache.absorb left.cache).Quiet := Cache.absorb_incoming.trans hsh.heeds
  refine ⟨within, ⟨idle.sound, idle.spans, idle.has, idle_new true, quiet⟩,
    fun hsa hfits hfound hk => ?_⟩
  obtain ⟨reliable, reports⟩ := stands hsa hfits hfound
  exact ⟨hk.absorb reliable, reports⟩

/-- What arrives for each of the modules that are analysed at once fits. -/
def Meets (b : Batch) (a : Arena) (found : Cache) (meanwhile : Meanwhile)
    (modules : List Module) : Prop :=
  ∀ i m, modules[i]? = some m → b.Fits a m { found with incoming := meanwhile i }

/-! ### All of them -/

theorem reportAll_ok (h : b.reportAll d meanwhile modules sh = (.ok report, sh')) :
    (b.options.parallel = false ∧ Traces (b.reportModule d) modules sh report.modules sh') ∨
      b.options.parallel = true ∧
        Traces (fun p => b.reportAmong d sh.cache (meanwhile p.2) p.1) modules.zipIdx sh
          report.modules sh' := by
  cases hp : b.options.parallel with
  | false =>
      rw [reportAll_inOrder hp] at h
      obtain ⟨reports, sh₁, hrun, h⟩ := bind_eq_ok h
      cases h
      exact .inl ⟨rfl, mapM_eq_ok hrun⟩
  | true =>
      rw [reportAll_atOnce hp] at h
      obtain ⟨reports, sh₁, hrun, h⟩ := bind_eq_ok h
      cases h
      exact .inr ⟨rfl, mapM_eq_ok hrun⟩

/-- Positions play no part in what holds of each module and its report. -/
theorem forall₂_zipIdx {Q : Module → ModuleOutcomes → Prop} {rs : List ModuleOutcomes}
    (h : List.Forall₂ (fun p => Q p.1) modules.zipIdx rs) : List.Forall₂ Q modules rs := by
  have names : modules = modules.zipIdx.map Prod.fst := (List.zipIdx_map_fst ..).symm
  rw [names]
  exact List.forall₂_map_left_iff.mpr h

/-- All modules, in either way. -/
theorem reportAll_stands (ha : a.Sound) (hsh : b.Idle a Cache.Quiet [] sh)
    (hx : ∀ m ∈ modules, ∀ x ∈ m.exported, sh.arena.Has x)
    (h : b.reportAll d meanwhile modules sh = (.ok report, sh')) :
    sh.arena.Within sh'.arena ∧ b.Idle a Cache.Quiet [] sh' ∧ (sh'.arena.Within a →
      (b.options.parallel = true → b.Meets a sh.cache meanwhile modules) →
      (b.world a).Reliable sh.cache.stock →
        (b.world a).Reliable sh'.cache.stock ∧
          List.Forall₂ (b.Reports a) modules report.modules) := by
  have types (m) (hm : m ∈ modules) (x) (hmem : x ∈ m.exported) :
      x ∈ modules.flatMap Module.exported := List.mem_flatMap.mpr ⟨m, hm, hmem⟩
  have start : b.Idle a Cache.Quiet (modules.flatMap Module.exported) sh := by
    refine ⟨hsh.sound, hsh.spans, fun x hmem => ?_, idle_new true, hsh.heeds⟩
    obtain ⟨m, hm, hmem⟩ := List.mem_flatMap.mp hmem
    exact hx m hm x hmem
  have dismiss (h : b.Idle a Cache.Quiet (modules.flatMap Module.exported) sh') :
      b.Idle a Cache.Quiet [] sh' :=
    ⟨h.sound, h.spans, fun x hx => absurd hx List.not_mem_nil, h.env, h.heeds⟩
  rcases reportAll_ok h with ⟨hp, traces⟩ | ⟨hp, traces⟩
  · obtain ⟨within, idle, stands⟩ := traces.forall₂ (A := Shared.arena) (t := a)
      (K := fun sh => (b.world a).Reliable sh.cache.stock) (Q := b.Reports a)
      (fun m hm _ _ _ hrun hs =>
        have stands := reportModule_stands ha heeds_quiet hs (types m hm) hrun
        ⟨stands.1, stands.2.1⟩)
      (fun m hm _ _ _ hrun hs hsa hk =>
        (reportModule_stands ha heeds_quiet hs (types m hm) hrun).2.2 hsa
          (fits_quiet hs.heeds) hk) start
    exact ⟨within, dismiss idle, fun hsa _ hk => stands hsa hk⟩
  · have mem (p) (hmem : p ∈ modules.zipIdx) : modules[p.2]? = some p.1 :=
      List.mem_zipIdx_iff_getElem?.mp hmem
    have among (p) (hmem : p ∈ modules.zipIdx) : ∀ x ∈ p.1.exported,
        x ∈ modules.flatMap Module.exported := types p.1 (List.mem_of_getElem? (mem p hmem))
    obtain ⟨within, idle, -⟩ := traces.forall₂ (A := Shared.arena) (t := a)
      (K := fun _ => True) (Q := fun _ _ => True)
      (fun p hmem _ _ _ hrun hs =>
        have stands := reportAmong_stands ha hs (among p hmem) hrun
        ⟨stands.1, stands.2.1⟩)
      (fun _ _ _ _ _ _ _ _ _ => ⟨trivial, trivial⟩) start
    refine ⟨within, dismiss idle, fun hsa hmeets hk => ?_⟩
    obtain ⟨-, -, stands⟩ := traces.forall₂ (A := Shared.arena) (t := a)
      (K := fun sh => (b.world a).Reliable sh.cache.stock) (Q := fun p => b.Reports a p.1)
      (fun p hmem _ _ _ hrun hs =>
        have stands := reportAmong_stands ha hs (among p hmem) hrun
        ⟨stands.1, stands.2.1⟩)
      (fun p hmem _ _ _ hrun hs hsa hk' =>
        (reportAmong_stands ha hs (among p hmem) hrun).2.2 hsa
          (hmeets hp p.2 p.1 (mem p hmem)) hk hk') start
    obtain ⟨reliable, all⟩ := stands hsa hk
    exact ⟨reliable, forall₂_zipIdx all⟩

/-! ## Again and again -/

/-- What a batch may come to share, over an arena that is `a` in the end: it opens with an empty
cache, and analyses modules again and again. In between, types are added to the arena. -/
inductive Comes (b : Batch) (a : Arena) : Shared → Prop
  | opens {c : Arena} {supply : Nat} : c.Sound → b.catalog.Over c → Comes b a ⟨c, supply, .empty⟩
  | grows {sh : Shared} {c : Arena} : Comes b a sh → sh.arena.Within c → c.Sound →
      Comes b a { sh with arena := c }
  | analyses {sh sh' : Shared} {modules : List Module} {d : Nat} {meanwhile : Meanwhile}
      {report : Report} : Comes b a sh → (∀ m ∈ modules, ∀ x ∈ m.exported, sh.arena.Has x) →
      (b.options.parallel = true → b.Meets a sh.cache meanwhile modules) →
      b.reportAll d meanwhile modules sh = (.ok report, sh') → Comes b a sh'

theorem Comes.idle (ha : a.Sound) (h : b.Comes a sh) : b.Idle a Cache.Quiet [] sh := by
  induction h with
  | opens hc hover =>
      exact ⟨hc, hover, fun x hx => absurd hx List.not_mem_nil, idle_new true, rfl⟩
  | grows _ hsc hc ih =>
      exact ⟨hc, ih.spans.within hsc, fun x hx => absurd hx List.not_mem_nil, ih.env, ih.heeds⟩
  | analyses _ hx _ hrun ih => exact (reportAll_stands ha ih hx hrun).2.1

/-- Between two analyses the cache is reliable. -/
theorem Comes.reliable (ha : a.Sound) (h : b.Comes a sh) :
    sh.arena.Within a → (b.world a).Reliable sh.cache.stock := by
  induction h with
  | opens => exact fun _ => reliable_empty
  | grows _ hsc _ ih => exact fun hca => ih (hsc.trans hca)
  | analyses h hx hmeets hrun ih =>
      intro hsa
      obtain ⟨within, -, stands⟩ := reportAll_stands ha (h.idle ha) hx hrun
      exact (stands hsa hmeets (ih (within.trans hsa))).1

/-- The report lists modules and exports in their order, and each outcome stands by itself,
whatever the batch has analysed before and whichever exports fail; at once also, if what arrives
meanwhile fits. -/
theorem Comes.isolated (hB : b.Comes a sh) (hx : ∀ m ∈ modules, ∀ x ∈ m.exported, sh.arena.Has x)
    (hmeets : b.options.parallel = true → b.Meets a sh.cache meanwhile modules)
    (hrun : b.reportAll d meanwhile modules sh = (.ok report, sh')) (ha : a.Sound)
    (hsa : sh'.arena.Within a) : List.Forall₂ (b.Reports a) modules report.modules := by
  obtain ⟨within, -, stands⟩ := reportAll_stands ha (hB.idle ha) hx hrun
  exact (stands hsa hmeets (hB.reliable ha (within.trans hsa))).2

end Batch

/-! ## Two modules at once, with an export that fails -/

namespace Tree

/-- The arena with a record of a tree and of something that is not declared. -/
def grove : Arena :=
  (arena.push (.named ⟨"Tree", "nowhere"⟩ [])).push
    (.record [⟨"tree", ty, false, false⟩, ⟨"lost", ⟨8⟩, false, false⟩])

def lost : Export := ⟨"lost", .value ⟨9⟩⟩

def root : Export := ⟨"root", .value ty⟩

def unit : Module := ⟨"Tree", [], [lost, root]⟩

def wood : Module := ⟨"Wood", [], [root]⟩

def batch : Batch := ⟨catalog, .standard⟩

/-- The first module finds the body of trees in the midst of its work, and what was made of a
scalar. -/
def meanwhile : Batch.Meanwhile := fun i =>
  if i = 0 then [[], [.converter Scalar.int.id .identity, .body ty body]] else []

def analysed : Except Halt Report × Shared :=
  batch.reportAll 12 meanwhile [unit, wood] ⟨grove, 0, .empty⟩

/-- A planner in the grove that works alone. -/
def lone (x : TyId) : Except Halt Converter × PlanState :=
  planWithin catalog .standard 12 x (blank grove)

set_option maxRecDepth 2000 in
theorem sound_grove : grove.Sound := by decide

theorem lone_spec : ((lone ty).1 = .ok converter ∧ (lone ty).2.shared.arena = grove ∧
      (lone ty).2.planner.fixpoints = ⟨[(ty, body)]⟩) ∧
    (lone Scalar.int.id).1 = .ok .identity ∧ (lone Scalar.int.id).2.shared.arena = grove := by
  decide +kernel

theorem alone {x : TyId} {c : Converter} (hx : grove.Has x) (h : (lone x).1 = .ok c)
    (ha : (lone x).2.shared.arena = grove) :
    (batch.world grove).Alone x c (lone x).2.planner.fixpoints :=
  ⟨hx, 12, (lone x).2, Prod.ext h rfl, ha, rfl⟩

theorem meets : batch.Meets grove .empty meanwhile [unit, wood] := by
  have alone_ty : (batch.world grove).Alone ty converter ⟨[(ty, body)]⟩ :=
    lone_spec.1.2.2 ▸ alone (by decide) lone_spec.1.1 lone_spec.1.2.1
  have alone_int := alone (x := Scalar.int.id) (by decide) lone_spec.2.1 lone_spec.2.2
  intro i m hm
  match i, hm with
  | 0, hm =>
      refine .converter alone_int rfl (fun u hu => ?_) (fun h => ?_)
        (.body alone_ty (d := body) ?_ ?_ rfl .done)
      · cases hu
      · exact not_cyclic_of_leaf (t := .scalar .int) rfl rfl h.1
      all_goals decide
  | 1, _ => exact .done

end Tree

/-- An export that fails, then one that has a plan, while the same type is planned in another
module. -/
theorem Batch.Comes.isolated_tree :
    ∃ o o' o'', Tree.analysed.1 = .ok ⟨[⟨"Tree", [o, o']⟩, ⟨"Wood", [o'']⟩]⟩ ∧
      o.isOk = false ∧ o'.isOk = true ∧
      Tree.batch.StandsAlone Tree.grove Tree.unit Tree.lost o ∧
      Tree.batch.StandsAlone Tree.grove Tree.unit Tree.root o' ∧
      Tree.batch.StandsAlone Tree.grove Tree.wood Tree.root o'' := by
  have oks : Tree.analysed.1.map (fun r => r.outcomes.map Outcome.isOk) =
      .ok [false, true, true] := by
    decide +kernel
  have same : Tree.analysed.2.arena = Tree.grove := by decide +kernel
  have comes : Tree.batch.Comes Tree.grove ⟨Tree.grove, 0, .empty⟩ :=
    .opens Tree.sound_grove (by decide)
  have has : ∀ m ∈ [Tree.unit, Tree.wood], ∀ x ∈ m.exported, Tree.grove.Has x := by decide
  rcases hrun : Tree.analysed with ⟨h | report, sh⟩
  · rw [hrun] at oks
    cases oks
  rw [hrun] at oks same
  have stands := Batch.Comes.isolated comes has (fun _ => Tree.meets) hrun Tree.sound_grove
    (same ▸ .refl _)
  cases report with
  | mk modules =>
      obtain ⟨⟨name, outcomes⟩, rest, ⟨rfl, all⟩, hrest, rfl⟩ := List.forall₂_cons_left_iff.mp stands
      obtain ⟨⟨name, others⟩, none, ⟨rfl, all'⟩, hnone, rfl⟩ :=
        List.forall₂_cons_left_iff.mp hrest
      obtain rfl := List.forall₂_nil_left_iff.mp hnone
      obtain ⟨o, os, ho, tail, rfl⟩ := List.forall₂_cons_left_iff.mp all
      obtain ⟨o', os', ho', tail', rfl⟩ := List.forall₂_cons_left_iff.mp tail
      obtain rfl := List.forall₂_nil_left_iff.mp tail'
      obtain ⟨o'', os'', ho'', tail'', rfl⟩ := List.forall₂_cons_left_iff.mp all'
      obtain rfl := List.forall₂_nil_left_iff.mp tail''
      have oks : [o.isOk, o'.isOk, o''.isOk] = [false, true, true] := Except.ok.inj oks
      simp only [List.cons.injEq, and_true] at oks
      exact ⟨o, o', o'', rfl, oks.1, oks.2.1, ho, ho', ho''⟩

/-! ## Two modules on one cycle -/

namespace Pair

def unitLeft : Module := ⟨"Left", [], [⟨"x", .value left⟩]⟩

def unitRight : Module := ⟨"Right", [], [⟨"y", .value right⟩]⟩

def batch : Batch := ⟨world.catalog, .standard⟩

/-- The first module is overtaken by the second. -/
def overtaken : Except Halt Report × Shared :=
  batch.reportAll 12 (fun i => if i = 0 then hasty else []) [unitLeft, unitRight]
    ⟨arena, 0, .empty⟩

/-- A new batch for this module. -/
def apart (m : Module) : Except Halt Report × Shared :=
  batch.reportAll 12 .nothing [m] ⟨arena, 0, .empty⟩

/-- The plan of the first module's export. -/
def planLeft (ran : Except Halt Report × Shared) : Option Plan :=
  ran.1.toOption.bind fun r => r.plan? ⟨"Left", "x"⟩

/-- What the second module shares while the first one is between its two turns is what it
always shares, and all of it is right. Yet the first module's export has another plan than
alone. -/
theorem hasty_batch :
    (Fitting world ∅ (bodied .empty) hasty.flatten ∧
      ((apart unitRight).2.cache.body? left).map content = some (body 0 "b" right).content ∧
      ((apart unitRight).2.cache.body? right).map content = some (body 0 "a" left).content ∧
      ((apart unitRight).2.cache.converter? right).map content =
        some (converter 0 right).content) ∧
    ∃ plan plan', planLeft overtaken = some plan ∧ planLeft (apart unitLeft) = some plan' ∧
      plan.sameContent plan' = false := by
  refine ⟨⟨hasty_fits, by decide +kernel⟩, ?_⟩
  have differ : ((planLeft overtaken).bind fun p => (planLeft (apart unitLeft)).map p.sameContent) =
      some false := by
    decide +kernel
  obtain ⟨plan, hp, hq⟩ := Option.bind_eq_some_iff.mp differ
  obtain ⟨plan', hp', hne⟩ := Option.map_eq_some_iff.mp hq
  exact ⟨plan, plan', hp, hp', hne⟩

end Pair

end Marshal
