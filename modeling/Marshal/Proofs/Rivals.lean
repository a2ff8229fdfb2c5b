import Marshal.Proofs.Portions
import Marshal.Proofs.Sessions

/-!
# Planners at work at the same time

While a planner is at work, others may share what they have planned. A type that is
planned with a wrong guess leaves wrong bodies in the planner's table until the second
turn comes by again. If another planner shares a converter in between, the second turn
takes that one instead, but the wrong body stays, as the table has one already.

This can only happen to recursive types, and only by a converter of a type that is on a
cycle with them. So if the others share no converter of a type that is on a cycle and
that the call leads to, whatever else they share and whenever they do, a call comes to
what it comes to alone, and the table and the cache agree on all bodies that the answer
needs (`Session.Comes.undisturbed`).
-/

namespace Marshal

open Converter Planner PlanM World Relation

/-! ## What other planners add -/

namespace World

/-- The cache gains right entries, bodies before the converters that need them, and no
converter of the types to be shunned. -/
structure Gains (w : World) (shun : Set TyId) (k k' : Stock) : Prop where
  bodies : ∀ u, k'.bodies u = k.bodies u ∨
    k.bodies u = none ∧ ∃ c, k'.bodies u = some c ∧ w.Body u c
  converters : ∀ x, k'.converters x = k.converters x ∨
    k.converters x = none ∧ x ∉ shun ∧
      (∃ c, k'.converters x = some c ∧ w.Good x ∧ w.Canon x c) ∧
        ∀ u, w.Reach x u → w.Recursive u → w.Converts u → k'.bodies u ≠ none

/-- The types on cycles that these types lead to. -/
def Knots (w : World) (tys : List TyId) : Set TyId :=
  {x | w.Cyclic x ∧ ∃ y ∈ tys, w.Reach y x}

section Gains

variable {w : World} {shun : Set TyId} {k k' k'' : Stock} {u : TyId}

theorem Gains.refl (w : World) (shun : Set TyId) (k : Stock) : w.Gains shun k k :=
  ⟨fun _ => .inl rfl, fun _ => .inl rfl⟩

theorem Gains.bodies_mono (h : w.Gains shun k k') (hu : k.bodies u ≠ none) :
    k'.bodies u ≠ none := by
  rcases h.bodies u with hu' | ⟨hn, -⟩
  · rwa [hu']
  · exact absurd hn hu

theorem Gains.converters_mono (h : w.Gains shun k k') (hu : k.converters u ≠ none) :
    k'.converters u ≠ none := by
  rcases h.converters u with hu' | ⟨hn, -⟩
  · rwa [hu']
  · exact absurd hn hu

theorem Gains.trans (h : w.Gains shun k k') (h' : w.Gains shun k' k'') :
    w.Gains shun k k'' where
  bodies u := by
    rcases h'.bodies u with hu | ⟨hn, hnew⟩
    · rw [hu]
      exact h.bodies u
    · rcases h.bodies u with hu | ⟨hn', _, hu, -⟩
      · exact .inr ⟨hu.symm.trans hn, hnew⟩
      · cases hu.symm.trans hn
  converters x := by
    rcases h'.converters x with hx | ⟨hn, hnew⟩
    · rcases h.converters x with hx' | ⟨hn, hshun, ⟨c, hc, hgood⟩, hbodies⟩
      · exact .inl (hx.trans hx')
      · exact .inr ⟨hn, hshun, ⟨c, hx.trans hc, hgood⟩, fun u hxu hrec hconv =>
          h'.bodies_mono (hbodies u hxu hrec hconv)⟩
    · rcases h.converters x with hx | ⟨hn', -, ⟨_, hc, -⟩, -⟩
      · exact .inr ⟨hx.symm.trans hn, hnew⟩
      · cases hc.symm.trans hn

/-- Planners that shun the cycles of some types are fair to a planner that is asked for
these. -/
theorem fair_gains {R : Set TyId} (hR : ∀ x ∈ R, w.Cyclic x → x ∈ shun) :
    w.Fair (Seen R (w.Gains shun)) where
  vouching := by
    rintro _ _ ⟨l, l', h, rfl, rfl⟩ hv x c hx
    obtain ⟨hxR, hx⟩ := Contents.on_eq_some.mp hx
    rcases h.converters x with hx' | ⟨-, -, ⟨d, hd, hright⟩, -⟩
    · exact hv x c (Contents.on_eq_some.mpr ⟨hxR, hx' ▸ hx⟩)
    · cases hx.symm.trans hd
      exact hright
  acyclic := {
    grows := by
      rintro _ _ ⟨l, l', h, rfl, rfl⟩ x hx
      obtain ⟨hxR, hx⟩ := Contents.on_ne_none.mp hx
      exact Contents.on_ne_none.mpr ⟨hxR, h.converters_mono hx⟩
    adds := by
      rintro _ _ ⟨l, l', h, rfl, rfl⟩ x hx
      obtain ⟨hxR, hx⟩ := Contents.on_ne_none.mp hx
      rcases h.converters x with hx' | ⟨-, hshun, -⟩
      · exact .inl (Contents.on_ne_none.mpr ⟨hxR, hx' ▸ hx⟩)
      · exact .inr fun hcyclic => hshun (hR x hxR hcyclic) }
  supplies := by
    rintro _ _ ⟨l, l', h, rfl, rfl⟩ hs
    refine ⟨fun u c hc hu => ?_, fun x hx u hxu hrec hconv => ?_⟩
    · rcases h.bodies u with hu' | ⟨-, d, hd, hbody⟩
      · exact hs.bodies u c (hu'.symm.trans hc) hu
      · cases hc.symm.trans hd
        exact hbody
    · obtain ⟨hxR, hx⟩ := Contents.on_ne_none.mp hx
      rcases h.converters x with hx' | ⟨-, -, -, hbodies⟩
      · refine h.bodies_mono (hs.closed x ?_ u hxu hrec hconv)
        exact Contents.on_ne_none.mpr ⟨hxR, hx' ▸ hx⟩
      · exact hbodies u hxu hrec hconv
  bodies := by
    rintro _ _ ⟨l, l', h, rfl, rfl⟩ u hu
    exact h.bodies_mono hu

end Gains

/-! ## Right entries -/

/-- A new planner without a cache makes this of the type, and has this table then. The
arena has all that it needs. -/
def Alone (w : World) (x : TyId) (c : Converter) (t : FixTable) : Prop :=
  w.arena.Has x ∧ ∃ depth s, planWithin w.catalog w.options depth x (blank w.arena) = (.ok c, s) ∧
    s.shared.arena = w.arena ∧ s.planner.fixpoints = t

section Alone

variable {w : World} {x u : TyId} {c d : Converter} {t : FixTable}

theorem Alone.calm (hw : w.Ready) (h : w.Alone x c t) : w.Good x ∧ w.Canon x c.content ∧
    ∃ m, w.Calm false m ∧ t.contents = m.bodies ∧ ∀ v ∈ c.targets, m.bodies v ≠ none := by
  obtain ⟨hx, depth, s, hrun, harena, rfl⟩ := h
  have begins : Begins w Cache.Quiet (World.idle false) (Call.type x).types (blank w.arena) :=
    ⟨hw.sound, hw.spans, fun y hy => List.mem_singleton.mp hy ▸ hx, idle_new false, rfl⟩
  have hm₀ : w.Calm false (blank w.arena).memory := calm_blank
  have asked : Calm.Asked (.visit x) := trivial
  obtain ⟨-, -, -, hplans⟩ := call_ran hw.sound heeds_quiet rfl begins (run_type hrun)
  obtain ⟨out, hp, told, -⟩ := hplans (harena ▸ .refl _) (by simp)
  cases out with
  | error f => cases told
  | ok result =>
      obtain ⟨cs, U⟩ := result
      obtain ⟨_, ha, c', rfl, rfl⟩ := told
      cases ha
      obtain ⟨-, hres⟩ := hm₀.result fair_eq asked hp
      cases hres with
      | cons hx _ =>
          refine ⟨hx.1, hx.2, s.memory, hm₀.plans fair_eq asked hp, rfl, fun v hv => ?_⟩
          exact hm₀.covered fair_eq asked hp _ (List.mem_singleton_self _) v
            ((targets_strip c).symm ▸ hv)

/-- A body that the planner needs for its result is right. -/
theorem Alone.body (hw : w.Ready) (h : w.Alone x c t) (hu : u ∈ t.needed c.targets)
    (hd : t.find? u = some d) : w.Body u d.content := by
  obtain ⟨hgood, hcanon, m, hm, ht, hb⟩ := h.calm hw
  obtain ⟨v, hv, hl⟩ := (FixTable.mem_needed t).mp hu
  rw [ht] at hl
  have same : (bare c.content).targets = c.targets := targets_strip c
  obtain ⟨-, b, hmb, hbody⟩ := hm.body hgood hcanon (same ▸ hb) (same ▸ hv) hl
  rw [← ht, FixTable.contents, hd] at hmb
  cases hmb
  exact hbody

/-- All bodies below the type are needed. -/
theorem Alone.needs (hw : w.Ready) (h : w.Alone x c t) (hxu : w.Reach x u) (hrec : w.Recursive u)
    (hconv : w.Converts u) : u ∈ t.needed c.targets := by
  obtain ⟨hgood, hcanon, m, hm, ht, hb⟩ := h.calm hw
  have same : (bare c.content).targets = c.targets := targets_strip c
  obtain ⟨v, hv, hvu⟩ := hcanon.leads hrec hconv hxu hgood
  rw [FixTable.mem_needed, ht]
  refine ⟨v, same ▸ hv, ?_⟩
  clear hxu hrec hconv
  induction hvu with
  | refl => exact .refl
  | tail _ hstep ih =>
      obtain ⟨b, hbody, hmem⟩ := hstep
      obtain ⟨-, b', hb', hbody'⟩ := hm.body hgood hcanon (same ▸ hb) hv ih
      cases hbody.unique hbody'
      exact .tail ih ⟨_, hb', hmem⟩

end Alone

/-! ## Schedules -/

/-- Offers of entries that a planner which works alone would come to. A converter is
offered when all bodies that it needs are known to be in the cache, and not at all if its
type is to be shunned. -/
inductive Fitting (w : World) (shun : Set TyId) : Set TyId → List Offer → Prop
  | done {known : Set TyId} : Fitting w shun known []
  | body {known : Set TyId} {offers : List Offer} {x u : TyId} {b c d : Converter} {t : FixTable} :
      w.Alone x c t → u ∈ t.needed c.targets → t.find? u = some d → b.content = d.content →
      Fitting w shun (insert u known) offers → Fitting w shun known (.body u b :: offers)
  | converter {known : Set TyId} {offers : List Offer} {x : TyId} {b c : Converter}
      {t : FixTable} : w.Alone x c t → b.content = c.content →
      (∀ u ∈ t.needed c.targets, u ∈ known) → x ∉ shun →
      Fitting w shun known offers → Fitting w shun known (.converter x b :: offers)

/-- The types whose bodies the cache has. -/
def bodied (k : Cache) : Set TyId := {u | k.body? u ≠ none}

/-- What is going to arrive fits. -/
def Expects (w : World) (shun : Set TyId) (k : Cache) : Prop :=
  w.Fitting shun (bodied k) k.incoming.flatten

section Schedules

variable {w : World} {shun known known' : Set TyId} {offers : List Offer} {o : Offer} {k : Cache}
  {u : TyId}

theorem Fitting.mono (h : w.Fitting shun known offers) :
    ∀ {known'}, known ⊆ known' → w.Fitting shun known' offers := by
  induction h with
  | done => exact fun _ => .done
  | body hx hu hd hb _ ih => exact fun hk => .body hx hu hd hb (ih (Set.insert_subset_insert hk))
  | converter hx hb hneeds hshun _ ih =>
      exact fun hk => .converter hx hb (fun u hu => hk (hneeds u hu)) hshun (ih hk)

theorem mem_bodied : u ∈ bodied k ↔ k.stock.bodies u ≠ none := by
  show k.body? u ≠ none ↔ (k.body? u).map content ≠ none
  simp

/-- The first offer is a gain, and the others still fit. -/
theorem Fitting.receive (hw : w.Ready) (h : w.Fitting shun (bodied k) (o :: offers)) :
    w.Gains shun k.stock (k.receive o).stock ∧ w.Fitting shun (bodied (k.receive o)) offers := by
  cases h with
  | @body _ _ x u b c d t hx hu hd hb hrest =>
      have bodies : (k.receive (.body u b)).stock.bodies = k.stock.bodies.keep u b.content :=
        lookup_settle k.bodies u b
      refine ⟨⟨fun v => ?_, fun x => .inl rfl⟩, hrest.mono fun v hv => ?_⟩
      · rw [bodies]
        by_cases hvu : v = u
        · subst hvu
          rw [Contents.keep_self]
          cases hk : k.stock.bodies v with
          | some c => exact .inl rfl
          | none => exact .inr ⟨rfl, _, rfl, hb ▸ hx.body hw hu hd⟩
        · exact .inl (Contents.keep_of_ne hvu)
      · rw [mem_bodied, bodies]
        rcases hv with rfl | hv
        · simp
        · exact Contents.extends_keep.ne_none (mem_bodied.mp hv)
  | @converter _ _ x b c t hx hb hneeds hshun hrest =>
      have converters : (k.receive (.converter x b)).stock.converters =
          k.stock.converters.keep x b.content := lookup_settle k.converters x b
      refine ⟨⟨fun u => .inl rfl, fun y => ?_⟩, hrest⟩
      rw [converters]
      by_cases hyx : y = x
      · subst hyx
        rw [Contents.keep_self]
        cases hk : k.stock.converters y with
        | some c => exact .inl rfl
        | none =>
            obtain ⟨hgood, hcanon, -⟩ := hx.calm hw
            exact .inr ⟨rfl, hshun, ⟨_, rfl, hgood, hb ▸ hcanon⟩, fun u hyu hrec hconv =>
              mem_bodied.mp (hneeds u (hx.needs hw hyu hrec hconv))⟩
      · exact .inl (Contents.keep_of_ne hyx)

/-- A batch of offers. -/
theorem Fitting.receives (hw : w.Ready) : ∀ {batch : List Offer} {k : Cache},
    w.Fitting shun (bodied k) (batch ++ offers) →
      w.Gains shun k.stock (batch.foldl Cache.receive k).stock ∧
        w.Fitting shun (bodied (batch.foldl Cache.receive k)) offers
  | [], k, h => ⟨.refl w shun k.stock, h⟩
  | o :: batch, k, h => by
      obtain ⟨hgains, hrest⟩ := h.receive hw
      obtain ⟨hgains', hrest'⟩ := Fitting.receives hw hrest
      exact ⟨hgains.trans hgains', hrest'⟩

theorem incoming_receives : ∀ {batch : List Offer} {k : Cache},
    (batch.foldl Cache.receive k).incoming = k.incoming
  | [], _ => rfl
  | o :: batch, k => by
      rw [List.foldl_cons, incoming_receives]
      cases o <;> rfl

theorem heeds_expects (hw : w.Ready) : Heeds (w.Gains shun) (Expects w shun) where
  arrive {k} hk := by
    cases hin : k.incoming with
    | nil =>
        have same : k.arrive = k := by rw [Cache.arrive, hin]
        rw [same]
        exact ⟨.refl w shun k.stock, hk⟩
    | cons batch later =>
        have arrives : k.arrive = batch.foldl Cache.receive { k with incoming := later } := by
          rw [Cache.arrive, hin]
        have fits : w.Fitting shun (bodied { k with incoming := later })
            (batch ++ later.flatten) := by
          rw [Expects, hin] at hk
          exact hk
        obtain ⟨hgains, hrest⟩ := fits.receives hw
        rw [arrives]
        refine ⟨hgains, ?_⟩
        rw [Expects, incoming_receives]
        exact hrest
  offer hk _ _ := hk
  offerBody {k} hk ty c := by
    refine Fitting.mono hk fun u hu => ?_
    rw [mem_bodied] at hu ⊢
    have bodies : Cache.stock { k with bodies := (Cache.settle k.bodies ty c).2 } =
        ⟨k.stock.converters, k.stock.bodies.keep ty c.content⟩ :=
      congrArg (Stock.mk _) (lookup_settle k.bodies ty c)
    rw [bodies]
    exact Contents.extends_keep.ne_none hu

end Schedules

/-! ## What is in the cache after a call -/

section Cached

variable {w : World} {C : Set TyId} {rivals : Stock → Stock → Prop} {e : Env} {m m' : Memory}
  {x : TyId} {cs : List Assembly.Content} {U : Set TyId}

theorem Settles.settled {c d : Assembly.Content} (h : Settles rivals e m x c d m') :
    m'.settled x ≠ none := by
  cases h with
  | alone => simp
  | shared => simp

/-- A result that hangs on nothing is remembered. -/
theorem Plans.settled (h : w.Plans rivals e (.visit x) m (.ok (cs, U)) m') (hU : U = ∅) :
    m'.settled x ≠ none := by
  cases h with
  | remembered hs => simp [hs]
  | adopted => simp
  | settles _ _ _ hset => exact hset.settled
  | hangs _ _ hne => exact absurd hU hne.ne_empty

theorem Plans.cached (hq : w.Fair rivals) (hc : e.caching = true) :
    ∀ {ps : List Part} {m : Memory} {cs : List Assembly.Content} {U : Set TyId},
      w.Stands C e (.parts ps) m → w.Plans rivals e (.parts ps) m (.ok (cs, U)) m' → U = ∅ →
        ∀ p ∈ ps, m'.cache.converters p.ty ≠ none
  | [], _, _, _, _, _, _ => by simp
  | p :: ps, m, _, _, st, h, hU => by
      cases h with
      | someParts _ h h' =>
          obtain ⟨hU, hV⟩ := Set.union_empty_iff.mp hU
          have next := st.next hq h
          intro q hq'
          rcases List.mem_cons.mp hq' with rfl | hq'
          · exact h'.cache_grows hq _ (next.sane.shared hc _ (h.settled hU))
          · exact Plans.cached hq hc next h' hV q hq'

theorem Calm.cached (h : w.Calm true m) (hq : w.Fair rivals) {job : Job} (hj : Calm.Asked job)
    (hp : w.Plans rivals (idle true) job m (.ok (cs, U)) m') :
    ∀ x ∈ job.types, m'.cache.converters x ≠ none := by
  have hU := (h.result hq hj hp).1
  cases job with
  | layer => exact hj.elim
  | visit x =>
      intro y hy
      rw [List.mem_singleton.mp hy]
      exact (h.plans hq hj hp).sane.shared rfl x (hp.settled hU)
  | parts ps =>
      intro y hy
      obtain ⟨p, hp', rfl⟩ := List.mem_map.mp hy
      exact Plans.cached hq rfl (h.stands _) hp hU p hp'

/-- Below a type in the cache, the table and the cache have the same bodies. -/
theorem Calm.bodies_cached {k : Bool} {c : Assembly.Content} {t u : TyId} (h : w.Calm k m)
    (hx : w.Good x) (hc : w.Canon x c) (hcached : m.cache.converters x ≠ none)
    (hb : ∀ t ∈ (bare c).targets, m.bodies t ≠ none) (ht : t ∈ (bare c).targets)
    (hl : m.bodies.Leads t u) : m.bodies u ≠ none ∧ m.cache.bodies u = m.bodies u := by
  obtain ⟨hgood, b, hbu, hbody⟩ := h.body hx hc hb ht hl
  obtain ⟨hxt, hrest⟩ := hc.targets ht
  have below : w.Recursive u ∧ w.Converts u := by
    rcases ReflTransGen.cases_tail hl with rfl | ⟨v, -, b', hb', hmem⟩
    · exact hrest
    · exact (h.sane.aims v b' hb' u hmem).2
  have present := h.sane.supplies.closed x hcached u (hxt.trans (leads_reach h.sane.aims hl))
    below.1 below.2
  obtain ⟨b', hb'⟩ := Option.ne_none_iff_exists'.mp present
  cases (h.sane.supplies.bodies u b' hb' hgood).unique hbody
  exact ⟨by simp [hbu], hb'.trans hbu.symm⟩

end Cached

/-- What these types lead to. -/
def Reached (w : World) (tys : List TyId) : Set TyId := {x | ∃ y ∈ tys, w.Reach y x}

theorem closed_reached {w : World} {tys : List TyId} : w.Closed (w.Reached tys) :=
  fun _ ⟨y, hy, hyx⟩ _ e => ⟨y, hy, hyx.tail e⟩

end World

/-! ## A call among others -/

/-- Before each access to the cache, the next batch of these offers arrives. -/
def Shared.awaiting (sh : Shared) (schedule : List (List Offer)) : Shared :=
  { sh with cache := { sh.cache with incoming := schedule } }

section Calls

variable {S : Session} {p : Planner} {call : Call} {d i : Nat} {r : Except Halt Answer}
  {s : PlanState} {schedule : List (List Offer)}

/-- Whatever others do, the arena grows during a call. -/
theorem Session.Rests.grown {w : World} (hw : w.arena.Sound) (hS : S.Rests w.catalog)
    (hp : S.planners[i]? = some p) (hx : ∀ x ∈ call.types, S.shared.arena.Has x)
    (hrun : call.run w.catalog w.options d ⟨S.shared.awaiting schedule, p⟩ = (r, s)) :
    S.shared.arena.Within s.shared.arena := by
  have begins : Begins w (fun _ => True) (World.idle p.caching) call.types
      ⟨S.shared.awaiting schedule, p⟩ :=
    ⟨hS.sound, hS.spans, hx, hS.idle p (List.mem_of_getElem? hp), trivial⟩
  cases hj : call.job with
  | error f =>
      cases (run_refused_call hj).symm.trans hrun
      exact .refl _
  | ok job => exact (call_ran hw heeds_any hj begins hrun).2.1

/-- With a cache, the table has every body that an answer needs, and the cache has the same. -/
theorem World.Calm.table_cached {w : World} {rivals : Stock → Stock → Prop} {job : Job}
    {cs : List Assembly.Content} {U : Set TyId} {m m' : Memory} {t : FixTable} {k : Cache}
    {a : Answer} (hm : w.Calm true m) (fair : w.Fair rivals) (hj : call.job = .ok job)
    (hplans : w.Plans rivals (World.idle true) job m (.ok (cs, U)) m') (ht : t.contents = m'.bodies)
    (hk : k.stock.bodies = m'.cache.bodies) (ha : Tells call cs a) :
    ∀ u ∈ t.needed a.targets,
      ∃ c c', t.find? u = some c ∧ k.body? u = some c' ∧ c.content = c'.content := by
  intro u hu
  have asked := asked_of_job hj
  have covered := hm.covered fair asked hplans
  rw [FixTable.mem_needed, ht] at hu
  obtain ⟨v, hv, hl⟩ := hu
  obtain ⟨c, hc, hvc⟩ := (ha.mem_targets (length_of_plans hj hplans)).mp hv
  obtain ⟨x, hx, good, canon⟩ := exists_of_mem_right (hm.result fair asked hplans).2 hc
  obtain ⟨hne, same⟩ := (hm.plans fair asked hplans).bodies_cached good canon
    (hm.cached fair asked hplans x hx) (covered c hc) hvc hl
  obtain ⟨b, hb⟩ := Option.ne_none_iff_exists'.mp hne
  rw [hb, ← hk] at same
  rw [← ht] at hb
  obtain ⟨d, hd, rfl⟩ := Option.map_eq_some_iff.mp hb
  obtain ⟨d', hd', heq⟩ := Option.map_eq_some_iff.mp same
  exact ⟨d, d', hd, hd', heq.symm⟩

/-- A call of a planner while others share what they plan: it comes to what it comes to
alone, and the table agrees with the cache on all bodies that its answer needs. -/
theorem Session.Comes.undisturbed {catalog : Catalog} {options : Options}
    (hS : Comes catalog options S) (hp : S.planners[i]? = some p)
    (hx : ∀ x ∈ call.types, S.shared.arena.Has x)
    (hrun : call.run catalog options d ⟨S.shared.awaiting schedule, p⟩ = (r, s))
    (hr : r ≠ .error .outOfFuel) {b : Arena} (hb : b.Sound) (hsb : s.shared.arena.Within b)
    (hfits : Fitting ⟨catalog, options, b⟩ (Knots ⟨catalog, options, b⟩ call.types)
      (bodied S.shared.cache) schedule.flatten) :
    (∃ n, ∀ depth ≥ n, ∃ r' s', call.run catalog options depth (blank b) = (r', s') ∧
      SameOutcome r s.planner.fixpoints r' s'.planner.fixpoints) ∧
    (p.caching = true → ∀ a, r = .ok a → ∀ u ∈ s.planner.fixpoints.needed a.targets,
      ∃ c c', s.planner.fixpoints.find? u = some c ∧ s.shared.cache.body? u = some c' ∧
        c.content = c'.content) := by
  let w : World := ⟨catalog, options, b⟩
  have within := (Session.Rests.grown (w := w) hb hS.rests hp hx hrun).trans hsb
  have calm : S.Calm w := hS.calm hb within
  have hw : w.Ready := ⟨hb, calm.spans.within within⟩
  cases hj : call.job with
  | error f =>
      cases (run_refused_call (w := w) hj).symm.trans hrun
      refine ⟨⟨0, fun depth _ => ⟨.error (.fault f), blank b, run_refused_call (w := w) hj, rfl⟩⟩,
        fun _ a ha => ?_⟩
      cases ha
  | ok job =>
      have types : job.types = call.types := types_of_job hj
      have begins : Begins w (Expects w (w.Knots call.types)) (World.idle p.caching) call.types
          ⟨S.shared.awaiting schedule, p⟩ :=
        ⟨hS.rests.sound, hS.rests.spans, hx, hS.rests.idle p (List.mem_of_getElem? hp), hfits⟩
      obtain ⟨-, -, -, derived⟩ := call_ran hb (heeds_expects hw) hj begins hrun
      obtain ⟨out, hplans, told, -⟩ := derived hsb hr
      -- Only what the call leads to matters, and there the others are fair.
      have fair : w.Fair (Seen (w.Reached call.types) (w.Gains (w.Knots call.types))) :=
        fair_gains fun x hx hcyclic => ⟨hcyclic, hx⟩
      replace hplans := Plans.on closed_reached hplans fun x hx => ⟨x, types ▸ hx, .refl⟩
      have hm := (calm.planners p (List.mem_of_getElem? hp)).on (R := w.Reached call.types)
      refine ⟨hm.repeated hw fair hj hplans rfl told fun x hx' => within.has (hx x hx'),
        fun hcaching a hra => ?_⟩
      cases out with
      | error f => cases told; cases hra
      | ok result =>
          obtain ⟨a', rfl, ha⟩ := told
          cases hra
          rw [hcaching] at hm hplans
          exact hm.table_cached fair hj hplans rfl rfl ha

end Calls

/-! ## Two types on one cycle -/

theorem World.not_cyclic_of_leaf {w : World} {x : TyId} {t : Term} (ht : w.arena.term? x = some t)
    (hl : t.isLeaf = true) : ¬w.Cyclic x := by
  intro h
  obtain ⟨y, e, -⟩ := TransGen.head'_iff.mp h
  exact not_edge_of_leaf ht hl e

namespace Pair

def arena : Arena :=
  [.named ⟨"M", "left"⟩ [], .array ⟨5⟩, .named ⟨"M", "right"⟩ [], .array ⟨7⟩,
    .record [⟨"b", ⟨8⟩, false, false⟩], .record [⟨"a", ⟨6⟩, false, false⟩]].foldl
    (fun a t => (Arena.intern t a).2) .new

/-- The type `left` is `{b: array<right>}`. -/
def left : TyId := ⟨5⟩

/-- The type `right` is `{a: array<left>}`. -/
def right : TyId := ⟨7⟩

def world : World :=
  ⟨.ofDecls arena [⟨⟨"M", "left"⟩, 0, ⟨9⟩⟩, ⟨⟨"M", "right"⟩, 0, ⟨10⟩⟩], .standard, arena⟩

/-- The body of a record whose only field is an array of the type. -/
def body (stamp : Nat) (field : String) (ty : TyId) : Converter :=
  let slots : List RecordSlot := [⟨field, false⟩]
  .custom stamp
    (.sequence [.atField field (.mapArray (.recurse ty .forward)), .wrapRecord slots])
    (.sequence [.unwrapRecord slots, .atField field (.mapArray (.recurse ty .backward))])

/-- What stands for a recursive type. -/
def converter (stamp : Nat) (ty : TyId) : Converter :=
  .custom stamp (.recurse ty .forward) (.recurse ty .backward)

/-- A planner that works alone. -/
def lone (x : TyId) : Except Halt Converter × PlanState :=
  planWithin world.catalog world.options 12 x (blank world.arena)

def opened : Session := ⟨⟨arena, 0, .empty⟩, [.new true]⟩

/-- A call for `left`, with these offers of others. -/
def call (schedule : List (List Offer)) : Except Halt Answer × PlanState :=
  (Call.type left).run world.catalog world.options 12 ⟨opened.shared.awaiting schedule, .new true⟩

theorem call_eq (schedule : List (List Offer)) :
    (Call.type left).run world.catalog world.options 12
        ⟨opened.shared.awaiting schedule, .new true⟩ =
      ((call schedule).1, (call schedule).2) := rfl

theorem comes : Session.Comes world.catalog world.options opened := by
  refine .joins true (.opens ?_ ?_)
  · decide
  · decide

theorem alone {x : TyId} {c : Converter} (hx : arena.Has x) (h : (lone x).1 = .ok c)
    (ha : (lone x).2.shared.arena = arena) : world.Alone x c (lone x).2.planner.fixpoints :=
  ⟨hx, 12, (lone x).2, Prod.ext h rfl, ha, rfl⟩

/-- What planners come to that work alone. -/
theorem lone_spec :
    ((lone left).1 = .ok (converter 5 left) ∧ (lone left).2.shared.arena = arena ∧
      (lone left).2.planner.fixpoints =
        ⟨[(left, body 12 "b" right), (right, body 10 "a" left)]⟩) ∧
    ((lone right).1 = .ok (converter 5 right) ∧ (lone right).2.shared.arena = arena ∧
      (lone right).2.planner.fixpoints.needed (converter 5 right).targets = [right, left]) ∧
    (lone Scalar.int.id).1 = .ok .identity ∧ (lone Scalar.int.id).2.shared.arena = arena := by
  decide +kernel

theorem alone_left : world.Alone left (converter 5 left)
    ⟨[(left, body 12 "b" right), (right, body 10 "a" left)]⟩ :=
  lone_spec.1.2.2 ▸ alone (by decide) lone_spec.1.1 lone_spec.1.2.1

theorem alone_right : world.Alone right (converter 5 right) (lone right).2.planner.fixpoints :=
  alone (by decide) lone_spec.2.1.1 lone_spec.2.1.2.1

theorem needed_right : (lone right).2.planner.fixpoints.needed (converter 5 right).targets =
    [right, left] := lone_spec.2.1.2.2

theorem alone_int : world.Alone Scalar.int.id .identity (lone Scalar.int.id).2.planner.fixpoints :=
  alone (by decide) lone_spec.2.2.1 lone_spec.2.2.2

/-- Others share both bodies, and what they made of a scalar. -/
def polite : List (List Offer) :=
  [[], [.converter Scalar.int.id .identity, .body left (body 0 "b" right)], [],
    [.body right (body 0 "a" left)]]

theorem polite_fits : Fitting world (Knots world [left]) (bodied .empty) polite.flatten := by
  refine .converter alone_int rfl (fun u hu => ?_) (fun h => ?_)
    (.body alone_left (d := body 12 "b" right) ?_ ?_ rfl
      (.body alone_left (d := body 10 "a" left) ?_ ?_ rfl .done))
  · cases hu
  · exact not_cyclic_of_leaf (t := .scalar .int) rfl rfl h.1
  all_goals decide

/-- Others share the converter of `right` after a first turn has come by it. -/
def hasty : List (List Offer) :=
  [[], [], [], [], [.body left (body 0 "b" right), .body right (body 0 "a" left),
    .converter right (converter 0 right)]]

theorem hasty_fits : Fitting world ∅ (bodied .empty) hasty.flatten := by
  have known : ∀ u ∈ (lone right).2.planner.fixpoints.needed (converter 5 right).targets,
      u ∈ insert right (insert left (bodied .empty)) := by
    intro u hu
    rw [needed_right] at hu
    simp only [List.mem_cons, List.not_mem_nil, or_false] at hu
    exact hu.imp_right .inl
  refine .body alone_left (d := body 12 "b" right) ?_ ?_ rfl
    (.body alone_left (d := body 10 "a" left) ?_ ?_ rfl
      (.converter alone_right rfl known (Set.notMem_empty _) .done))
  all_goals decide

end Pair

/-- The planner of `left`, with the bodies of others arriving on its way. -/
theorem Session.Comes.undisturbed_pair :
    (∃ n, ∀ depth ≥ n, ∃ r' s', (Call.type Pair.left).run Pair.world.catalog Pair.world.options
        depth (blank Pair.arena) = (r', s') ∧
      SameOutcome (Pair.call Pair.polite).1 (Pair.call Pair.polite).2.planner.fixpoints r'
        s'.planner.fixpoints) ∧
    (true = true → ∀ a, (Pair.call Pair.polite).1 = .ok a →
      ∀ u ∈ (Pair.call Pair.polite).2.planner.fixpoints.needed a.targets,
        ∃ c c', (Pair.call Pair.polite).2.planner.fixpoints.find? u = some c ∧
          (Pair.call Pair.polite).2.shared.cache.body? u = some c' ∧ c.content = c'.content) := by
  have arena : (Pair.call Pair.polite).2.shared.arena = Pair.arena := by decide +kernel
  refine Session.Comes.undisturbed Pair.comes (i := 0) (p := .new true) rfl
    ?_ (Pair.call_eq Pair.polite) ?_ Pair.comes.rests.sound ?_ Pair.polite_fits
  · decide
  · decide +kernel
  · exact arena ▸ .refl _

/-- If nothing is shunned, others that share only what is right may leave a wrong body
behind. -/
theorem Pair.hasty_disturbs : Fitting Pair.world ∅ (bodied .empty) Pair.hasty.flatten ∧
    ((Pair.call Pair.hasty).2.planner.fixpoints.find? Pair.right).map content ≠
      ((Pair.lone Pair.left).2.planner.fixpoints.find? Pair.right).map content :=
  ⟨Pair.hasty_fits, by decide +kernel⟩

end Marshal
