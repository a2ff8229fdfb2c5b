import Marshal.Proofs.Course

/-!
# The judgement describes the planner

A run of the planner over a growing arena is a derivation of the judgement over
any later arena: `planWithin_ran`, by induction on the bound of the depth. First
come the accesses to the cache, then one lemma for each shape of work, which puts
the courses of the work inside it together.
-/

namespace Marshal

open Converter Planner PlanM World

/-! ## Accesses to the cache -/

section Accesses

variable {rivals : Stock → Stock → Prop} {I : Cache → Prop} {e : Env} {s s' : PlanState}

theorem content_settle (l : List (TyId × Converter)) (ty : TyId) (c : Converter) :
    (Cache.settle l ty c).1.content = ((l.lookup ty).map content).getD c.content := by
  unfold Cache.settle
  cases l.lookup ty <;> rfl

theorem lookup_settle (l : List (TyId × Converter)) (ty : TyId) (c : Converter) :
    (fun u => ((Cache.settle l ty c).2.lookup u).map content) =
      Contents.keep (fun u => (l.lookup u).map content) ty c.content := by
  funext u
  unfold Cache.settle Contents.keep
  cases h : l.lookup ty with
  | some d =>
      by_cases hu : u = ty
      · subst hu; simp [h]
      · simp [hu]
  | none =>
      by_cases hu : u = ty
      · subst hu; simp [h]
      · simp [hu, List.lookup_cons, beq_false_of_ne hu]

/-- The state with another cache. -/
def PlanState.caching (s : PlanState) (k : Cache) : PlanState :=
  { s with shared := { s.shared with cache := k } }

theorem onCache_run {α : Type} (f : Cache → α × Cache) (s : PlanState) :
    onCache f s = (.ok (f s.shared.cache).1, s.caching (f s.shared.cache).2) := rfl

theorem rests_caching (s : PlanState) (k : Cache) : s.Rests (s.caching k) :=
  ⟨rfl, rfl, rfl, rfl, id⟩

theorem modifyPlanner_run (f : Planner → Planner) (s : PlanState) :
    modifyPlanner f s = (.ok (), s.planning (f s.planner)) := rfl

theorem rests_setBody (s : PlanState) (ty : TyId) (c : Converter) :
    s.Rests (s.planning (s.planner.setBody ty c)) :=
  ⟨rfl, rfl, rfl, rfl, fun h => ⟨h.caching, h.pending, h.guesses, h.depth⟩⟩

theorem rests_remember (s : PlanState) (ty : TyId) (c : Converter) :
    s.Rests (s.planning (s.planner.remember ty c)) :=
  ⟨rfl, rfl, rfl, rfl, fun h => ⟨h.caching, h.pending, h.guesses, h.depth⟩⟩

theorem memory_setBody (s : PlanState) (ty : TyId) (c : Converter) :
    (s.planning (s.planner.setBody ty c)).memory = s.memory.setBody ty c.content := by
  simp only [PlanState.memory, PlanState.planning, Planner.setBody, FixTable.contents_insert]
  rfl

theorem memory_remember (s : PlanState) (ty : TyId) (c : Converter) :
    (s.planning (s.planner.remember ty c)).memory = s.memory.remember ty c.content := by
  simp only [PlanState.memory, PlanState.planning, Planner.remember, Memory.remember,
    Memory.mk.injEq, and_true]
  funext u
  by_cases hu : u = ty
  · subst hu; simp
  · rw [Contents.put_of_ne hu, List.lookup_cons, beq_false_of_ne hu]

theorem memory_caching (s : PlanState) (k : Cache) :
    (s.caching k).memory = s.memory.found k.stock := rfl

theorem planner_run (s : PlanState) : planner s = (.ok s.planner, s) := rfl

theorem shown_run (ty : TyId) (s : PlanState) :
    shown ty s = (.ok (s.shared.arena.text ty), s) := rfl

theorem fail_run {α : Type} (f : Fault) (s : PlanState) :
    (fail f : PlanM α) s = (.error (.fault f), s) := rfl

theorem pure_run {α : Type} (v : α) (s : PlanState) : (pure v : PlanM α) s = (.ok v, s) := rfl

/-- Taking over bodies is `Takes`. -/
theorem takeBodies_takes (hI : Heeds rivals I) : ∀ (turns : Nat) (stack : List TyId)
    {s s' : PlanState} {r : Except Halt Unit}, I s.shared.cache →
    takeBodies turns stack s = (r, s') →
    s.Rests s' ∧ I s'.shared.cache ∧ (r = .ok () → Takes rivals s.memory stack s'.memory true) ∧
      ∀ f, r = .error (.fault f) → (∃ shown, f = .unsupported shown bodyMissing) ∧
        Takes rivals s.memory stack s'.memory false
  | 0, [], s, s', r, hs, h | _ + 1, [], s, s', r, hs, h => by
      cases h
      exact ⟨.refl _, hs, fun _ => .done, by rintro _ ⟨⟩⟩
  | 0, _ :: _, s, s', r, hs, h => by
      cases h
      exact ⟨.refl _, hs, by rintro ⟨⟩, by rintro _ ⟨⟩⟩
  | turns + 1, t :: stack, s, s', r, hs, h => by
      obtain ⟨hrivals, hs'⟩ := hI.arrive hs
      rw [takeBodies, bind_ok (planner_run s)] at h
      split at h
      · next hc =>
          obtain ⟨hrest, hcache, hok, hfault⟩ := takeBodies_takes hI turns stack hs h
          have hc : s.memory.bodies t ≠ none := (FixTable.contains_iff _).mp hc
          exact ⟨hrest, hcache, fun h => .skip hc (hok h),
            fun f h => (hfault f h).imp_right fun takes => .skip hc takes⟩
      · next hc =>
          have hc : s.memory.bodies t = none :=
            not_not.mp fun h => hc ((FixTable.contains_iff _).mpr h)
          rw [bind_ok (onCache_run _ s)] at h
          have found : s.shared.cache.arrive.stock.bodies t =
            (Cache.getBody t s.shared.cache).1.map content := rfl
          cases hbody : (Cache.getBody t s.shared.cache).1 with
          | none =>
              rw [hbody] at h found
              dsimp only at h
              rw [bind_ok (shown_run t _), fail_run] at h
              cases h
              refine ⟨rests_caching s _, hs', by rintro ⟨⟩, ?_⟩
              rintro _ ⟨⟩
              exact ⟨⟨_, rfl⟩, .missing hc hrivals found⟩
          | some body =>
              rw [hbody] at h found
              dsimp only at h
              rw [bind_ok (modifyPlanner_run _ _)] at h
              obtain ⟨hrest, hcache, hok, hfault⟩ := takeBodies_takes hI turns _ hs' h
              rw [memory_setBody, memory_caching] at hok hfault
              have targets : (bare body.content).targets = body.targets := targets_strip body
              refine ⟨(rests_caching s _).trans ((rests_setBody _ t body).trans hrest), hcache,
                fun h => .take hc hrivals found ?_,
                fun f h => (hfault f h).imp_right fun takes => .take hc hrivals found ?_⟩
              · exact targets.symm ▸ hok h
              · exact targets.symm ▸ takes

/-- Sharing bodies is `Publishes`. -/
theorem shareBodies_publishes (hI : Heeds rivals I) : ∀ (tys : List TyId) {s : PlanState},
    I s.shared.cache → ∃ k, shareBodies tys s = (.ok (), s.caching k) ∧ I k ∧
      Publishes rivals s.memory.bodies s.shared.cache.stock tys k.stock
  | [], s, hs => ⟨s.shared.cache, rfl, hs, .done⟩
  | t :: tys, s, hs => by
      rw [shareBodies, bind_ok (planner_run s)]
      have known : s.memory.bodies t = (s.planner.fixpoints.find? t).map content := rfl
      cases hbody : s.planner.fixpoints.find? t with
      | none =>
          rw [hbody] at known
          obtain ⟨k, hk, hIk, hpub⟩ := shareBodies_publishes hI tys hs
          exact ⟨k, hk, hIk, .skip known hpub⟩
      | some body =>
          rw [hbody] at known
          obtain ⟨hrivals, hs'⟩ := hI.arrive hs
          obtain ⟨k, hk, hIk, hpub⟩ := shareBodies_publishes hI tys
            (s := s.caching (Cache.offerBody t body s.shared.cache).2) (hI.offerBody hs' t body)
          refine ⟨k, ?_, hIk, .offer known hrivals ?_⟩
          · show ((onCache _ >>= fun _ => shareBodies tys) s) = _
            rw [bind_ok (onCache_run _ s), hk]
            rfl
          · have stock : (Cache.offerBody t body s.shared.cache).2.stock =
                { s.shared.cache.arrive.stock with
                  bodies := s.shared.cache.arrive.stock.bodies.keep t body.content } :=
              congrArg (Stock.mk _) (lookup_settle _ t body)
            exact stock ▸ hpub

/-- Settling a result is `Settles`. -/
theorem settle_settles (hI : Heeds rivals I) (ty : TyId) (c : Converter) (he : e.Of s.planner)
    (hs : I s.shared.cache) : ∃ kept s', Planner.settle ty c s = (.ok kept, s') ∧ s.Rests s' ∧
      I s'.shared.cache ∧ Settles rivals e s.memory ty c.content kept.content s'.memory := by
  rw [Planner.settle, bind_ok (planner_run s)]
  split
  · next hcaching =>
      have hcaching : e.caching = true := he.caching ▸ hcaching
      obtain ⟨k, hk, hIk, hpub⟩ := shareBodies_publishes hI
        (s.planner.fixpoints.needed c.targets) hs
      obtain ⟨hrivals, hIk'⟩ := hI.arrive hIk
      rw [bind_ok hk, bind_ok (onCache_run _ _), bind_ok (modifyPlanner_run _ _), pure_run]
      refine ⟨_, _, rfl, (rests_caching s _).trans (rests_remember _ ty _), hI.offer hIk' ty c, ?_⟩
      have needs : s.memory.bodies.Needs (bare c.content).targets
          (s.planner.fixpoints.needed c.targets) := fun t => by
        rw [show (bare c.content).targets = c.targets from targets_strip c]
        exact FixTable.mem_needed _
      have := Settles.shared (x := ty) (c := c.content) hcaching needs hpub hrivals
      have kept : (k.arrive.stock.converters ty).getD c.content =
          (Cache.offer ty c k).1.content := (content_settle k.arrive.converters ty c).symm
      have stock : (Cache.offer ty c k).2.stock = { k.arrive.stock with
          converters := k.arrive.stock.converters.keep ty c.content } :=
        congrArg (Stock.mk · _) (lookup_settle k.arrive.converters ty c)
      rw [kept, ← stock] at this
      rw [memory_remember]
      exact this
  · next hcaching =>
      have hcaching : e.caching = false := by rw [← he.caching]; simpa using hcaching
      rw [bind_ok (modifyPlanner_run _ _), pure_run]
      refine ⟨c, _, rfl, rests_remember s ty c, hs, ?_⟩
      rw [memory_remember]
      exact .alone hcaching

end Accesses

/-! ## Runs -/

/-- The uses that a job may log: of open types, and of the type whose layer is
planned. -/
def Job.logs (job : Job) (e : Env) : Set TyId := e.opened ∪ {x | job = .layer x}

/-- A run from `s` to `s'` ended with `res`, and it is a derivation of a job at these places. -/
def Ran (w : World) (rivals : Stock → Stock → Prop) (I : Cache → Prop) (e : Env) (job : Job)
    (places : List Segment) (s : PlanState) (res : Except Halt (List Assembly.Content))
    (s' : PlanState) : Prop :=
  match res with
  | .ok cs => Course w I e (job.logs e) s []
      (fun U => w.Plans rivals e job s.memory (.ok (cs, U)) s'.memory) s'
  | .error h => ∃ way, Course w I e (job.logs e) s (places ++ way)
      (fun _ => ∀ f, h = .fault f → w.Plans rivals e job s.memory (.error ⟨f, way⟩) s'.memory) s'

/-- All runs of `rec` are derivations. -/
def Runs (w : World) (rivals : Stock → Stock → Prop) (I : Cache → Prop)
    (rec : TyId → PlanM Converter) : Prop :=
  ∀ {e x s r s'}, Begins w I e [x] s → rec x s = (r, s') →
    Ran w rivals I e (.visit x) [] s (r.map fun c => [c.content]) s'

section Runs

variable {w : World} {rivals : Stock → Stock → Prop} {I : Cache → Prop} {e : Env}
  {rec : TyId → PlanM Converter} {d : Nat} {s s' : PlanState} {x : TyId}

theorem logs_visit : (Job.visit x).logs e = e.opened := by simp [Job.logs]

theorem logs_parts {ps : List Part} : (Job.parts ps).logs e = e.opened := by simp [Job.logs]

theorem logs_layer : (Job.layer x).logs e = insert x e.opened := by
  ext y; simp [Job.logs, eq_comm]

/-! ## Places -/

theorem atPlace_eq {α : Type} (place : Segment) (m : PlanM α) (s : PlanState) :
    atPlace place m s = match m (s.planning (s.planner.push place)) with
      | (.ok v, t) => (.ok v, t.planning t.planner.pop)
      | (.error h, t) => (.error h, t.planning t.planner.noteFault.pop) := by
  unfold atPlace
  rcases hm : m (s.planning (s.planner.push place)) with ⟨_ | v, t⟩ <;>
    simp only [show (⟨s.shared, s.planner.push place⟩ : PlanState) =
      s.planning (s.planner.push place) from rfl, hm] <;> rfl

theorem atPlace_cases {α : Type} {place : Segment} {m : PlanM α} {r : Except Halt α}
    (h : atPlace place m s = (r, s')) :
    (∃ v t, m (s.planning (s.planner.push place)) = (.ok v, t) ∧ r = .ok v ∧
        s' = t.planning t.planner.pop) ∨
      ∃ f t, m (s.planning (s.planner.push place)) = (.error f, t) ∧ r = .error f ∧
        s' = t.planning t.planner.noteFault.pop := by
  rw [atPlace_eq] at h
  split at h
  · next v t hm => cases h; exact .inl ⟨v, t, hm, rfl, rfl⟩
  · next f t hm => cases h; exact .inr ⟨f, t, hm, rfl, rfl⟩

theorem bracket_eq {α : Type} (enter leave : Planner → Planner) (m : PlanM α) (s : PlanState) :
    bracket enter leave m s = match m (s.planning (enter s.planner)) with
      | (r, t) => (r, t.planning (leave t.planner)) := rfl

theorem bracket_run {α : Type} {enter leave : Planner → Planner} {m : PlanM α}
    {r : Except Halt α} (h : bracket enter leave m s = (r, s')) :
    ∃ t, m (s.planning (enter s.planner)) = (r, t) ∧ s' = t.planning (leave t.planner) := by
  rw [bracket_eq] at h
  cases h
  exact ⟨_, rfl, rfl⟩

/-- Work at a part that may be converted lazily. -/
def Planner.Part.lazily {α : Type} (p : Part) (m : PlanM α) : PlanM α :=
  if p.lazy then onDemand m else m

theorem lazily_run {α : Type} {p : Part} {m : PlanM α} {r : Except Halt α}
    (h : p.lazily m s = (r, s')) :
    ∃ t t', s.Moves e (e.inside p.lazy) t ∧ m t = (r, t') ∧ t'.Moves (e.inside p.lazy) e s' := by
  unfold Part.lazily at h
  split at h
  · next hp =>
      rw [hp]
      obtain ⟨t, ht, rfl⟩ := bracket_run h
      refine ⟨_, t, ?_, ht, ?_⟩
      · exact ⟨rfl, rfl, rfl, rfl, rfl, rfl, rfl, fun h => h.inside⟩
      · exact ⟨rfl, rfl, rfl, rfl, rfl, rfl, rfl, fun h => h.outside⟩
  · next hp =>
      rw [show p.lazy = false by simpa using hp]
      exact ⟨s, s', .refl s e, h, .refl s' e⟩

theorem make_run (content : Assembly.Content) (s : PlanState) (e : Env) :
    ∃ c s', make content s = (.ok c, s') ∧ c.content = content ∧ s.Moves e e s' := by
  refine ⟨_, _, rfl, ?_, rfl, rfl, rfl, rfl, rfl, rfl, rfl,
    fun h => ⟨h.caching, h.pending, h.guesses, h.depth⟩⟩
  cases content <;> rfl

/-! ## Parts -/

/-- The converter of a part from that of its type. -/
def Planner.Part.omitted (p : Part) (m : PlanM Converter) : PlanM Converter :=
  if p.omittable then do wrapping .mapOption (← m) else m

theorem forOmittable_eq (catalog : Catalog) (ty : TyId) :
    forOmittable catalog rec ty = (do
      refuseOption catalog ty ty nestedAbsence
      wrapping .mapOption (← rec ty)) := by
  unfold forOmittable refuseOption
  rw [bind_assoc]
  refine bind_congr fun stands => ?_
  cases stands <;> simp [fail_bind]

theorem body_eq (catalog : Catalog) (options : Options) (p : Part) :
    p.body catalog options d rec = (do
      p.checkDefault catalog options d
      p.lazily (do
        p.checkAbsence catalog
        p.omitted (rec p.ty))) := by
  obtain ⟨place, _ | lit, _ | _, _ | _, ty⟩ := p <;>
    simp [Part.body, Part.checkDefault, Part.lazily, Part.checkAbsence, Part.omitted,
      forOmittable_eq]

theorem omitted_run {p : Part} {m : PlanM Converter} {r : Except Halt Converter}
    (h : p.omitted m s = (r, s')) :
    ∃ r₀ t, m s = (r₀, t) ∧ t.Moves e e s' ∧
      r.map content = (r₀.map content).map p.wrap := by
  unfold Part.omitted at h
  split at h
  · next hp =>
      rcases bind_cases h with ⟨f, hm, rfl⟩ | ⟨c, t, hm, h⟩
      · exact ⟨_, _, hm, .refl s' e, rfl⟩
      · obtain ⟨c', s₁, hmake, hc, hmoves⟩ := make_run (c.wrapped .mapOption) t e
        cases hmake.symm.trans h
        refine ⟨_, t, hm, hmoves, ?_⟩
        show Except.ok c'.content = Except.ok (p.wrap c.content)
        rw [hc, Part.wrap, if_pos hp]
        rfl
  · next hp =>
      refine ⟨r, s', h, .refl s' e, ?_⟩
      have wrap : p.wrap = id := by funext c; rw [Part.wrap, if_neg hp]; rfl
      rw [wrap]
      cases r <;> rfl

/-- What the course of a part is: its type was visited, or it was refused before. The course is
one that is seen from behind these places. -/
def Gave (w : World) (rivals : Stock → Stock → Prop) (I : Cache → Prop) (e : Env) (p : Part)
    (places : List Segment) (s : PlanState) (res : Except Halt Assembly.Content)
    (s' : PlanState) : Prop :=
  match res with
  | .ok c => Course w I e e.opened s [] (fun U => w.Admits p (.ok ()) ∧
      w.Plans rivals (e.inside p.lazy) (.visit p.ty) s.memory (.ok ([c], U)) s'.memory) s'
  | .error h => ∃ way, Course w I e e.opened s way (fun _ => ∀ f, h = .fault f → ∀ ps,
      w.Plans rivals e (.parts (p :: ps)) s.memory (.error ⟨f, places ++ way⟩) s'.memory) s'

variable (hw : w.arena.Sound)

include hw in
theorem body_course (hrec : Runs w rivals I rec) {p : Part} {r : Except Halt Converter}
    (hs : Begins w I e [p.ty] s) (h : p.body w.catalog w.options d rec s = (r, s')) :
    ∃ res : Except Halt Assembly.Content, r.map content = res.map p.wrap ∧
      Gave w rivals I e p p.place.toList s res s' := by
  rw [body_eq] at h
  have hty := hs.has _ (List.mem_singleton_self _)
  obtain ⟨r₁, b, hr₁, hdeep⟩ :=
    Part.checkDefault_inspects hs.sound hs.spans d hty
  cases r₁ with
  | error f =>
      -- The default does not fit.
      rw [bind_error (hr₁.run s rfl)] at h
      cases h
      refine ⟨.error f, rfl, [], .look hs hr₁ fun hb g hg ps => ?_⟩
      subst hg
      refine .partRefused ⟨d, fun d' hd' => ?_⟩
      exact (Inspects.bind_error (hdeep (by simp) d' hd')).again hw hb
  | ok u =>
      rw [bind_ok (hr₁.run s rfl)] at h
      have hs₁ : Begins w I e [p.ty] (s.on b) :=
        (Course.look (A := ∅) (D := fun _ => True) hs hr₁ fun _ => trivial).begins hs
      obtain ⟨t, t', hin, hm, hout⟩ := lazily_run (e := e) h
      have hst : Begins w I (e.inside p.lazy) [p.ty] t := hs₁.moves hin
      have hta : t.shared.arena = b := hin.arena
      obtain ⟨r₂, c, hr₂⟩ := Part.checkAbsence_looks (p := p) hst.sound hst.spans
        (hst.has _ (by simp))
      have check {d' : Nat} (hd' : d' ≥ d) : Inspects (p.check w.catalog w.options d')
          s.shared.arena r₂ c := (hdeep (by simp) d' hd').bind (hta ▸ hr₂)
      have checked : Course w I (e.inside p.lazy) e.opened s []
          (fun U => U = ∅ ∧ w.Admits p r₂) (t.on c) :=
        ⟨(check (le_refl d)).within, hr₂.sound, hst.env, hst.heeds, hin.path,
          hin.faultPath.trans noting_nil.symm, [], by simp [hin.uses], by simp,
          fun hc => ⟨by simp, d, fun d' hd' => (check hd').again hw hc⟩⟩
      have opened {U : Set TyId} (hU : U ⊆ (e.inside p.lazy).opened) : U ∩ e.opened = U :=
        Set.inter_eq_left.mpr hU
      cases r₂ with
      | error f =>
          rw [bind_error (hr₂.run t rfl)] at hm
          cases hm
          refine ⟨.error f, rfl, [], checked.enclose hout (le_refl _) fun _ U _ hU g hg ps => ?_⟩
          subst hg
          have same : s'.memory = s.memory := hout.memory.trans hin.memory
          rw [same]
          exact .partRefused hU.2
      | ok u =>
          rw [bind_ok (hr₂.run t rfl)] at hm
          obtain ⟨r₀, t₁, hvisit, hmoves, hr⟩ := omitted_run (e := e.inside p.lazy) hm
          have same : (t.on c).memory = s.memory := hin.memory
          have same' : s'.memory = t₁.memory := hout.memory.trans hmoves.memory
          have visit := hrec (checked.begins hs) hvisit
          refine ⟨r₀.map content, hr, ?_⟩
          cases r₀ with
          | error f =>
              obtain ⟨way, visit⟩ := visit
              have run := checked.append (Course.mono visit logs_visit.subset fun _ _ _ => id)
                (E := fun _ => ∀ g, f = .fault g → ∀ ps, w.Plans rivals e (.parts (p :: ps)) s.memory
                  (.error ⟨g, p.place.toList ++ way⟩) t₁.memory)
                fun _ U V hU hV g hg ps => .partFails hU.2 (same ▸ hV g hg)
              exact ⟨way, run.enclose (hmoves.trans hout) (le_refl _) fun _ U _ hU => same' ▸ hU⟩
          | ok v =>
              have run := checked.append (Course.mono visit logs_visit.subset fun _ _ _ => id)
                (E := fun U => w.Admits p (.ok ()) ∧ w.Plans rivals (e.inside p.lazy) (.visit p.ty)
                  s.memory (.ok ([v.content], U)) t₁.memory)
                fun _ U V hU hV => ⟨hU.2, by rw [hU.1, Set.empty_union]; exact same ▸ hV⟩
              refine run.enclose (hmoves.trans hout) (le_refl _) fun _ U hU hD => ?_
              rw [opened hU, same']
              exact hD

include hw in
theorem part_course (hrec : Runs w rivals I rec) {p : Part} {r : Except Halt Converter}
    (hs : Begins w I e [p.ty] s) (h : p.run w.catalog w.options d rec s = (r, s')) :
    ∃ res : Except Halt Assembly.Content, r.map content = res.map p.wrap ∧
      Gave w rivals I e p [] s res s' := by
  unfold Part.run at h
  cases hp : p.place with
  | none =>
      rw [hp] at h
      obtain ⟨res, hres, hcourse⟩ := body_course hw hrec hs h
      rw [hp] at hcourse
      exact ⟨res, hres, hcourse⟩
  | some place =>
      rw [hp] at h
      rcases atPlace_cases h with ⟨v, t, hm, rfl, rfl⟩ | ⟨f, t, hm, rfl, rfl⟩ <;>
        obtain ⟨_ | c, hres, hcourse⟩ := body_course hw hrec (hs.push place) hm <;>
        rw [hp] at hcourse
      · cases hres
      · exact ⟨.ok c, hres, hcourse.placed⟩
      · obtain ⟨way, hcourse⟩ := hcourse
        refine ⟨.error _, hres, place :: way, ?_⟩
        rw [memory_noteFault]
        exact hcourse.failed
      · cases hres

include hw in
theorem parts_ran (hrec : Runs w rivals I rec) : ∀ {ps : List Part} {s s' : PlanState}
    {r : Except Halt (List Converter)}, Begins w I e (ps.map Part.ty) s →
    ps.mapM (Part.run w.catalog w.options d rec) s = (r, s') →
    ∃ res : Except Halt (List Assembly.Content),
      r.map (List.map content) = res.map (List.zipWith Part.wrap ps) ∧
      Ran w rivals I e (.parts ps) [] s res s'
  | [], s, s', r, hs, h => by
      cases h
      exact ⟨.ok [], rfl, .rest hs (.refl s) hs.heeds fun _ => .noParts⟩
  | p :: ps, s, s', r, hs, h => by
      rw [List.mapM_cons] at h
      rcases bind_cases h with ⟨f, hp, rfl⟩ | ⟨c, s₁, hp, h⟩
      · obtain ⟨_ | c, hres, hcourse⟩ := part_course hw hrec (hs.of_mem (by simp)) hp
        · cases hres
          obtain ⟨way, hcourse⟩ := hcourse
          exact ⟨.error f, rfl, way, hcourse.mono logs_parts.symm.subset
            fun _ U _ hU g hg => hU g hg ps⟩
        · cases hres
      · obtain ⟨_ | content, hres, hcourse⟩ := part_course hw hrec (hs.of_mem (by simp)) hp
        · cases hres
        · have hrest : Begins w I e (ps.map Part.ty) s₁ :=
            hcourse.begins (hs.of_mem fun x hx => List.mem_cons_of_mem _ hx)
          have opened : e.opened ⊆ (Job.parts (p :: ps)).logs e := logs_parts.symm.subset
          have first := hcourse.mono opened fun _ _ _ => id
          have logs : (Job.parts ps).logs e ⊆ (Job.parts (p :: ps)).logs e := by simp [logs_parts]
          rcases bind_cases h with ⟨f, hps, rfl⟩ | ⟨cs, s₂, hps, h⟩
          · obtain ⟨_ | contents, hress, hran⟩ := parts_ran hrec hrest hps
            · cases hress
              obtain ⟨way, hran⟩ := hran
              exact ⟨.error f, rfl, way, first.append (hran.mono logs fun _ _ _ => id)
                fun _ U V hU hV g hg => .restFails hU.1 hU.2 (hV g hg)⟩
            · cases hress
          · obtain ⟨_ | contents, hress, hran⟩ := parts_ran hrec hrest hps
            · cases hress
            · cases h
              refine ⟨.ok (content :: contents), ?_, first.append (Course.mono hran logs
                fun _ _ _ => id) fun _ U V hU hV => .someParts hU.1 hU.2 hV⟩
              have head : c.content = p.wrap content := Except.ok.inj hres
              have tail : cs.map Converter.content = List.zipWith Part.wrap ps contents :=
                Except.ok.inj hress
              show Except.ok _ = Except.ok _
              rw [List.map_cons, head, tail, List.zipWith_cons_cons]

/-! ## Layers and references -/

theorem assembles_run {l : Layer} {t : Term} (hl : w.layer? x t = some l)
    {cs : List Converter} {contents : List Assembly.Content} {r : Except Halt Assembly.Content}
    (hcs : cs.map content = List.zipWith Part.wrap l.parts contents)
    (h : w.Answers (l.assemble cs) r) : w.Assembles l contents r := by
  have same : l.assemble (cs.map strip) = l.assemble cs := assemble_strip hl cs
  rw [Assembles, ← hcs, List.map_map]
  rw [← same] at h
  exact h

include hw in
theorem layer_ran (hrec : Runs w rivals I rec) {t : Term} {l : Layer}
    {r : Except Halt Converter} (hs : Begins w I e [x] s) (ht : s.shared.arena.term? x = some t)
    (hl : w.layer? x t = some l) (h : l.run w.catalog w.options d rec s = (r, s')) :
    Ran w rivals I e (.layer x) [] s (r.map fun c => [c.content]) s' := by
  have term {a : Arena} (hab : s.shared.arena.Within a) (ha : a.Within w.arena) :
      w.arena.term? x = some t := (hab.trans ha).term? ht
  obtain ⟨r₀, b, hbefore⟩ := before_looks hs.sound hs.spans ht hl
  unfold Layer.run at h
  cases r₀ with
  | error f =>
      rw [bind_error (hbefore.run s rfl)] at h
      cases h
      refine ⟨[], .look hs hbefore fun hb g hg => ?_⟩
      subst hg
      exact .refused (term hbefore.within hb) hl (hbefore.again hw hb)
  | ok u =>
      rw [bind_ok (hbefore.run s rfl)] at h
      have checked : Course w I e ((Job.layer x).logs e) s []
          (fun U => U = ∅ ∧ w.Answers l.before (.ok ())) (s.on b) :=
        .look hs hbefore fun hb => ⟨rfl, hbefore.again hw hb⟩
      have hparts : Begins w I e (l.parts.map Part.ty) (s.on b) := by
        refine ⟨hbefore.sound, hs.spans.within hbefore.within, fun y hy => ?_, hs.env, hs.heeds⟩
        rcases parts_ty hl with hc | ⟨hc, -⟩
        · exact hbefore.sound.has_child (hbefore.within.term? ht) (hc ▸ hy)
        · rw [hc] at hy; cases hy
      have logs : (Job.parts l.parts).logs e ⊆ (Job.layer x).logs e := by
        simp [logs_parts, logs_layer, Set.subset_insert]
      rcases bind_cases h with ⟨f, hps, rfl⟩ | ⟨cs, s₁, hps, h⟩
      · obtain ⟨_ | contents, hres, hran⟩ := parts_ran hw hrec hparts hps
        · cases hres
          obtain ⟨way, hran⟩ := hran
          exact ⟨way, checked.append (hran.mono logs fun _ _ _ => id)
            fun hb U V hU hV g hg => .partsFail (term (hbefore.within.trans hran.within) hb) hl hU.2
              (hV g hg)⟩
        · cases hres
      · obtain ⟨_ | contents, hres, hran⟩ := parts_ran hw hrec hparts hps
        · cases hres
        · have hcs : cs.map content = List.zipWith Part.wrap l.parts contents := Except.ok.inj hres
          have hs₁ : Begins w I e [x] s₁ := Course.begins hran
            (checked.begins hs)
          have within := hbefore.within.trans (Course.within hran)
          have ht₁ := within.term? ht
          obtain ⟨r₁, c, hassemble⟩ := assemble_looks hs₁.sound hs₁.spans ht₁ hl cs
          have planned := checked.append (Course.mono hran logs fun _ _ _ => id)
            (E := fun U => w.Answers l.before (.ok ()) ∧
              w.Plans rivals e (.parts l.parts) s.memory (.ok (contents, U)) s₁.memory)
            fun _ U V hU hV => ⟨hU.2, hU.1 ▸ (Set.empty_union V).symm ▸ hV⟩
          have looked : Course w I e ((Job.layer x).logs e) s₁ [] (fun U => U = ∅ ∧
              w.Assembles l contents r₁ ∧ w.arena.term? x = some t) (s₁.on c) :=
            .look hs₁ hassemble fun hc => ⟨rfl, assembles_run hl hcs (hassemble.again hw hc),
              term (within.trans hassemble.within) hc⟩
          cases r₁ with
          | error f =>
              rw [bind_error (hassemble.run s₁ rfl)] at h
              cases h
              refine ⟨[], planned.append looked fun _ U V hU hV g hg => ?_⟩
              subst hg
              exact .unassembled hV.2.2 hl hU.1 hU.2 hV.2.1
          | ok content =>
              rw [bind_ok (hassemble.run s₁ rfl)] at h
              obtain ⟨made, s₂, hmake, hmade, hmoves⟩ := make_run content (s₁.on c) e
              cases hmake.symm.trans h
              have assembled := planned.append looked (E := fun U =>
                w.Plans rivals e (.layer x) s.memory (.ok ([content], U)) s₁.memory)
                fun _ U V hU hV => by
                  rw [hV.1, Set.union_empty]
                  exact .assembled hV.2.2 hl hU.1 hU.2 hV.2.1
              refine assembled.enclose hmoves (le_refl _) fun _ U hU hD => ?_
              have same : s'.memory = s₁.memory := hmoves.memory
              rw [Set.inter_eq_left.mpr hU, same]
              subst hmade
              exact hD

theorem visit_ran (hrec : Runs w rivals I rec) {place : Segment} {r : Except Halt Converter}
    (hs : Begins w I e [x] s) (h : atPlace place (rec x) s = (r, s')) :
    Ran w rivals I e (.visit x) [place] s (r.map fun c => [c.content]) s' := by
  rcases atPlace_cases h with ⟨v, t, hm, rfl, rfl⟩ | ⟨f, t, hm, rfl, rfl⟩
  · exact Course.placed (hrec (hs.push place) hm)
  · obtain ⟨way, ran⟩ := hrec (hs.push place) hm
    refine ⟨way, ?_⟩
    rw [memory_noteFault]
    exact ran.failed

theorem moves_enter : s.Moves e (e.enter x none) (s.planning (s.planner.enter x)) :=
  ⟨rfl, rfl, rfl, rfl, rfl, rfl, rfl, Env.Of.enter⟩

theorem moves_setGuess {g g' : Assembly.Content} {c : Converter} (hc : c.content = g') :
    s.Moves (e.enter x g) (e.enter x g') (s.planning (s.planner.setGuess x c)) :=
  ⟨rfl, rfl, rfl, rfl, rfl, rfl, rfl, fun h => h.setGuess hc⟩

theorem moves_leave {g : Assembly.Content} (hx : e.find? x = none) :
    s.Moves (e.enter x g) e (s.planning (s.planner.leave x)) :=
  ⟨rfl, rfl, rfl, rfl, rfl, rfl, rfl, fun h => h.leave hx⟩

/-- The uses of an open type that is left are dropped. -/
theorem inter_opened {g : Assembly.Content} (hx : e.find? x = none) {U : Set TyId}
    (hU : U ⊆ (e.enter x g).opened) : U ∩ e.opened = U \ {x} := by
  rw [Env.enter_opened] at hU
  ext o
  constructor
  · rintro ⟨ho, hopen⟩
    refine ⟨ho, fun h => ?_⟩
    cases Set.mem_singleton_iff.mp h
    exact Env.notMem_opened.mpr hx hopen
  · rintro ⟨ho, hne⟩
    exact ⟨ho, (hU ho).resolve_left hne⟩

/-- The two turns of a recursive type. -/
theorem twoTurns_ran (hrec : Runs w rivals I rec) {ref : Referent} {place : Segment}
    {r : Except Halt Converter} (hs : Begins w I e [ref.node] s) (hx : e.find? x = none)
    (hplace : s.shared.arena.Within w.arena → place = .expansion (w.arena.text x))
    (hr : s.shared.arena.Within w.arena → w.Resolves x (.ok ref)) (hrecursive : ref.recursive = true)
    (hreg : ref.regular = true)
    (h : bracket (fun p => p.enter x) (fun p => p.leave x) (twoTurns rec x ref.node place) s =
      (r, s')) : Ran w rivals I e (.layer x) [] s (r.map fun c => [c.content]) s' := by
  obtain ⟨t, ht, rfl⟩ := bracket_run h
  have hsub {g : Assembly.Content} : e.opened ⊆ (e.enter x g).opened := by
    simp [Set.subset_insert]
  have logs {g : Assembly.Content} {y : TyId} :
      (Job.visit y).logs (e.enter x g) ⊆ (Job.layer x).logs e := by
    simp [logs_visit, logs_layer]
  have enter := moves_enter (s := s) (e := e) (x := x)
  have entered := hs.moves enter
  unfold twoTurns at ht
  rcases bind_cases ht with ⟨f, hfirst, rfl⟩ | ⟨c, t₁, hfirst, ht⟩
  · obtain ⟨way, first⟩ := visit_ran hrec entered hfirst
    refine ⟨place :: way, .enclose (.entered enter (first.mono logs fun _ _ _ => id))
      (moves_leave hx) hsub fun hb _ _ hD g hg => ?_⟩
    have hb := first.within.trans hb
    rw [hplace hb]
    exact .firstFails hx (hr hb) hrecursive hreg (hD g hg)
  have first : Ran w rivals I _ (.visit ref.node) [place] _ (.ok [c.content]) t₁ :=
    visit_ran hrec entered hfirst
  split at ht
  · next hid =>
      cases ht
      have hc : c.content = none := (isIdentity_iff c).mp hid
      refine .enclose (.entered enter (Course.mono first logs fun _ _ _ => id)) (moves_leave hx) hsub
        fun hb U hU hD => ?_
      rw [inter_opened hx hU]
      exact .idle hx (hr ((Course.within first).trans hb)) hrecursive hreg (hc ▸ hD)
  · next hid =>
      have hc : c.content ≠ none := fun h => hid ((isIdentity_iff c).mpr h)
      obtain ⟨made, t₂, hmake, hmade, hmoves⟩ := make_run (deferring x) t₁ (e.enter x none)
      rw [bind_ok hmake, bind_ok (modifyPlanner_run _ t₂)] at ht
      have guess := hmoves.trans (moves_setGuess (s := t₂) hmade)
      have same : (t₂.planning (t₂.planner.setGuess x made)).memory = t₁.memory := guess.memory
      have again : Begins w I (e.enter x (deferring x)) [ref.node]
          (t₂.planning (t₂.planner.setGuess x made)) := (Course.begins first entered).moves guess
      -- The first turn, with the uses that are still open in the second.
      have turn := Course.enclose (.entered enter (Course.mono first logs fun _ _ _ => id))
        (E := fun U => w.Plans rivals (e.enter x none) (.visit ref.node) s.memory
          (.ok ([c.content], U)) t₁.memory)
        guess (by simp) fun _ U hU hD => by
          rw [show U ∩ (e.enter x (deferring x)).opened = U from
            Set.inter_eq_left.mpr (by simpa using hU)]
          exact hD
      rcases bind_cases ht with ⟨f, hsecond, rfl⟩ | ⟨body, t₃, hsecond, ht⟩
      · obtain ⟨way, second⟩ := visit_ran hrec again hsecond
        have both := turn.append (second.mono logs fun _ _ _ => id)
          (E := fun _ => ∀ g, f = .fault g →
            w.Plans rivals e (.layer x) s.memory (.error ⟨g, place :: way⟩) t.memory)
          fun hb U V hU hV g hg => by
            have hb := turn.within.trans (second.within.trans hb)
            rw [hplace hb]
            exact .secondFails hx (hr hb) hrecursive hreg hU hc (same ▸ hV g hg)
        exact ⟨place :: way, both.enclose (moves_leave hx) hsub fun _ _ _ hD => hD⟩
      · rw [bind_ok (modifyPlanner_run _ t₃), pure_run] at ht
        cases ht
        have second : Ran w rivals I _ (.visit ref.node) [place] _ (.ok [body.content]) t₃ :=
          visit_ran hrec again hsecond
        have both := turn.append (Course.mono second logs fun _ _ _ => id)
          (E := fun U => w.Plans rivals e (.layer x) s.memory
            (.ok ([deferring x], U \ {x})) (t₃.memory.setBody x body.content))
          fun hb U V hU hV => by
            have hb := turn.within.trans ((Course.within second).trans hb)
            exact .defers hx (hr hb) hrecursive hreg hU hc (same ▸ hV)
        refine .enclose (both.before (rests_setBody t₃ x body) both.heeds) (moves_leave hx) hsub
          fun _ U hU hD => ?_
        rw [inter_opened hx hU]
        rw [← memory_setBody, ← hmade] at hD
        exact hD

include hw in
theorem reference_ran (hrec : Runs w rivals I rec) {t : Term} {r : Except Halt Converter}
    (hs : Begins w I e [x] s) (ht : s.shared.arena.term? x = some t) (href : t.isReference = true)
    (h : forReference w.catalog rec x s = (r, s')) :
    Ran w rivals I e (.layer x) [] s (r.map fun c => [c.content]) s' := by
  have hty := hs.has x (List.mem_singleton_self x)
  have refers {a : Arena} (hab : s.shared.arena.Within a) (ha : a.Within w.arena) : w.Refers x :=
    ⟨t, (hab.trans ha).term? ht, href⟩
  have hguess := hs.env.guesses x
  rw [forReference, bind_ok (planner_run s)] at h
  cases hg : s.planner.guess? x with
  | some guess =>
      -- The type is open.
      rw [hg] at h hguess
      dsimp only at h
      obtain ⟨o, ho, hguess⟩ := Option.map_eq_some_iff.mp hguess.symm
      rw [forOpen, bind_ok (planner_run s)] at h
      have entered : s.planner.enteredAt x = some o.depth := by rw [hs.env.enteredAt, ho]; rfl
      rw [entered, hs.env.depth] at h
      split at h
      · next hdepth =>
          cases h
          refine ⟨[], .rest hs (.refl s) hs.heeds fun hb g hg => ?_⟩
          cases hg
          rw [← Arena.text_within hs.sound hb hty]
          exact .circles (refers (.refl _) hb) ho (Option.some.inj hdepth)
      · next hdepth =>
          dsimp only at h
          rw [bind_ok (modifyPlanner_run _ s), pure_run] at h
          cases h
          have hopen : x ∈ e.opened := Env.mem_opened.mpr ⟨o, ho⟩
          refine ⟨.refl _, hs.sound, ⟨hs.env.caching, hs.env.pending, hs.env.guesses, hs.env.depth⟩,
            hs.heeds, rfl, noting_nil.symm, [x], rfl, by simp [logs_layer], fun hb => ?_⟩
          have single : {y | y ∈ [x] ∧ y ∈ e.opened} = {x} := by
            ext y
            simp only [List.mem_singleton, Set.mem_ofPred_eq, Set.mem_singleton_iff]
            exact ⟨fun h => h.1, fun h => ⟨h, h ▸ hopen⟩⟩
          show w.Plans rivals e (.layer x) s.memory (.ok ([guess.content], _)) s.memory
          rw [single, ← hguess]
          exact .guessed (refers (.refl _) hb) ho fun hd => hdepth (congrArg some hd)
  | none =>
      rw [hg] at h hguess
      dsimp only at h
      have hx : e.find? x = none := Option.map_eq_none_iff.mp hguess.symm
      obtain ⟨res, b, hres, hended⟩ := Catalog.resolve_tries hs.spans hs.sound hty
      have hrun : Planner.resolve w.catalog x s = (res.mapError .fault, s.on b) :=
        (Inspects.onArena hres).run s rfl
      have looked : Course w I e ((Job.layer x).logs e) s [] (fun U => U = ∅ ∧ w.Resolves x res)
          (s.on b) :=
        .look hs (.onArena hres) fun hb => ⟨rfl, hres.again hw hb⟩
      cases res with
      | error f =>
          rw [bind_error hrun] at h
          cases h
          refine ⟨[], looked.mono (le_refl _) fun hb _ _ hU g hg => ?_⟩
          cases hg
          exact .unresolved (refers hres.within hb) hx hU.2
      | ok ref =>
          rw [bind_ok hrun, bind_ok (shown_run x _)] at h
          have node : Begins w I e [ref.node] (s.on b) :=
            ⟨hres.sound, hs.spans.within hres.within,
              fun y hy => List.mem_singleton.mp hy ▸ (hended ref rfl).1, hs.env, hs.heeds⟩
          have text (hb : b.Within w.arena) : (s.on b).shared.arena.text x = w.arena.text x :=
            (Arena.text_within hres.sound hb (hres.within.has hty)).symm
          have logs : (Job.visit ref.node).logs e ⊆ (Job.layer x).logs e := by
            simp [logs_visit, logs_layer, Set.subset_insert]
          split at h
          · next hrecursive =>
              -- The declaration does not lead back to itself.
              have hrecursive : ref.recursive = false := by simpa using hrecursive
              cases r with
              | error f =>
                  obtain ⟨way, ran⟩ := visit_ran hrec node h
                  refine ⟨_, looked.append (ran.mono logs fun _ _ _ => id)
                    fun hb U V hU hV g hg => ?_⟩
                  rw [text (ran.within.trans hb)]
                  exact .inlineFails hx hU.2 hrecursive (hV g hg)
              | ok c =>
                  have ran : Ran w rivals I e (.visit ref.node) _ (s.on b) (.ok [c.content]) s' :=
                    visit_ran hrec node h
                  refine looked.append (Course.mono ran logs fun _ _ _ => id)
                    fun _ U V hU hV => ?_
                  rw [hU.1, Set.empty_union]
                  exact .inline hx hU.2 hrecursive hV
          · next hrecursive =>
              have hrecursive : ref.recursive = true := by simpa using hrecursive
              split at h
              · next hregular =>
                  cases h
                  refine ⟨[], looked.mono (le_refl _) fun hb _ _ hU g hg => ?_⟩
                  cases hg
                  rw [text hb]
                  exact .grows hx hU.2 hrecursive (by simpa using hregular)
              · next hregular =>
                  have hregular : ref.regular = true := by simpa using hregular
                  have turns := twoTurns_ran hrec node hx (fun hb => congrArg _ (text hb))
                    (fun hb => hres.again hw hb) hrecursive hregular h
                  cases r with
                  | error f =>
                      obtain ⟨way, turns⟩ := turns
                      exact ⟨way, looked.append turns fun _ _ _ _ hV => hV⟩
                  | ok c =>
                      refine looked.append turns fun _ U V hU hV => ?_
                      rw [hU.1, Set.empty_union]
                      exact hV

include hw in
theorem forTerm_ran (hrec : Runs w rivals I rec) {r : Except Halt Converter}
    (hs : Begins w I e [x] s) (h : forTerm w.catalog w.options d rec x s = (r, s')) :
    Ran w rivals I e (.layer x) [] s (r.map fun c => [c.content]) s' := by
  obtain ⟨t, ht⟩ := Arena.has_iff.mp (hs.has x (List.mem_singleton_self x))
  rcases leaf_or_layer_or_reference (w := w) x t with hl | ⟨l, hl⟩ | hl
  · have run : forTerm w.catalog w.options d rec x s = (.ok .identity, s) := by
      rw [forTerm, bind_ok (arena_run s), ht]
      cases t <;> first | rfl | cases hl
    cases run.symm.trans h
    exact .rest hs (.refl s) hs.heeds fun hb => .leaf (hb.term? ht) hl
  · rw [forTerm_composite hl ht] at h
    exact layer_ran hw hrec hs ht hl h
  · have run : forTerm w.catalog w.options d rec x s = forReference w.catalog rec x s := by
      rw [forTerm, bind_ok (arena_run s), ht]
      cases t <;> first | rfl | cases hl
    rw [run] at h
    exact reference_ran hw hrec hs ht hl h

/-! ## Visits -/

theorem mem_liveUses {p : Planner} {uses used : List TyId} (he : e.Of p)
    (hp : p.uses = uses ++ used) {o : TyId} :
    o ∈ p.liveUses uses.length ↔ o ∈ used ∧ o ∈ e.opened := by
  rw [Planner.liveUses, mem_distinct, List.mem_filter, hp, List.drop_left, he.isSome_guess?]

theorem dropUsesOnHalt_eq {α : Type} (m : PlanM α) (s : PlanState) :
    dropUsesOnHalt m s = match m s with
      | (.ok v, t) => (.ok v, t)
      | (.error h, t) =>
          (.error h, t.planning (t.planner.truncateUses s.planner.uses.length)) := rfl

/-- A change to the log of uses alone. -/
theorem Env.Of.logging {p : Planner} (h : e.Of p) (uses : List TyId) : e.Of { p with uses } :=
  ⟨h.caching, h.pending, h.guesses, h.depth⟩

include hw in
theorem planAnew_ran (hI : Heeds rivals I) (hrec : Runs w rivals I rec)
    {r : Except Halt Converter} (hs : Begins w I e [x] s) {m : Memory} (hm : m.settled x = none)
    (hmiss : Misses rivals e m x s.memory)
    (h : planAnew w.catalog w.options d rec x s = (r, s')) :
    match r with
    | .ok c => Course w I e e.opened s []
        (fun U => w.Plans rivals e (.visit x) m (.ok ([c.content], U)) s'.memory) s'
    | .error g => ∃ way, Course w I e e.opened s way (fun _ => ∀ f, g = .fault f →
        w.Plans rivals e (.visit x) m (.error ⟨f, way⟩) s'.memory) s' := by
  rw [planAnew, bind_ok (planner_run s)] at h
  rcases hrun : forTerm w.catalog w.options d rec x s with ⟨f | c, t⟩
  · obtain ⟨way, ran⟩ := forTerm_ran hw hrec hs hrun
    rw [bind_error (by rw [dropUsesOnHalt_eq, hrun])] at h
    cases h
    obtain ⟨used, hused, -, hplans⟩ := ran.logged
    refine ⟨way, ran.within, ran.sound, ran.env.logging _, ran.heeds, ran.path, ran.noted, [], ?_,
      by simp, fun hb g hg => .fails hm hmiss (hplans hb g hg)⟩
    show t.planner.uses.take _ = _
    rw [hused, List.take_left, List.append_nil]
  · have ran : Ran w rivals I e (.layer x) [] s (.ok [c.content]) t := forTerm_ran hw hrec hs hrun
    have ran : Course w I e _ s [] _ t := ran
    rw [bind_ok (by rw [dropUsesOnHalt_eq, hrun]), bind_ok (planner_run t)] at h
    obtain ⟨used, hused, hlogs, hplans⟩ := ran.logged
    have live {o : TyId} := mem_liveUses ran.env hused (o := o)
    split at h
    · next hempty =>
        -- No open guess was used.
        rw [List.isEmpty_iff] at hempty
        have none : {o | o ∈ used ∧ o ∈ e.opened} = ∅ := by
          ext o
          simp [← live, hempty]
        rw [bind_ok (modifyPlanner_run _ t)] at h
        obtain ⟨kept, s₁, hsettle, hrest, hcache, hsettles⟩ := settle_settles (e := e)
          (s := t.planning (t.planner.truncateUses s.planner.uses.length)) hI x c
          (ran.env.logging _) ran.heeds
        cases hsettle.symm.trans h
        refine ⟨hrest.arena ▸ ran.within, hrest.arena ▸ ran.sound, hrest.env (ran.env.logging _),
          hcache, hrest.path.trans ran.path, hrest.faultPath.trans ran.noted, [], ?_, by simp,
          fun hb => ?_⟩
        · rw [hrest.uses]
          show t.planner.uses.take _ = _
          rw [hused, List.take_left, List.append_nil]
        · have := hplans (hrest.arena ▸ hb)
          rw [none] at this
          rw [show {o | o ∈ ([] : List TyId) ∧ o ∈ e.opened} = ∅ by simp]
          exact .settles hm hmiss this hsettles
    · next hlive =>
        rw [bind_ok (modifyPlanner_run _ t), pure_run] at h
        cases h
        refine ⟨ran.within, ran.sound, ran.env.logging _, ran.heeds, ran.path, ran.noted,
          t.planner.liveUses _, ?_, fun o ho => (live.mp ho).2, fun hb => ?_⟩
        · show t.planner.uses.take _ ++ _ = _
          rw [hused, List.take_left]
        · have same : {o | o ∈ t.planner.liveUses s.planner.uses.length ∧ o ∈ e.opened} =
              {o | o ∈ used ∧ o ∈ e.opened} := by
            ext o
            simp [live]
          rw [same]
          refine .hangs hm hmiss ?_ (hplans hb)
          obtain ⟨o, ho⟩ := List.exists_mem_of_ne_nil _ fun h => hlive (List.isEmpty_iff.mpr h)
          exact ⟨o, live.mp ho⟩

include hw in
theorem planLayer_ran (hI : Heeds rivals I) (hrec : Runs w rivals I rec)
    {r : Except Halt Converter} (hs : Begins w I e [x] s)
    (h : planLayer w.catalog w.options d rec x s = (r, s')) :
    Ran w rivals I e (.visit x) [] s (r.map fun c => [c.content]) s' := by
  have settled : s.memory.settled x = (s.planner.settled.lookup x).map content := rfl
  have logs : e.opened ⊆ (Job.visit x).logs e := logs_visit.symm.subset
  rw [planLayer, bind_ok (planner_run s)] at h
  cases hc : s.planner.settled.lookup x with
  | some c =>
      rw [hc] at h settled
      cases h
      exact .rest hs (.refl s) hs.heeds fun _ => .remembered settled
  | none =>
      rw [hc] at h settled
      dsimp only at h
      by_cases hcaching : s.planner.caching = true
      · have cached : e.caching = true := hs.env.caching ▸ hcaching
        obtain ⟨hrivals, hIk⟩ := hI.arrive hs.heeds
        have look : fromCache x s =
            (.ok (Cache.get x s.shared.cache).1, s.caching s.shared.cache.arrive) := by
          rw [fromCache, bind_ok (planner_run s), if_pos hcaching]
          rfl
        have found : s.shared.cache.arrive.stock.converters x =
          (Cache.get x s.shared.cache).1.map content := rfl
        have moved : s.Rests (s.caching s.shared.cache.arrive) := rests_caching s _
        rw [bind_ok look] at h
        cases hget : (Cache.get x s.shared.cache).1 with
        | some c =>
            rw [hget] at h found
            dsimp only at h
            have targets : (bare c.content).targets = c.targets := targets_strip c
            rcases hb : takeBodies d c.targets.reverse (s.caching s.shared.cache.arrive)
              with ⟨f | u, t⟩
            · obtain ⟨hrest, hcache, -, hfault⟩ := takeBodies_takes hI d _ hIk hb
              rw [bind_error hb] at h
              cases h
              refine ⟨[], .rest hs (moved.trans hrest) hcache fun _ g hg => ?_⟩
              obtain ⟨⟨_, rfl⟩, takes⟩ := hfault g (congrArg _ hg)
              exact .bodyless settled cached hrivals found (targets.symm ▸ takes)
            · obtain ⟨hrest, hcache, hok, -⟩ := takeBodies_takes hI d _ hIk hb
              rw [bind_ok hb, bind_ok (modifyPlanner_run _ t), pure_run] at h
              cases h
              refine .rest hs ((moved.trans hrest).trans (rests_remember t x c)) hcache fun _ => ?_
              rw [memory_remember]
              exact .adopted settled cached hrivals found (targets.symm ▸ hok rfl)
        | none =>
            rw [hget] at h found
            have ran := planAnew_ran hw hI hrec (hs.rests moved hIk) settled
              (.shared cached hrivals found) h
            cases r with
            | error f =>
                obtain ⟨way, ran⟩ := ran
                exact ⟨way, (ran.mono logs fun _ _ _ => id).after moved⟩
            | ok c => exact (Course.mono ran logs fun _ _ _ => id).after moved
      · have cached : e.caching = false := by rw [← hs.env.caching]; simpa using hcaching
        have look : fromCache x s = (.ok none, s) := by
          rw [fromCache, bind_ok (planner_run s), if_neg hcaching]
          rfl
        rw [bind_ok look] at h
        have ran := planAnew_ran hw hI hrec hs settled (.alone cached) h
        cases r with
        | error f =>
            obtain ⟨way, ran⟩ := ran
            exact ⟨way, ran.mono logs fun _ _ _ => id⟩
        | ok c => exact Course.mono ran logs fun _ _ _ => id

include hw in
/-- Planning is a derivation of the judgement. -/
theorem planWithin_ran (hI : Heeds rivals I) :
    ∀ d, Runs w rivals I (planWithin w.catalog w.options d)
  | 0, e, x, s, r, s', hs, h => by
      cases h
      exact ⟨[], .rest hs (.refl s) hs.heeds fun _ _ => nofun⟩
  | d + 1, e, x, s, r, s', hs, h => planLayer_ran hw hI (planWithin_ran hI d) hs h

end Runs

end Marshal
