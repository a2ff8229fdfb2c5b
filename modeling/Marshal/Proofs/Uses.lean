import Marshal.Proofs.Truth

/-!
# Which guesses a result hangs on

The uses that planning logs depend on what was settled when, and on the order in
which types were met. `Plans.tracks` says what they are in the graph: an open type
is used exactly if it is met by a path that runs outside everything settled and
open. The set of settled types grows meanwhile, but a type is only settled when
nothing open is met from it, so what is settled later never hides an open type
that was seen before (`Meets.stable`).

`C` is what the cache held when planning began. What other planners add to it
since then must not lie on a cycle; types on a cycle that appear in the cache at
the wrong moment do hide open types.
-/

namespace Marshal

open Converter Relation

namespace World

open Planner

variable {w : World}

/-! ## Paths while the set to avoid grows -/

section Paths

variable {P Q : Set TyId} {x y z o u : TyId} {r : Referent}

/-- Adding types from which `o` is not met changes no path up to `o`. -/
theorem Meets.stable (hnew : ∀ v ∈ Q, v ∉ P → ¬w.Meets P v o) (h : w.Meets P y o) :
    w.Meets Q y o := by
  rcases h with rfl | ⟨z, h, e⟩
  · exact .refl w Q _
  rcases h.last Q with h | ⟨v, hv, hyv, rest⟩
  · exact .inr ⟨z, h.anti Set.subset_union_right, e⟩
  refine absurd ?_ (hnew v hv hyv.right)
  rcases rest with rfl | ⟨u, hu, h⟩
  · exact .inr ⟨v, .start hyv.right, e⟩
  · exact .inr ⟨z, .cons hyv.right hu (h.anti Set.subset_union_left), e⟩

/-- Nor does it change a path to a type from which `o` is met. -/
theorem Away.stable (hnew : ∀ v ∈ Q, v ∉ P → ¬w.Meets P v o) (h : w.Away P y u)
    (hu : w.Meets P u o) : w.Away Q y u := by
  rcases h.last Q with h | ⟨v, hv, hyv, rest⟩
  · exact h.anti Set.subset_union_right
  refine absurd ?_ (hnew v hv hyv.right)
  rcases rest with rfl | ⟨z, hz, h⟩
  · exact hu
  · exact .of_away (.cons hyv.right hz (h.anti Set.subset_union_left)) hu

/-- With one more type to avoid, either the same is met or that type. -/
theorem Meets.insert (z : TyId) (h : w.Meets P x o) :
    w.Meets (P ∪ {z}) x o ∨ w.Meets (P ∪ {z}) x z := by
  rcases h with rfl | ⟨y, h, e⟩
  · exact .inl (.refl w _ _)
  have first : w.Away (P ∪ {z}) x y ∨ w.Meets (P ∪ {z}) x z := by
    clear e
    induction h with
    | start hx =>
        by_cases hxz : x = z
        · exact .inr (.inl hxz)
        · exact .inl (.start fun h => h.elim hx hxz)
    | @step y u _ e hu ih =>
        rcases ih with h | h
        · by_cases huz : u = z
          · subst huz; exact .inr (.inr ⟨y, h, e⟩)
          · exact .inl (.step h e fun h => h.elim hu huz)
        · exact .inr h
  rcases first with h | h
  · exact .inl (.inr ⟨y, h, e⟩)
  · exact .inr h

/-- What is met from a reference is met from its node, without coming back. -/
theorem Meets.last_node (hr : w.Resolves x (.ok r)) (hne : x ≠ o) (h : w.Meets P x o) :
    w.Meets (P ∪ {x}) r.node o := by
  rcases h with h | ⟨z, h, e⟩
  · exact absurd h hne
  rcases h.last {x} with h | ⟨_, rfl, -, rfl | ⟨y, hy, h⟩⟩
  · exact absurd (Or.inr rfl) h.left
  · exact .inl ((edge_iff_node hr).mp e).symm
  · exact .inr ⟨z, (edge_iff_node hr).mp hy ▸ h, e⟩

end Paths

/-! ## What is settled -/

/-- The types whose converters are at hand: the settled ones, and those that the
cache held at the beginning. -/
def Fixed (C : Set TyId) (m : Memory) : Set TyId := {x | m.settled x ≠ none} ∪ C

/-- Where planning stops: at types at hand and at open ones. -/
def Bound (C : Set TyId) (e : Env) (m : Memory) : Set TyId := Fixed C m ∪ e.opened

/-- The type lies on a cycle of the graph. -/
def Cyclic (w : World) (x : TyId) : Prop := TransGen w.Edge x x

/-- Other planners take nothing out of the cache, and add no type on a cycle. -/
structure Acyclic (w : World) (rivals : Stock → Stock → Prop) : Prop where
  grows : ∀ {k k'}, rivals k k' → ∀ x, k.converters x ≠ none → k'.converters x ≠ none
  adds : ∀ {k k'}, rivals k k' → ∀ x, k'.converters x ≠ none →
    k.converters x ≠ none ∨ ¬w.Cyclic x

/-- Open types are not at hand, and the cache has no type on a cycle that is not. -/
structure Apart (w : World) (C : Set TyId) (e : Env) (m : Memory) : Prop where
  opened : ∀ o ∈ e.opened, o ∉ Fixed C m
  known : e.caching = true → ∀ x, m.cache.converters x ≠ none → x ∈ Fixed C m ∨ ¬w.Cyclic x
  cached : ∀ x ∈ C, e.caching = true ∧ m.cache.converters x ≠ none

/-- Every open type leads to where planning is, in one step or more. -/
structure Above (w : World) (e : Env) (job : Job) : Prop where
  refers : ∀ o ∈ e.opened, w.Refers o
  leads : ∀ o ∈ e.opened, ∀ x ∈ job.types, TransGen w.Edge o x

/-- A layer is only planned for a type that is not at hand. -/
def Due (C : Set TyId) (m : Memory) : Job → Prop
  | .layer x => x ∉ Fixed C m
  | _ => True

/-- What was settled from `m` to `m'` does not hide open types. -/
structure Clears (w : World) (C : Set TyId) (e : Env) (m m' : Memory) : Prop where
  apart : w.Apart C e m'
  mono : Fixed C m ⊆ Fixed C m'
  fresh : ∀ v ∈ Fixed C m', v ∉ Fixed C m → ∀ o ∈ e.opened, ¬w.Meets (Bound C e m) v o

variable {C : Set TyId} {e : Env} {m m₁ m' : Memory} {x y o : TyId} {g : Assembly.Content}

theorem bound_enter : Bound C (e.enter x g) m = Bound C e m ∪ {x} := by
  ext y
  simp [Bound, or_comm]

@[simp] theorem bound_inside (l : Bool) : Bound C (e.inside l) m = Bound C e m := rfl

theorem mem_fixed_put {c : Assembly.Content} :
    y ∈ Fixed C (m.remember x c) ↔ y = x ∨ y ∈ Fixed C m := by
  by_cases h : y = x
  · subst h; simp [Fixed]
  · simp [Fixed, Contents.put_of_ne h, h]

theorem fixed_congr (h : m'.settled = m.settled) : Fixed C m' = Fixed C m := by
  simp [Fixed, h]

namespace Clears

theorem refl (h : w.Apart C e m) : w.Clears C e m m :=
  ⟨h, subset_rfl, fun _ hv hn => absurd hv hn⟩

theorem fresh_bound (h : w.Clears C e m m') (ho : o ∈ e.opened) :
    ∀ v ∈ Bound C e m', v ∉ Bound C e m → ¬w.Meets (Bound C e m) v o := by
  rintro v (hv | hv) hn
  · exact h.fresh v hv (fun hm => hn (.inl hm)) o ho
  · exact absurd (Or.inr hv) hn

theorem bound_mono (h : w.Clears C e m m') : Bound C e m ⊆ Bound C e m' :=
  Set.union_subset_union_left _ h.mono

theorem meets (h : w.Clears C e m m') (ho : o ∈ e.opened) (hx : w.Meets (Bound C e m) x o) :
    w.Meets (Bound C e m') x o :=
  hx.stable (h.fresh_bound ho)

theorem trans (h : w.Clears C e m m₁) (h' : w.Clears C e m₁ m') : w.Clears C e m m' := by
  refine ⟨h'.apart, h.mono.trans h'.mono, fun v hv hn o ho hmeets => ?_⟩
  by_cases hv₁ : v ∈ Fixed C m₁
  · exact h.fresh v hv₁ hn o ho hmeets
  · exact h'.fresh v hv hv₁ o ho (h.meets ho hmeets)

/-- What was settled while one more type was open. -/
theorem leave (h : w.Clears C (e.enter x g) m m') : w.Clears C e m m' := by
  have below : e.opened ⊆ (e.enter x g).opened := by simp
  refine ⟨⟨fun o ho => h.apart.opened o (below ho), h.apart.known, h.apart.cached⟩, h.mono,
    fun v hv hn o ho hmeets => ?_⟩
  rcases hmeets.insert x with hm | hm
  · exact h.fresh v hv hn o (below ho) (bound_enter ▸ hm)
  · exact h.fresh v hv hn x (by simp) (bound_enter ▸ hm)

/-- What was settled at a part. -/
theorem outside {l : Bool} (h : w.Clears C (e.inside l) m m') : w.Clears C e m m' :=
  ⟨⟨h.apart.opened, h.apart.known, h.apart.cached⟩, h.mono, h.fresh⟩

/-- A type that is not at hand, and from whose child an open type is met, has not
been settled. -/
theorem notMem (h : w.Clears C e m m') (hx : x ∉ Bound C e m) (hxy : w.Edge x y)
    (ho : o ∈ e.opened) (hy : w.Meets (Bound C e m') y o) : x ∉ Bound C e m' := by
  rintro (hfixed | hopen)
  · exact h.fresh x hfixed (fun hm => hx (.inl hm)) o ho (.cons hx hxy (hy.anti h.bound_mono))
  · exact hx (.inr hopen)

theorem cons (h : w.Clears C e m m') (hx : x ∉ Bound C e m) (hxy : w.Edge x y)
    (ho : o ∈ e.opened) (hy : w.Meets (Bound C e m') y o) : w.Meets (Bound C e m') x o :=
  .cons (h.notMem hx hxy ho hy) hxy hy

end Clears

/-! ## Accesses -/

section Accesses

variable {rivals : Stock → Stock → Prop} {k : Stock} {c d : Assembly.Content}

theorem Apart.found (hq : w.Acyclic rivals) (h : w.Apart C e m) (hk : rivals m.cache k) :
    w.Apart C e (m.found k) where
  opened := h.opened
  known hc x hx := by
    rcases hq.adds hk x hx with hx | hx
    · exact h.known hc x hx
    · exact .inr hx
  cached x hx := ⟨(h.cached x hx).1, hq.grows hk x (h.cached x hx).2⟩

theorem Takes.apart (hq : w.Acyclic rivals) {stack : List TyId} {ok : Bool}
    (h : Takes rivals m stack m' ok) (hm : w.Apart C e m) : w.Apart C e m' := by
  induction h with
  | done => exact hm
  | skip _ _ ih => exact ih hm
  | take _ hk _ _ ih => exact ih ⟨hm.opened, (hm.found hq hk).known, (hm.found hq hk).cached⟩
  | missing _ hk _ => exact hm.found hq hk

theorem Publishes.apart (hq : w.Acyclic rivals) {bodies : Contents} {k k' : Stock}
    {tys : List TyId} (h : Publishes rivals bodies k tys k') (hm : w.Apart C e (m.found k)) :
    w.Apart C e (m.found k') := by
  induction h with
  | done => exact hm
  | skip _ _ ih => exact ih hm
  | offer _ hk _ ih => exact ih ⟨hm.opened, (hm.found hq hk).known, (hm.found hq hk).cached⟩

theorem Misses.apart (hq : w.Acyclic rivals) (h : Misses rivals e m x m') (hm : w.Apart C e m) :
    w.Apart C e m' ∧ m'.settled = m.settled ∧ m'.bodies = m.bodies ∧ x ∉ C := by
  cases h with
  | alone hc =>
      refine ⟨hm, rfl, rfl, fun hx => ?_⟩
      rw [(hm.cached x hx).1] at hc
      cases hc
  | shared _ hk hn =>
      refine ⟨hm.found hq hk, rfl, rfl, fun hx => ?_⟩
      exact hq.grows hk x (hm.cached x hx).2 hn

theorem Apart.remember (h : w.Apart C e m) (hx : x ∉ e.opened) : w.Apart C e (m.remember x c) where
  opened o ho hmem := by
    rcases mem_fixed_put.mp hmem with rfl | hmem
    · exact hx ho
    · exact h.opened o ho hmem
  known hc y hy := (h.known hc y hy).imp_left fun h => mem_fixed_put.mpr (.inr h)
  cached := h.cached

theorem Settles.apart (hq : w.Acyclic rivals) (h : Settles rivals e m x c d m')
    (hm : w.Apart C e m) (hx : x ∉ e.opened) :
    w.Apart C e m' ∧ m'.settled = m.settled.put x d ∧ m'.bodies = m.bodies := by
  cases h with
  | alone => exact ⟨hm.remember hx, rfl, rfl⟩
  | @shared tys k k₁ _ _ hp hk =>
      have hk₁ := (hp.apart hq (show w.Apart C e (m.found m.cache) from hm)).found hq hk
      refine ⟨⟨(hm.remember hx).opened, fun hc y hy => ?_, fun y hy => ⟨(hm.cached y hy).1, ?_⟩⟩,
        rfl, rfl⟩
      · by_cases hyx : y = x
        · exact .inl (mem_fixed_put.mpr (.inl hyx))
        · have hy' : k₁.converters y ≠ none := by
            simpa [Contents.keep_of_ne hyx] using hy
          exact (hk₁.known hc y hy').imp_left fun h => mem_fixed_put.mpr (.inr h)
      · exact Contents.extends_keep.ne_none (hk₁.cached y hy).2

end Accesses

/-! ## The main statement -/

/-- What is settled hides nothing, and a result hangs on what is met. -/
structure Tracks (w : World) (C : Set TyId) (e : Env) (job : Job) (m : Memory) (out : Verdict)
    (m' : Memory) : Prop where
  clears : w.Clears C e m m'
  uses : ∀ cs U, out = .ok (cs, U) → ∀ o ∈ e.opened,
    o ∈ U ↔ ∃ x ∈ job.types, w.Meets (Bound C e m') x o

theorem Tracks.fault {job : Job} {f : Failure} (h : w.Clears C e m m') :
    w.Tracks C e job m (.error f) m' := ⟨h, nofun⟩

/-- Nothing is met from a type at hand. -/
theorem Apart.not_meets (h : w.Apart C e m) (hx : x ∈ Fixed C m) (ho : o ∈ e.opened) :
    ¬w.Meets (Bound C e m) x o := by
  intro hm
  rcases hm.cases_head with rfl | ⟨hn, -⟩
  · exact h.opened _ ho hx
  · exact hn (.inl hx)

theorem Above.notMem_of_term {job : Job} (h : w.Above e job) {t : Term}
    (ht : w.arena.term? x = some t) (hn : t.isReference = false) : x ∉ e.opened := by
  intro hx
  obtain ⟨u, hu, hr⟩ := h.refers x hx
  cases ht.symm.trans hu
  rw [hn] at hr
  cases hr

theorem Above.enter (h : w.Above e (.layer x)) {r : Referent} (hr : w.Resolves x (.ok r)) :
    w.Above (e.enter x g) (.visit r.node) where
  refers o ho := by
    rw [Env.enter_opened] at ho
    rcases ho with rfl | ho
    · exact hr.refers
    · exact h.refers o ho
  leads o ho y hy := by
    rw [Env.enter_opened] at ho
    cases List.mem_singleton.mp hy
    rcases ho with rfl | ho
    · exact .single (.node hr)
    · exact .tail (h.leads o ho x (List.mem_singleton_self x)) (.node hr)

theorem Above.parts (h : w.Above e (.layer x)) {t : Term} {l : Layer}
    (ht : w.arena.term? x = some t) (hl : w.layer? x t = some l) : w.Above e (.parts l.parts) where
  refers := h.refers
  leads o ho y hy := by
    obtain ⟨p, hp, rfl⟩ := List.mem_map.mp hy
    exact .tail (h.leads o ho x (List.mem_singleton_self x)) (.part ht hl hp)

theorem Above.inline (h : w.Above e (.layer x)) {r : Referent} (hr : w.Resolves x (.ok r)) :
    w.Above e (.visit r.node) where
  refers := h.refers
  leads o ho y hy := by
    cases List.mem_singleton.mp hy
    exact .tail (h.leads o ho x (List.mem_singleton_self x)) (.node hr)

theorem Above.head {p : Part} {ps : List Part} (h : w.Above e (.parts (p :: ps))) :
    w.Above (e.inside p.lazy) (.visit p.ty) where
  refers := h.refers
  leads o ho y hy := by
    cases List.mem_singleton.mp hy
    exact h.leads o ho p.ty (by simp [Job.types])

theorem Above.tail {p : Part} {ps : List Part} (h : w.Above e (.parts (p :: ps))) :
    w.Above e (.parts ps) where
  refers := h.refers
  leads o ho y hy := h.leads o ho y (List.mem_cons_of_mem _ hy)

theorem Apart.enter (h : w.Apart C e m) (hx : x ∉ Fixed C m) : w.Apart C (e.enter x g) m where
  opened o ho := by
    rw [Env.enter_opened] at ho
    rcases ho with rfl | ho
    · exact hx
    · exact h.opened o ho
  known := h.known
  cached := h.cached

/-- A type that is not at hand is not open either, unless it is a reference whose
guess is used. -/
theorem Tracks.single {U : Set TyId} {cs : List Assembly.Content} {job : Job}
    (h : w.Tracks C e job m (.ok (cs, U)) m') (hty : job.types = [x]) {o : TyId}
    (ho : o ∈ e.opened) : o ∈ U ↔ w.Meets (Bound C e m') x o := by
  rw [h.uses cs U rfl o ho, hty]
  simp

section Cases

variable {rivals : Stock → Stock → Prop} {k : Stock} {c d : Assembly.Content} {U V : Set TyId}
  {cs : List Assembly.Content} {r : Referent}

/-- A type at hand hangs on nothing. -/
theorem Clears.at_hand (h : w.Clears C e m m') (hx : x ∈ Fixed C m') {cs : List Assembly.Content} :
    w.Tracks C e (.visit x) m (.ok (cs, ∅)) m' := by
  refine ⟨h, ?_⟩
  rintro _ _ ⟨⟩ o ho
  refine iff_of_false (Set.notMem_empty o) ?_
  rintro ⟨y, hy, hm⟩
  cases List.mem_singleton.mp hy
  exact h.apart.not_meets hx ho hm

theorem tracks_adopted (hq : w.Acyclic rivals) (hab : w.Above e (.visit x)) (ha : w.Apart C e m)
    (hc : e.caching = true) (hk : rivals m.cache k) (hkx : k.converters x = some c)
    (ht : Takes rivals (m.found k) (bare c).targets.reverse m' true) :
    w.Tracks C e (.visit x) m (.ok ([c], ∅)) (m'.remember x c) := by
  have hx : x ∈ Fixed C m ∨ ¬w.Cyclic x := (ha.found hq hk).known hc x (by simp [hkx])
  have hopen : x ∉ e.opened := fun ho => by
    rcases hx with hx | hx
    · exact ha.opened x ho hx
    · exact hx (hab.leads x ho x (List.mem_singleton_self x))
  have hfixed : Fixed C m' = Fixed C m := fixed_congr ht.settled
  refine Clears.at_hand ⟨(ht.apart hq (ha.found hq hk)).remember hopen, fun y hy => ?_,
    fun v hv hn o ho hm => ?_⟩ (mem_fixed_put.mpr (.inl rfl))
  · exact mem_fixed_put.mpr (.inr (hfixed ▸ hy))
  · rcases mem_fixed_put.mp hv with rfl | hv
    · -- The open type leads to `v`, so a `v` from which it is met lies on a cycle.
      refine hx.resolve_left hn ?_
      exact .trans_right hm.reach (hab.leads o ho v (List.mem_singleton_self v))
    · exact hn (hfixed ▸ hv)

/-- A type is settled when nothing open is met from it. -/
theorem tracks_settles (hq : w.Acyclic rivals) (hm : Misses rivals e m x m₁)
    (h : w.Tracks C e (.layer x) m₁ (.ok ([c], ∅)) m') (ha : w.Apart C e m) {m₂ : Memory}
    (hs : Settles rivals e m' x c d m₂) : w.Tracks C e (.visit x) m (.ok ([d], ∅)) m₂ := by
  have hopen : x ∉ e.opened := fun ho =>
    (h.single rfl ho).mpr (.refl w _ x)
  obtain ⟨-, hset, -, -⟩ := hm.apart hq ha
  obtain ⟨hap, hset', -⟩ := hs.apart hq h.clears.apart hopen
  have hfixed : Fixed C m₁ = Fixed C m := fixed_congr hset
  have hfixed' : Fixed C m₂ = Fixed C (m'.remember x d) := fixed_congr hset'
  refine Clears.at_hand ⟨hap, fun y hy => ?_, fun v hv hn o ho hmeets => ?_⟩
    (hfixed' ▸ mem_fixed_put.mpr (.inl rfl))
  · exact hfixed' ▸ mem_fixed_put.mpr (.inr (h.clears.mono (hfixed.symm ▸ hy)))
  · have hmeets₁ : w.Meets (Bound C e m₁) v o := by rwa [Bound, hfixed]
    rcases mem_fixed_put.mp (hfixed' ▸ hv) with rfl | hv
    · exact (h.single rfl ho).mpr (h.clears.meets ho hmeets₁)
    · exact h.clears.fresh v hv (hfixed ▸ hn) o ho hmeets₁

theorem tracks_hangs (hq : w.Acyclic rivals) (hm : Misses rivals e m x m₁) {out : Verdict}
    (h : w.Tracks C e (.layer x) m₁ out m') (ha : w.Apart C e m) :
    w.Tracks C e (.visit x) m out m' := by
  obtain ⟨-, hset, -, -⟩ := hm.apart hq ha
  have hfixed : Fixed C m₁ = Fixed C m := fixed_congr hset
  refine ⟨⟨h.clears.apart, hfixed ▸ h.clears.mono, fun v hv hn o ho => ?_⟩, h.uses⟩
  have := h.clears.fresh v hv (hfixed.symm ▸ hn) o ho
  rwa [Bound, hfixed] at this

theorem tracks_leaf (hab : w.Above e (.layer x)) (ha : w.Apart C e m) {t : Term}
    (ht : w.arena.term? x = some t) (hl : t.isLeaf = true) :
    w.Tracks C e (.layer x) m (.ok ([none], ∅)) m := by
  refine ⟨.refl ha, ?_⟩
  rintro _ _ ⟨⟩ o ho
  refine iff_of_false (Set.notMem_empty o) ?_
  rintro ⟨y, hy, hm⟩
  cases List.mem_singleton.mp hy
  rcases hm.cases_head with rfl | ⟨-, z, e', -⟩
  · exact hab.notMem_of_term ht (not_isReference_of_leaf hl) ho
  · exact not_edge_of_leaf ht hl e'

theorem tracks_assembled (hab : w.Above e (.layer x)) (hx : x ∉ Fixed C m) {t : Term} {l : Layer}
    (ht : w.arena.term? x = some t) (hl : w.layer? x t = some l)
    (hb : w.Answers l.before (.ok ())) (h : w.Tracks C e (.parts l.parts) m (.ok (cs, U)) m') :
    w.Tracks C e (.layer x) m (.ok ([c], U)) m' := by
  have hopen := hab.notMem_of_term ht (isReference_of_layer hl)
  refine ⟨h.clears, ?_⟩
  rintro _ _ ⟨⟩ o ho
  rw [h.uses cs U rfl o ho]
  constructor
  · rintro ⟨_, hmem, hm⟩
    obtain ⟨p, hp, rfl⟩ := List.mem_map.mp hmem
    refine ⟨x, List.mem_singleton_self x, h.clears.cons ?_ (.part ht hl hp) ho hm⟩
    exact fun h => h.elim hx hopen
  · rintro ⟨y, hy, hm⟩
    cases List.mem_singleton.mp hy
    rcases hm.cases_head with rfl | ⟨-, z, e', hm⟩
    · exact absurd ho hopen
    · obtain ⟨p, hp, rfl⟩ := (edge_iff_part ht hl hb).mp e'
      exact ⟨p.ty, List.mem_map_of_mem hp, hm⟩

theorem tracks_guessed (ha : w.Apart C e m) (hx : x ∈ e.opened) :
    w.Tracks C e (.layer x) m (.ok ([c], {x})) m := by
  refine ⟨.refl ha, ?_⟩
  rintro _ _ ⟨⟩ o -
  constructor
  · rintro rfl
    exact ⟨o, List.mem_singleton_self o, .refl w _ o⟩
  · rintro ⟨y, hy, hm⟩
    cases List.mem_singleton.mp hy
    rcases hm.cases_head with rfl | ⟨hn, -⟩
    · rfl
    · exact absurd (Or.inr hx) hn

theorem tracks_inline (hr : w.Resolves x (.ok r)) (hx : x ∉ Fixed C m) (hopen : e.find? x = none)
    (h : w.Tracks C e (.visit r.node) m (.ok (cs, U)) m') :
    w.Tracks C e (.layer x) m (.ok (cs, U)) m' := by
  have hopen := Env.notMem_opened.mpr hopen
  refine ⟨h.clears, ?_⟩
  rintro _ _ ⟨⟩ o ho
  rw [h.single rfl ho]
  constructor
  · intro hm
    refine ⟨x, List.mem_singleton_self x, h.clears.cons ?_ (.node hr) ho hm⟩
    exact fun h => h.elim hx hopen
  · rintro ⟨y, hy, hm⟩
    cases List.mem_singleton.mp hy
    rcases hm.cases_head with rfl | ⟨-, z, e', hm⟩
    · exact absurd ho hopen
    · exact (edge_iff_node hr).mp e' ▸ hm

/-- The last turn of a recursive type. The uses of an earlier turn are met in this
one as well. -/
theorem tracks_turns (hr : w.Resolves x (.ok r)) (hopen : e.find? x = none)
    (h : w.Clears C e m m') (ha : w.Apart C (e.enter x g) m') {W : Set TyId}
    (hlast : ∀ o ∈ (e.enter x g).opened, o ∈ V → w.Meets (Bound C (e.enter x g) m') r.node o)
    (hall : ∀ o ∈ (e.enter x g).opened, w.Meets (Bound C (e.enter x g) m') r.node o → o ∈ W)
    (hWV : W ⊆ V) : w.Tracks C e (.layer x) m (.ok ([c], V \ {x})) m' := by
  have hopen := Env.notMem_opened.mpr hopen
  have below {o : TyId} (ho : o ∈ e.opened) : o ∈ (e.enter x g).opened := by simp [ho]
  refine ⟨h, ?_⟩
  rintro _ _ ⟨⟩ o ho
  have hxo : x ≠ o := fun heq => hopen (heq ▸ ho)
  constructor
  · rintro ⟨hoV, -⟩
    have hm := hlast o (below ho) hoV
    rw [bound_enter] at hm
    have hx : x ∉ Bound C e m' := by
      rintro (hx | hx)
      · exact ha.opened x (by simp) hx
      · exact hopen hx
    exact ⟨x, List.mem_singleton_self x,
      .cons hx (.node hr) (hm.anti Set.subset_union_left)⟩
  · rintro ⟨y, hy, hm⟩
    cases List.mem_singleton.mp hy
    refine ⟨hWV (hall o (below ho) ?_), fun h => hxo h.symm⟩
    rw [bound_enter]
    exact hm.last_node hr hxo

end Cases

variable {rivals : Stock → Stock → Prop}

/-- What is settled on the way hides no open type, and a result hangs on the open
types that are met. -/
theorem Plans.tracks (hq : w.Acyclic rivals) {job : Job} {out : Verdict}
    (h : w.Plans rivals e job m out m') : w.Above e job → Due C m job → w.Apart C e m →
      w.Tracks C e job m out m' := by
  induction h with
  | remembered hs =>
      intro _ _ ha
      exact Clears.at_hand (.refl ha) (.inl (by simp [hs]))
  | adopted _ hc hk hkx ht => exact fun hab _ ha => tracks_adopted hq hab ha hc hk hkx ht
  | bodyless _ _ hk _ ht =>
      intro _ _ ha
      have hfixed := fixed_congr (C := C) ht.settled
      refine .fault ⟨ht.apart hq (ha.found hq hk), hfixed.symm ▸ subset_rfl, fun v hv hn => ?_⟩
      exact absurd (hfixed ▸ hv) hn
  | settles hs hm _ hset ih =>
      intro hab _ ha
      obtain ⟨ha₁, hset₁, -, hxC⟩ := hm.apart hq ha
      have hx : _ ∉ Fixed C _ := fun h => h.elim (fun h => h (hset₁ ▸ hs)) hxC
      exact tracks_settles hq hm (ih ⟨hab.refers, hab.leads⟩ hx ha₁) ha hset
  | hangs hs hm _ _ ih | fails hs hm _ ih =>
      intro hab _ ha
      obtain ⟨ha₁, hset₁, -, hxC⟩ := hm.apart hq ha
      have hx : _ ∉ Fixed C _ := fun h => h.elim (fun h => h (hset₁ ▸ hs)) hxC
      exact tracks_hangs hq hm (ih ⟨hab.refers, hab.leads⟩ hx ha₁) ha
  | leaf ht hl => exact fun hab _ ha => tracks_leaf hab ha ht hl
  | refused | circles | unresolved | grows | partRefused =>
      exact fun _ _ ha => .fault (.refl ha)
  | partsFail ht hl _ _ ih | unassembled ht hl _ _ _ ih =>
      exact fun hab _ ha => .fault (ih (hab.parts ht hl) trivial ha).clears
  | assembled ht hl hb _ _ ih =>
      exact fun hab hx ha => tracks_assembled hab hx ht hl hb (ih (hab.parts ht hl) trivial ha)
  | guessed _ ho _ => exact fun _ _ ha => tracks_guessed ha (Env.mem_opened.mpr ⟨_, ho⟩)
  | inline hopen hr _ _ ih =>
      exact fun hab hx ha => tracks_inline hr hx hopen (ih (hab.inline hr) trivial ha)
  | inlineFails _ hr _ _ ih => exact fun hab _ ha => .fault (ih (hab.inline hr) trivial ha).clears
  | firstFails _ hr _ _ _ ih =>
      exact fun hab hx ha => .fault (ih (hab.enter hr) trivial (ha.enter hx)).clears.leave
  | idle hopen hr _ _ _ ih =>
      intro hab hx ha
      have h := ih (hab.enter hr) trivial (ha.enter hx)
      exact tracks_turns hr hopen h.clears.leave h.clears.apart
        (fun o ho => (h.single rfl ho).mp) (fun o ho => (h.single rfl ho).mpr) subset_rfl
  | @secondFails _ _ _ _ x _ _ _ _ _ hr _ _ _ _ _ ih ih' =>
      intro hab hx ha
      have h := ih (hab.enter hr) trivial (ha.enter hx)
      have ha' := h.clears.leave.apart.enter (g := deferring x)
        (h.clears.apart.opened x (by simp))
      exact .fault (h.clears.leave.trans (ih' (hab.enter hr) trivial ha').clears.leave)
  | @defers e m m₁ m₂ x r c d U V hopen hr _ _ _ _ _ ih ih' =>
      intro hab hx ha
      have h := ih (hab.enter hr) trivial (ha.enter hx)
      have ha' := h.clears.leave.apart.enter (g := deferring x)
        (h.clears.apart.opened x (by simp))
      have h' := ih' (hab.enter hr) trivial ha'
      have all := h.clears.leave.trans h'.clears.leave
      refine tracks_turns (g := deferring x) hr hopen
        ⟨⟨all.apart.opened, all.apart.known, all.apart.cached⟩, all.mono, all.fresh⟩
        ⟨h'.clears.apart.opened, h'.clears.apart.known, h'.clears.apart.cached⟩
        (V := U ∪ V) (W := V) ?_ (fun o ho => (h'.single rfl ho).mpr) Set.subset_union_right
      rintro o ho (hoU | hoV)
      · have ho' : o ∈ (e.enter x none).opened := by simpa using ho
        refine h'.clears.meets ho ?_
        have := (h.single rfl ho').mp hoU
        rwa [bound_enter] at this ⊢
      · exact (h'.single rfl ho).mp hoV
  | noParts =>
      intro _ _ ha
      refine ⟨.refl ha, ?_⟩
      rintro _ _ ⟨⟩ o -
      simp [Job.types]
  | partFails _ _ ih =>
      intro hab _ ha
      have h := ih hab.head trivial ⟨ha.opened, ha.known, ha.cached⟩
      exact .fault h.clears.outside
  | restFails _ _ _ ih ih' =>
      intro hab _ ha
      have h := ih hab.head trivial ⟨ha.opened, ha.known, ha.cached⟩
      have hc := h.clears.outside
      exact .fault (hc.trans (ih' hab.tail trivial hc.apart).clears)
  | @someParts e m m₁ m' p ps c cs U V _ _ _ ih ih' =>
      intro hab _ ha
      have h := ih hab.head trivial ⟨ha.opened, ha.known, ha.cached⟩
      have hc := h.clears.outside
      have h' := ih' hab.tail trivial hc.apart
      refine ⟨hc.trans h'.clears, ?_⟩
      rintro _ _ ⟨⟩ o ho
      have head : o ∈ U ↔ w.Meets (Bound C e m') p.ty o :=
        (h.single rfl ho).trans
          ⟨h'.clears.meets ho, fun hm => hm.anti h'.clears.bound_mono⟩
      simp only [Set.mem_union, head, h'.uses cs V rfl o ho, Job.types, List.map_cons,
        List.mem_cons, exists_eq_or_imp]

end World

end Marshal
