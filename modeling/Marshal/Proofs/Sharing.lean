import Marshal.Proofs.Restoring

/-!
# One instance for a type

Planners that share a cache remember results on their own, too, so a converter may come
from the planner's memory, from the cache, or be made anew and lose to one that was
published before. All these are one instance, for two reasons. The cache keeps what it
holds (`Cache.Keeps`). And a planner with a cache remembers nothing but what the cache has
answered, so its memory is a part of the cache (`Planner.Mirrors`). Both are kept by all
of planning, in any state whatever (`mirrors`).

What remains is that an answer is remembered. In the midst of a recursive type it may not
be, if it hangs on a guess. But no guess is open between two calls, so what a call has
planned is settled when it returns (`planWithin_settles`).

Nothing is asked of what is put into the cache by hand, or by planners that work at the
same time. A planner may then fail to find a body for what it is served, but it remembers
nothing in that case.
-/

namespace Marshal

open Planner PlanM World Relation

/-! ## The cache keeps what it holds -/

namespace Cache

variable {k k' k'' : Cache} {entries : List (TyId × Converter)} {ty u : TyId} {c d : Converter}

/-- Every converter in the first cache is in the second, the same instance. -/
def Part (k k' : Cache) : Prop := ∀ u c, k.converter? u = some c → k'.converter? u = some c

theorem Part.trans (h : k.Part k') (h' : k'.Part k'') : k.Part k'' :=
  fun u c hu => h' u c (h u c hu)

theorem settle_keeps (h : entries.lookup u = some d) :
    (settle entries ty c).2.lookup u = some d := by
  unfold settle
  cases hty : entries.lookup ty with
  | some _ => exact h
  | none =>
      have hne : u ≠ ty := by
        rintro rfl
        rw [hty] at h
        cases h
      rw [List.lookup_cons, beq_false_of_ne hne]
      exact h

/-- The answer is what is there from now on. -/
theorem lookup_settled (entries : List (TyId × Converter)) (ty : TyId) (c : Converter) :
    (settle entries ty c).2.lookup ty = some (settle entries ty c).1 := by
  unfold settle
  cases hty : entries.lookup ty with
  | some _ => exact hty
  | none => exact List.lookup_cons_self

theorem part_receive (k : Cache) (o : Offer) : k.Part (k.receive o) := by
  cases o with
  | converter ty c => exact fun _ _ h => settle_keeps h
  | body ty c => exact fun _ _ h => h

theorem part_receives : ∀ (batch : List Offer) (k : Cache), k.Part (batch.foldl receive k)
  | [], _ => fun _ _ h => h
  | o :: batch, k => (part_receive k o).trans (part_receives batch (k.receive o))

theorem part_arrive (k : Cache) : k.Part k.arrive := by
  rw [arrive]
  cases k.incoming with
  | nil => exact fun _ _ h => h
  | cons batch later =>
      exact fun u c h => part_receives batch { k with incoming := later } u c h

/-- What the first cache holds the second one holds, and what the first would answer when
it is asked, with what arrives by then, the second would. -/
structure Keeps (k k' : Cache) : Prop where
  held : k.Part k'
  found : k.arrive.Part k'.arrive

theorem Keeps.refl (k : Cache) : k.Keeps k := ⟨fun _ _ h => h, fun _ _ h => h⟩

theorem Keeps.trans (h : k.Keeps k') (h' : k'.Keeps k'') : k.Keeps k'' :=
  ⟨h.held.trans h'.held, h.found.trans h'.found⟩

theorem Keeps.get (h : k.Keeps k') (hu : (k.get u).1 = some c) : (k'.get u).1 = some c :=
  h.found u c hu

/-- Every access takes in what arrives before it does anything else. -/
theorem keeps_of_arrived (h : k.arrive.Part k') : k.Keeps k' :=
  ⟨(part_arrive k).trans h, h.trans (part_arrive k')⟩

theorem keeps_arrive (k : Cache) : k.Keeps k.arrive := keeps_of_arrived fun _ _ h => h

theorem keeps_offer (ty : TyId) (c : Converter) (k : Cache) : k.Keeps (k.offer ty c).2 :=
  keeps_of_arrived fun _ _ h => settle_keeps h

theorem keeps_offerBody (ty : TyId) (c : Converter) (k : Cache) : k.Keeps (k.offerBody ty c).2 :=
  keeps_of_arrived fun _ _ h => h

end Cache

/-! ## Memories are parts of the cache -/

/-- What the planner has settled is in the cache, if it uses it. -/
def Planner.Mirrors (p : Planner) (k : Cache) : Prop :=
  p.caching = true → ∀ u c, p.settled.lookup u = some c → k.converter? u = some c

namespace Planner.Mirrors

variable {p q : Planner} {k k' : Cache} {ty : TyId} {c : Converter}

theorem later (h : p.Mirrors k) (hk : k.Keeps k') : p.Mirrors k' :=
  fun hp u c hu => hk.held u c (h hp u c hu)

theorem of_same (h : p.SameMemory q) (hp : p.Mirrors k) : q.Mirrors k := by
  rw [Mirrors, h.caching, h.settled]
  exact hp

theorem remember (h : p.Mirrors k) (hty : p.caching = true → k.converter? ty = some c) :
    (p.remember ty c).Mirrors k := by
  intro hp u d hu
  rw [Planner.remember, List.lookup_cons] at hu
  by_cases hut : u = ty
  · subst hut
    rw [beq_self_eq_true] at hu
    exact Option.some.inj hu ▸ hty hp
  · rw [beq_false_of_ne hut] at hu
    exact h hp u d hu

end Planner.Mirrors

/-- The cache keeps what it holds, and the planner's memory stays a part of it. -/
def mirrors : Conduct := fun s _ t =>
  s.shared.cache.Keeps t.shared.cache ∧ t.planner.caching = s.planner.caching ∧
    (s.planner.Mirrors s.shared.cache → t.planner.Mirrors t.shared.cache)

theorem mirrors_refl (s : PlanState) (h : Option Halt) : mirrors s h s :=
  ⟨.refl _, rfl, id⟩

theorem mirrors_blind : mirrors.Blind where
  peeks {s t _} same _ := by
    rw [mirrors, same.cache, same.planner]
    exact ⟨.refl _, rfl, id⟩
  seq h h' := ⟨h.1.trans h'.1, h'.2.1.trans h.2.1, h'.2.2 ∘ h.2.2⟩
  scratch hp hq h :=
    ⟨h.1, hq.caching.trans (h.2.1.trans hp.caching.symm), fun hs =>
      .of_same hq (h.2.2 (.of_same ⟨hp.caching.symm, hp.settled.symm⟩ hs))⟩
  cyclic s _ _ := mirrors_refl s _

namespace Planner

variable {catalog : Catalog} {options : Options} {depth : Nat} {rec : TyId → PlanM Converter}
  {ty : TyId} {s t : PlanState} {c : Converter}

theorem onCache_mirrors {α : Type} {f : Cache → α × Cache} (hf : ∀ k : Cache, k.Keeps (f k).2) :
    Obeys mirrors (onCache f) :=
  fun s => ⟨hf s.shared.cache, rfl, fun h => h.later (hf s.shared.cache)⟩

/-- What is in the cache may be remembered. -/
theorem remember_mirrors (hty : s.planner.caching = true → s.shared.cache.converter? ty = some c) :
    mirrors s none (s.planning (s.planner.remember ty c)) :=
  ⟨.refl _, rfl, fun h => h.remember hty⟩

theorem shareBodies_mirrors : ∀ tys : List TyId, Obeys mirrors (shareBodies tys)
  | [] => .of_peeks mirrors_blind.lawful (.pure _)
  | ty :: tys => by
      have lawful := mirrors_blind.lawful
      refine .bind lawful (.of_peeks lawful .planner) fun p => ?_
      split
      · exact .bind lawful (onCache_mirrors (Cache.keeps_offerBody ty _)) fun _ =>
          shareBodies_mirrors tys
      · exact shareBodies_mirrors tys

theorem takeBodies_mirrors : ∀ (turns : Nat) (stack : List TyId),
    Obeys mirrors (takeBodies turns stack)
  | _, [] => by
      rw [takeBodies]
      exact .of_peeks mirrors_blind.lawful (.pure _)
  | 0, _ :: _ => .of_peeks mirrors_blind.lawful .halted
  | turns + 1, ty :: stack => by
      have lawful := mirrors_blind.lawful
      refine .bind lawful (.of_peeks lawful .planner) fun p => ?_
      split
      · exact takeBodies_mirrors turns stack
      · refine .bind lawful (onCache_mirrors Cache.keeps_arrive) fun body => ?_
        split
        · exact .bind lawful (.of_peeks lawful (.shown ty)) fun _ => fun s => mirrors_refl s _
        · exact .bind lawful (mirrors_blind.modifies fun _ => ⟨rfl, rfl⟩) fun _ =>
            takeBodies_mirrors turns _

theorem settle_mirrors (c : Converter) : Obeys mirrors (settle ty c) := fun s => by
  have seq {s t u : PlanState} {h : Option Halt} := mirrors_blind.seq (s := s) (t := t) (u := u)
    (h := h)
  rw [settle, bind_ok (planner_run s)]
  split
  · have shared := shareBodies_mirrors (s.planner.fixpoints.needed c.targets) s
    obtain ⟨sh, hshare⟩ := shareBodies_run (s.planner.fixpoints.needed c.targets) s
    rw [hshare] at shared
    rw [bind_ok hshare]
    have offered := onCache_mirrors (Cache.keeps_offer ty c) ⟨sh, s.planner⟩
    exact seq shared (seq offered (remember_mirrors fun _ => Cache.lookup_settled _ ty c))
  · next hc => exact remember_mirrors fun h => absurd h hc

/-- What is served from the cache is in the cache from then on. -/
theorem fromCache_found (h : fromCache ty s = (.ok (some c), t)) :
    t.shared.cache.converter? ty = some c := by
  rw [fromCache, bind_ok (planner_run s)] at h
  split at h
  · obtain ⟨found, rfl⟩ := Prod.mk.inj h
    exact Except.ok.inj found
  · cases h

theorem fromCache_mirrors : Obeys mirrors (fromCache ty) := by
  have lawful := mirrors_blind.lawful
  refine .bind lawful (.of_peeks lawful .planner) fun p => ?_
  split
  · exact onCache_mirrors Cache.keeps_arrive
  · exact .of_peeks lawful (.pure _)

theorem planLayer_mirrors (hrec : ∀ ty, Obeys mirrors (rec ty)) :
    Obeys mirrors (planLayer catalog options depth rec ty) := by
  have lawful := mirrors_blind.lawful
  have term : Obeys mirrors (forTerm catalog options depth rec ty) :=
    lawful.term hrec (mirrors_blind.reference hrec)
  have anew : Obeys mirrors (planAnew catalog options depth rec ty) := by
    refine .bind lawful (.of_peeks lawful .planner) fun p => ?_
    refine .bind lawful (mirrors_blind.dropsUsesOnHalt term) fun c => ?_
    refine .bind lawful (.of_peeks lawful .planner) fun q => ?_
    split
    · exact .bind lawful (mirrors_blind.modifies fun _ => ⟨rfl, rfl⟩) fun _ => settle_mirrors c
    · exact .bind lawful (mirrors_blind.modifies fun _ => ⟨rfl, rfl⟩) fun _ =>
        .of_peeks lawful (.pure _)
  refine .bind lawful (.of_peeks lawful .planner) fun p => ?_
  split
  · exact .of_peeks lawful (.pure _)
  · intro s
    have looked : mirrors s _ (fromCache ty s).2 := fromCache_mirrors s
    obtain ⟨found, sh, look⟩ := fromCache_run ty s
    rw [look] at looked
    rw [bind_ok look]
    refine lawful.seq looked ?_
    cases found with
    | none => exact anew _
    | some c =>
        have taking := takeBodies_mirrors depth c.targets.reverse ⟨sh, s.planner⟩
        dsimp only
        rcases taken : takeBodies depth c.targets.reverse ⟨sh, s.planner⟩ with ⟨h | _, t⟩ <;>
          rw [taken] at taking
        · rw [bind_error taken]
          exact taking
        · rw [bind_ok taken]
          exact lawful.seq taking (remember_mirrors fun _ => taking.1.held _ _ (fromCache_found look))

theorem planWithin_mirrors : ∀ (depth : Nat) (ty : TyId),
    Obeys mirrors (planWithin catalog options depth ty)
  | 0, _ => .of_peeks mirrors_blind.lawful .halted
  | depth + 1, _ => planLayer_mirrors (planWithin_mirrors depth)

/-! ## Answers are remembered -/

theorem liveUses_nil {p : Planner} {mark : Nat} (h : ∀ u, p.guess? u = none) :
    p.liveUses mark = [] := by
  have none_open : (p.uses.drop mark).filter (fun u => (p.guess? u).isSome) = [] :=
    List.filter_eq_nil_iff.mpr fun u _ => by simp [h u]
  rw [Planner.liveUses, none_open]
  rfl

/-- Where no guess is open, what is planned anew is settled. -/
theorem planAnew_settles (hs : ∀ u, s.planner.guess? u = none)
    (h : planAnew catalog options depth (planWithin catalog options depth) ty s = (.ok c, t)) :
    t.planner.settled.lookup ty = some c := by
  have restored : Obeys (restores {ty})
      (forTerm catalog options depth (planWithin catalog options depth) ty) := by
    have planned (u : TyId) : Obeys (restores ∅) (planWithin catalog options depth u) :=
      fun s => (planWithin_clears catalog options depth u s).1
    exact (restores_lawful {ty}).term (fun u s => (planned u s).mono (Set.empty_subset _))
      (forReference_restores planned)
  rw [planAnew, bind_ok (planner_run s)] at h
  rcases bind_cases h with ⟨_, -, h⟩ | ⟨made, u, hmade, h⟩
  · cases h
  have ran := restored s
  rw [dropUsesOnHalt] at hmade
  rcases hterm : forTerm catalog options depth (planWithin catalog options depth) ty s with
    ⟨e | v, u'⟩ <;> rw [hterm] at ran hmade
  · cases hmade
  · cases hmade
    have closed : ∀ x, u.planner.guess? x = none := fun x => (ran.guess? x).trans (hs x)
    rw [bind_ok (planner_run u), liveUses_nil closed, if_pos List.isEmpty_nil] at h
    obtain ⟨kept, sh, hsettle⟩ := settle_run ty made
      (u.planning (u.planner.truncateUses s.planner.uses.length))
    rw [bind_ok (modifyPlanner_run _ u), hsettle] at h
    cases h
    exact List.lookup_cons_self

theorem planWithin_settles (hs : ∀ u, s.planner.guess? u = none)
    (h : planWithin catalog options depth ty s = (.ok c, t)) :
    t.planner.settled.lookup ty = some c := by
  cases depth with
  | zero => cases h
  | succ depth =>
      rw [planWithin, planLayer, bind_ok (planner_run s)] at h
      cases hty : s.planner.settled.lookup ty with
      | some d =>
          rw [hty] at h
          cases h
          exact hty
      | none =>
          obtain ⟨found, sh, look⟩ := fromCache_run ty s
          rw [hty] at h
          dsimp only at h
          rw [bind_ok look] at h
          cases found with
          | none => exact planAnew_settles (s := ⟨sh, s.planner⟩) hs h
          | some d =>
              rcases bind_cases h with ⟨_, -, h⟩ | ⟨_, u, -, h⟩
              · cases h
              · cases h
                exact List.lookup_cons_self

end Planner

/-! ## Sessions in which anything is published -/

theorem Converter.sharesInstance_self (c : Converter) : c.sharesInstance c = true := by
  cases c with
  | identity => rfl
  | custom => exact beq_self_eq_true _

/-- Both types have the same structure: the same term, over parts that have the same
structure. -/
inductive Arena.Alike (a : Arena) : TyId → TyId → Prop
  | intro {x y : TyId} {t : Term} {ids : List TyId} : a.term? x = some t →
      ids.length = t.children.length → (∀ p ∈ t.children.zip ids, Alike a p.1 p.2) →
      a.term? y = some (t.rebuild ids) → Alike a x y

/-- Types with the same structure are one type. -/
theorem Arena.Alike.eq {a : Arena} {x y : TyId} (ha : a.Sound) (h : a.Alike x y) : x = y := by
  induction h with
  | @intro x y t ids ht hlen _ hy ih =>
      have same : ids = t.children := calc
        ids = (t.children.zip ids).map Prod.snd := (List.map_snd_zip (Nat.le_of_eq hlen)).symm
        _ = (t.children.zip ids).map Prod.fst := List.map_congr_left fun p hp => (ih p hp).symm
        _ = t.children := List.map_fst_zip (Nat.le_of_eq hlen.symm)
      rw [same, t.rebuild_children] at hy
      exact ha.unique ht hy

/-- Every type has its own structure. The induction is on ids: parts come before wholes. -/
theorem Arena.Alike.refl {a : Arena} (ha : a.Sound) (x : TyId) (hx : a.Has x) : a.Alike x x := by
  obtain ⟨t, ht⟩ := Arena.has_iff.mp hx
  have pairs : t.children.zip t.children = t.children.map fun c => (c, c) := by
    simpa using List.zip_map' (f := id) (g := id) (l := t.children)
  refine .intro ht rfl (fun p hp => ?_) (t.rebuild_children.symm ▸ ht)
  rw [pairs] at hp
  obtain ⟨c, hc, rfl⟩ := List.mem_map.mp hp
  have before := ha.below ht c hc
  exact Alike.refl ha c (ha.has_child ht hc)
termination_by x.index

namespace Session

variable {catalog : Catalog} {options : Options} {S S' : Session}

/-- The session with another cache. -/
def caching (S : Session) (k : Cache) : Session := { S with shared := { S.shared with cache := k } }

/-- What may be done next: a planner joins, types are added, a converter or a body is put
into the cache by hand, the cache is asked for one, or a planner is called, whatever it
comes to. -/
inductive Acts (catalog : Catalog) (options : Options) (S : Session) : Session → Prop
  | joins (caching : Bool) :
      Acts catalog options S { S with planners := S.planners ++ [.new caching] }
  | grows {a : Arena} : S.shared.arena.Within a → a.Sound →
      Acts catalog options S { S with shared := { S.shared with arena := a } }
  | publishes (ty : TyId) (c : Converter) :
      Acts catalog options S (S.caching (S.shared.cache.offer ty c).2)
  | publishesBody (ty : TyId) (c : Converter) :
      Acts catalog options S (S.caching (S.shared.cache.offerBody ty c).2)
  | looks (ty : TyId) : Acts catalog options S (S.caching (S.shared.cache.get ty).2)
  | calls {i : Nat} {p : Planner} {call : Call} {d : Nat} {r : Except Halt Answer}
      {s : PlanState} : S.planners[i]? = some p → (∀ x ∈ call.types, S.shared.arena.Has x) →
      call.run catalog options d ⟨S.shared, p⟩ = (r, s) → Acts catalog options S (S.after i s)

/-- What may be done, one thing after the other. -/
def Leads (catalog : Catalog) (options : Options) : Session → Session → Prop :=
  ReflTransGen (Acts catalog options)

/-- What is true of a session between two acts, whatever is in its cache. -/
structure Mirrored (catalog : Catalog) (S : Session) : Prop where
  sound : S.shared.arena.Sound
  spans : catalog.Over S.shared.arena
  idle : ∀ p ∈ S.planners, (World.idle p.caching).Of p
  mirrors : ∀ p ∈ S.planners, p.Mirrors S.shared.cache

theorem call_mirrors {call : Call} {d : Nat} {s t : PlanState} {r : Except Halt Answer}
    (h : call.run catalog options d s = (r, t)) : mirrors s (haltOf r) t := by
  have obeys : Obeys mirrors (call.run catalog options d) :=
    mirrors_blind.lawful.call (planWithin_mirrors d) call
  have ran := obeys s
  rwa [h] at ran

theorem Acts.keeps (h : Acts catalog options S S') : S.shared.cache.Keeps S'.shared.cache := by
  cases h with
  | joins | grows => exact .refl _
  | publishes ty c => exact Cache.keeps_offer ty c _
  | publishesBody ty c => exact Cache.keeps_offerBody ty c _
  | looks => exact Cache.keeps_arrive _
  | calls _ _ hrun => exact (call_mirrors hrun).1

theorem Leads.keeps (h : Leads catalog options S S') : S.shared.cache.Keeps S'.shared.cache := by
  induction h with
  | refl => exact .refl _
  | tail _ hnext ih => exact ih.trans hnext.keeps

/-- A cache that keeps what it holds leaves memories parts of it. -/
theorem Mirrored.later (hS : S.Mirrored catalog) {k : Cache} (hk : S.shared.cache.Keeps k) :
    (S.caching k).Mirrored catalog :=
  ⟨hS.sound, hS.spans, hS.idle, fun p hp => (hS.mirrors p hp).later hk⟩

theorem Mirrored.act (hS : S.Mirrored catalog) (h : Acts catalog options S S') :
    S'.Mirrored catalog := by
  cases h with
  | joins k =>
      refine ⟨hS.sound, hS.spans, fun p hp => ?_, fun p hp => ?_⟩ <;>
        rcases List.mem_append.mp hp with hp | hp
      · exact hS.idle p hp
      · cases List.mem_singleton.mp hp
        exact idle_new k
      · exact hS.mirrors p hp
      · cases List.mem_singleton.mp hp
        exact fun _ u c hu => nomatch hu
  | grows hsa ha => exact ⟨ha, hS.spans.within hsa, hS.idle, hS.mirrors⟩
  | publishes ty c => exact hS.later (Cache.keeps_offer ty c _)
  | publishesBody ty c => exact hS.later (Cache.keeps_offerBody ty c _)
  | looks => exact hS.later (Cache.keeps_arrive _)
  | @calls i p call d r s hp hx hrun =>
      let w : World := ⟨catalog, options, S.shared.arena⟩
      have hmem := List.mem_of_getElem? hp
      have begins : Begins w (fun _ => True) (World.idle p.caching) call.types ⟨S.shared, p⟩ :=
        ⟨hS.sound, hS.spans, hx, hS.idle p hmem, trivial⟩
      obtain ⟨ends, -⟩ := call_begins (w := w) hS.sound heeds_any begins hrun
      obtain ⟨kept, -, mirrored⟩ := call_mirrors hrun
      refine ⟨ends.sound, ends.spans, fun q hq => ?_, fun q hq => ?_⟩ <;>
        rcases List.mem_or_eq_of_mem_set hq with hq | rfl
      · exact hS.idle q hq
      · rw [show s.planner.caching = p.caching from ends.env.caching]
        exact ends.env
      · exact (hS.mirrors q hq).later kept
      · exact mirrored (hS.mirrors p hmem)

theorem Mirrored.leads (hS : S.Mirrored catalog) (h : Leads catalog options S S') :
    S'.Mirrored catalog := by
  induction h with
  | refl => exact hS
  | tail _ hnext ih => exact ih.act hnext

theorem guess?_idle {k : Bool} {p : Planner} (h : (World.idle k).Of p) (u : TyId) :
    p.guess? u = none :=
  Option.map_eq_none_iff.mp (h.guesses u)

/-- What a call for a type answers is the cache's converter from then on. -/
theorem Mirrored.answers (hS : S.Mirrored catalog) {i d : Nat} {p : Planner} {ty : TyId}
    {c : Converter} {s : PlanState} (hp : S.planners[i]? = some p) (hcaching : p.caching = true)
    (hrun : (Call.type ty).run catalog options d ⟨S.shared, p⟩ = (.ok (.converter c), s)) :
    s.shared.cache.converter? ty = some c := by
  have hmem := List.mem_of_getElem? hp
  obtain ⟨-, same, mirrored⟩ := call_mirrors hrun
  rcases bind_cases hrun with ⟨_, -, h⟩ | ⟨_, t, hplan, h⟩
  · cases h
  · cases h
    have settled := planWithin_settles (guess?_idle (hS.idle p hmem)) hplan
    exact mirrored (hS.mirrors p hmem) (same.trans hcaching) ty c settled

/-- Whatever is done, in any order, by planners that share a cache and with the cache: a
converter that it holds it holds for ever; all that its planners remember is in it; a call
for a type answers the converter that it then holds; and so do all later calls for types of
the same structure. -/
theorem one_instance {a : Arena} {supply : Nat} {k : Cache} (ha : a.Sound)
    (hc : catalog.Over a) (h : Leads catalog options ⟨⟨a, supply, k⟩, []⟩ S) :
    (∀ S', Leads catalog options S S' → ∀ u c,
      (S.shared.cache.converter? u = some c → S'.shared.cache.converter? u = some c) ∧
      ((S.shared.cache.get u).1 = some c → (S'.shared.cache.get u).1 = some c)) ∧
    (∀ p ∈ S.planners, p.caching = true → ∀ u c, p.settled.lookup u = some c →
      S.shared.cache.converter? u = some c) ∧
    ∀ (i d : Nat) (p : Planner) (ty : TyId) (c : Converter) (s : PlanState),
      S.planners[i]? = some p → p.caching = true → S.shared.arena.Has ty →
      (Call.type ty).run catalog options d ⟨S.shared, p⟩ = (.ok (.converter c), s) →
        s.shared.cache.converter? ty = some c ∧
        ∀ S', Leads catalog options (S.after i s) S' →
          ∀ (j e : Nat) (q : Planner) (ty' : TyId) (c' : Converter) (t : PlanState),
            S'.planners[j]? = some q → q.caching = true → S'.shared.arena.Alike ty ty' →
            (Call.type ty').run catalog options e ⟨S'.shared, q⟩ = (.ok (.converter c'), t) →
              c' = c ∧ c.sharesInstance c' = true := by
  have start : Mirrored catalog ⟨⟨a, supply, k⟩, []⟩ :=
    ⟨ha, hc, fun p hp => (List.not_mem_nil hp).elim, fun p hp => (List.not_mem_nil hp).elim⟩
  have mirrored := start.leads h
  refine ⟨fun S' hS' u c => ⟨hS'.keeps.held u c, hS'.keeps.get⟩, mirrored.mirrors,
    fun i d p ty c s hp hcaching hty hrun => ?_⟩
  have holds := mirrored.answers hp hcaching hrun
  refine ⟨holds, fun S' hS' j e q ty' c' t hq hqcaching halike hrun' => ?_⟩
  have called : Acts catalog options S (S.after i s) := by
    refine .calls hp (fun x hx => ?_) hrun
    cases List.mem_singleton.mp hx
    exact hty
  have later := (mirrored.act called).leads hS'
  obtain rfl := halike.eq later.sound
  -- What the first call answered is still there when the second one returns.
  have kept := (call_mirrors hrun').1.held ty c (hS'.keeps.held ty c holds)
  have same : some c = some c' := kept.symm.trans (later.answers hq hqcaching hrun')
  cases same
  exact ⟨rfl, c.sharesInstance_self⟩

end Session

/-! ## The session with trees -/

namespace Tree

/-- The session with trees, after someone has put in another converter for them. -/
def overruled : Session := served.caching (served.shared.cache.offer ty .identity).2

theorem leads_opened : Session.Leads catalog .standard ⟨⟨arena, 0, .empty⟩, []⟩ opened :=
  .tail (.tail .refl (.joins true)) (.joins true)

theorem leads_overruled : Session.Leads catalog .standard served overruled :=
  .single (.publishes ty .identity)

theorem run_eq {S : Session} {p : Planner} {r : Except Halt Answer} (h : (call S p).1 = r) :
    (Call.type ty).run catalog .standard 9 ⟨S.shared, p⟩ = (r, (call S p).2) :=
  h ▸ call_eq S p

/-- Both planners answer one converter. -/
theorem calls_spec : (call opened (.new true)).1 = .ok (.converter converter) ∧
    (call overruled (.new true)).1 = .ok (.converter converter) ∧
    overruled.planners[1]? = some (.new true) ∧ overruled.shared.arena = arena := by
  decide +kernel

end Tree

/-- What was put in by hand for trees came too late. -/
theorem Session.one_instance_tree :
    (Tree.call Tree.opened (.new true)).2.shared.cache.converter? Tree.ty = some Tree.converter ∧
      ∃ c, (Tree.call Tree.overruled (.new true)).1 = .ok (.converter c) ∧
        Tree.converter.sharesInstance c = true := by
  obtain ⟨first, second, planner, arena⟩ := Tree.calls_spec
  have spans : Tree.catalog.Over Tree.arena := by decide
  obtain ⟨-, -, answers⟩ := Session.one_instance Tree.sound spans Tree.leads_opened
  obtain ⟨holds, later⟩ := answers 0 9 (.new true) Tree.ty Tree.converter _ rfl rfl (by decide)
    (Tree.run_eq first)
  have alike : Tree.overruled.shared.arena.Alike Tree.ty Tree.ty :=
    arena ▸ .refl Tree.sound Tree.ty (by decide)
  have same := later Tree.overruled Tree.leads_overruled 1 9 (.new true) Tree.ty Tree.converter _
    planner rfl alike (Tree.run_eq second)
  exact ⟨holds, Tree.converter, second, same.2⟩

end Marshal
