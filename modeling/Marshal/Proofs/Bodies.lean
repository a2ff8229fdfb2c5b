import Marshal.Proofs.Uses

/-!
# Which bodies may be wrong

A turn that was made with a wrong guess leaves wrong bodies behind. They stay in
the table until a later turn of the type whose guess was wrong puts right ones in
their place, and it must not miss any. `Plans.keeps` is the invariant: a wrong body
that planning left is explained by an open type whose guess is wrong and which is
met from it. The later turn takes the same paths again, as nothing that is settled
meanwhile lies on them, so it comes by all types with wrong bodies.

The same induction shows two more things, which need this one and which it needs: a
planner that fails was asked for a type that is not good, and what a planner
shares is complete (`Supplies`), so that whoever finds a converter in the cache
finds all bodies below it.
-/

namespace Marshal

open Converter Relation

namespace World

open Planner Assembly

variable (w : World)

/-! ## What holds of the cache -/

/-- The bodies of good types are right, and whatever is below a converter in the
cache has its body there. -/
structure Supplies (k : Stock) : Prop where
  bodies : ∀ u c, k.bodies u = some c → w.Good u → w.Body u c
  closed : ∀ x, k.converters x ≠ none → ∀ u, w.Reach x u → w.Recursive u → w.Converts u →
    k.bodies u ≠ none

/-- The body of `u` is needed by a converter in the cache. -/
def Supplied (k : Stock) (u : TyId) : Prop :=
  w.Good u ∧ w.Recursive u ∧ w.Converts u ∧ ∃ x, k.converters x ≠ none ∧ w.Reach x u

/-- Other planners share what this one would share itself. -/
structure Fair (rivals : Stock → Stock → Prop) : Prop where
  vouching : w.Vouching rivals
  acyclic : w.Acyclic rivals
  supplies : ∀ {k k'}, rivals k k' → w.Supplies k → w.Supplies k'
  bodies : ∀ {k k'}, rivals k k' → ∀ u, k.bodies u ≠ none → k'.bodies u ≠ none

/-! ## What holds of the table -/

/-- The table has another body for the type than the right one. -/
def Wrong (m : Memory) (u : TyId) : Prop :=
  w.Good u ∧ w.Recursive u ∧ w.Converts u ∧ ∃ c, m.bodies u = some c ∧ ¬w.Body u c

/-- An open type whose guess is wrong is met from `u`. -/
def Explained (C : Set TyId) (e : Env) (m : Memory) (u : TyId) : Prop :=
  ∃ o ∈ e.opened, ¬w.Right e o ∧ w.Meets (Bound C e m) u o

/-- The open type is guessed to convert. -/
def Deferred (e : Env) (t : TyId) : Prop := ∃ o, e.find? t = some o ∧ o.guess ≠ none

/-- What is true of the table at all times. -/
structure Sane (e : Env) (m : Memory) : Prop where
  supplies : w.Supplies m.cache
  aims : ∀ u c, m.bodies u = some c → ∀ t ∈ (bare c).targets,
    w.Reach u t ∧ w.Recursive t ∧ w.Converts t
  closed : ∀ u c, m.bodies u = some c → w.Good u → ∀ t ∈ (bare c).targets,
    m.bodies t ≠ none ∨ Deferred e t
  settled : ∀ x c, m.settled x = some c → ∀ t ∈ (bare c).targets, m.bodies t ≠ none
  shared : e.caching = true → ∀ x, m.settled x ≠ none → m.cache.converters x ≠ none

/-- Open types that were entered at this depth contain the type directly. -/
def Close (e : Env) (x : TyId) : Prop :=
  ∀ o p, e.find? o = some p → p.depth = e.depth → TransGen w.Direct o x

/-- `Close` of all types at a job. -/
def Near (e : Env) : Job → Prop
  | .visit x | .layer x => w.Close e x
  | .parts ps => ∀ p ∈ ps, w.Close (e.inside p.lazy) p.ty

/-- A job at types that are not good, or at a part whose check fails. -/
def Hopeless : Job → Prop
  | .visit x | .layer x => ¬w.Good x
  | .parts ps => ∃ p ∈ ps, ¬w.Good p.ty ∨ ∃ f, w.Admits p (.error f)

variable {w} {C : Set TyId} {e : Env} {m m₁ m' : Memory} {x y o u t : TyId} {c d g : Content}
  {U V : Set TyId} {rivals : Stock → Stock → Prop} {k k' : Stock}

theorem Explained.reach (h : w.Explained C e m u) : ∃ o ∈ e.opened, w.Reach u o := by
  obtain ⟨o, ho, -, hm⟩ := h
  exact ⟨o, ho, hm.reach⟩

theorem Body.targets (h : w.Body u c) (ht : t ∈ (bare c).targets) :
    w.Reach u t ∧ w.Recursive t ∧ w.Converts t := by
  obtain ⟨r, hr, hc⟩ := h
  obtain ⟨hreach, rest⟩ := hc.targets ht
  exact ⟨.head (.node hr) hreach, rest⟩

/-! ## Taking bodies from the cache -/

theorem Supplied.target (h : w.Supplied k u) (hb : w.Body u c) (ht : t ∈ (bare c).targets) :
    w.Supplied k t := by
  obtain ⟨hgood, -, -, x, hx, hxu⟩ := h
  obtain ⟨hut, hrec, hconv⟩ := hb.targets ht
  exact ⟨hgood.reach hut, hrec, hconv, x, hx, hxu.trans hut⟩

theorem Supplied.later (hq : w.Fair rivals) (h : w.Supplied k u) (hk : rivals k k') :
    w.Supplied k' u := by
  obtain ⟨hgood, hrec, hconv, x, hx, hxu⟩ := h
  exact ⟨hgood, hrec, hconv, x, hq.acyclic.grows hk x hx, hxu⟩

theorem Supplies.body (hk : w.Supplies k) (h : w.Supplied k u) : k.bodies u ≠ none := by
  obtain ⟨-, hrec, hconv, x, hx, hxu⟩ := h
  exact hk.closed x hx u hxu hrec hconv

/-- What taking over from the cache leaves in the table. -/
structure Took (w : World) (m : Memory) (stack : List TyId) (m' : Memory) : Prop where
  supplies : w.Supplies m'.cache
  grows : m.bodies.Extends m'.bodies
  present : ∀ u ∈ stack, m'.bodies u ≠ none
  new : ∀ u c, m'.bodies u = some c → m.bodies u = some c ∨
    w.Body u c ∧ ∀ t ∈ (bare c).targets, m'.bodies t ≠ none

theorem Takes.took (hq : w.Fair rivals) {stack : List TyId} {ok : Bool}
    (h : Takes rivals m stack m' ok) : w.Supplies m.cache → (∀ u ∈ stack, w.Supplied m.cache u) →
      ok = true ∧ w.Took m stack m' := by
  induction h with
  | done => exact fun hm _ => ⟨rfl, hm, .refl _, by simp, fun u c h => .inl h⟩
  | skip hn _ ih =>
      intro hm hs
      obtain ⟨hok, h⟩ := ih hm fun u hu => hs u (List.mem_cons_of_mem _ hu)
      refine ⟨hok, h.supplies, h.grows, fun u hu => ?_, h.new⟩
      rcases List.mem_cons.mp hu with rfl | hu
      · exact h.grows.ne_none hn
      · exact h.present u hu
  | @take m m' k t c stack ok hn hk hc _ ih =>
      intro hm hs
      have hk' := hq.supplies hk hm
      have ht := (hs t (List.mem_cons_self ..)).later hq hk
      have hbody := hk'.bodies t c hc ht.1
      obtain ⟨hok, h⟩ := ih hk' fun u hu => by
        rcases List.mem_append.mp hu with hu | hu
        · exact ht.target hbody (List.mem_reverse.mp hu)
        · exact (hs u (List.mem_cons_of_mem _ hu)).later hq hk
      have put : (m.bodies.put t c).Extends m'.bodies := h.grows
      have present : m'.bodies t = some c := put t c (by simp)
      refine ⟨hok, h.supplies, (Contents.extends_put hn).trans put, fun u hu => ?_,
        fun u d hd => ?_⟩
      · rcases List.mem_cons.mp hu with rfl | hu
        · simp [present]
        · exact h.present u (List.mem_append_right _ hu)
      · by_cases hut : u = t
        · subst hut
          cases present.symm.trans hd
          exact .inr ⟨hbody, fun v hv =>
            h.present v (List.mem_append_left _ (List.mem_reverse.mpr hv))⟩
        · rcases h.new u d hd with h | h
          · exact .inl (by simpa [Contents.put_of_ne hut] using h)
          · exact .inr h
  | missing _ hk hn =>
      intro hm hs
      exact absurd hn ((hq.supplies hk hm).body ((hs _ (List.mem_cons_self ..)).later hq hk))

theorem Takes.keeps (hq : w.Fair rivals) {stack : List TyId} {ok : Bool}
    (h : Takes rivals m stack m' ok) (hx : m.cache.converters x ≠ none) :
    m'.cache.converters x ≠ none := by
  induction h with
  | done => exact hx
  | skip _ _ ih => exact ih hx
  | take _ hk _ _ ih => exact ih (hq.acyclic.grows hk x hx)
  | missing _ hk _ => exact hq.acyclic.grows hk x hx

/-- The bodies for a converter of the cache are there to be taken. -/
theorem Takes.of_converter (hq : w.Fair rivals) {ok : Bool} (hm : w.Honest m)
    (hs : w.Supplies m.cache) (hk : rivals m.cache k) (hkx : k.converters x = some c)
    (h : Takes rivals (m.found k) (bare c).targets.reverse m' ok) :
    ok = true ∧ w.Took (m.found k) (bare c).targets.reverse m' := by
  obtain ⟨hgood, hcanon⟩ := hq.vouching _ _ hk hm.cached x c hkx
  refine h.took hq (hq.supplies hk hs) fun t ht => ?_
  obtain ⟨hreach, hrec, hconv⟩ := hcanon.targets (List.mem_reverse.mp ht)
  exact ⟨hgood.reach hreach, hrec, hconv, x, by simp [hkx], hreach⟩

/-! ## Failing -/

/-- A chain of direct containment that comes back to its start goes on for ever. -/
theorem not_good_of_circle (h : TransGen w.Direct x x) : ¬w.Good x := by
  intro hx
  have acc : Acc (TransGen fun y x => w.Direct x y) x := Acc.transGen hx.fine.grounded
  have loop : TransGen (fun y x => w.Direct x y) x x := transGen_swap.mpr h
  clear h hx
  induction acc with
  | intro x _ ih => exact ih x loop loop

/-- Putting together fails for canonical contents where it fails for contents that
convert no more than they do. -/
theorem assemble_fails {t : Term} {l : Layer} (hl : w.layer? x t = some l)
    {cs ds : List Converter} (hlen : cs.length = ds.length) (hlen' : cs.length = l.parts.length)
    (hcd : ∀ i (hc : i < cs.length) (hd : i < ds.length),
      ds[i].content = none → cs[i].content = none)
    {s s' : PlanState} {h : Halt} (hcs : l.assemble cs s = (.error h, s')) :
    ∃ h' s'', l.assemble ds s = (.error h', s'') := by
  cases t with
  | scalar | var | opaqueTy | named => cases hl
  | object | variant | tuple | array | option | nullable => cases hl; cases hcs
  | record fields =>
      cases hl
      rcases PlanM.bind_cases hcs with ⟨h', hslots, -⟩ | ⟨slots, s₁, -, ⟨⟩⟩
      exact ⟨h', s', PlanM.bind_error hslots⟩
  | ref contents =>
      cases hl
      obtain ⟨c, rfl⟩ := eq_singleton hlen'
      obtain ⟨d, rfl⟩ := List.length_eq_one_iff.mp hlen.symm
      have hcd : d.content = none → c.content = none := hcd 0 (by simp) (by simp)
      change assembleCell w.options x c s = (.error h, s') at hcs
      change ∃ h' s'', assembleCell w.options x d s = (.error h', s'')
      cases c with
      | identity => simp [assembleCell, isIdentity] at hcs; cases hcs
      | custom =>
          cases d with
          | identity => cases hcd rfl
          | custom =>
              simp only [assembleCell, isIdentity, Bool.false_eq_true] at hcs ⊢
              cases hrefs : w.options.refs with
              | preserve => simp only [hrefs] at hcs ⊢; exact ⟨h, s', hcs⟩
              | allowRebuild => simp only [hrefs] at hcs; cases hcs
  | function sig =>
      rcases layer_function hl with ⟨_, -, rfl⟩ | ⟨_, -, rfl⟩
      · exact ⟨_, _, rfl⟩
      · cases hcs

/-- A layer of parts that speak is put together, if the type is good. -/
theorem SpeaksAll.not_good {t : Term} {l : Layer} {cs : List Content} {f : Fault}
    (h : w.SpeaksAll e l.parts cs U) (hl : w.layer? x t = some l)
    (ht : w.arena.term? x = some t) (hf : w.Assembles l cs (.error (.fault f))) : ¬w.Good x := by
  intro hx
  obtain ⟨c, hc⟩ := hx.fine.canon
  obtain ⟨-, -, ds, hd, hds⟩ := hc.layer_inv ht hl
  have converts : ∀ {ps : List Part} {cs : List Content} {U : Set TyId}, w.SpeaksAll e ps cs U →
      (∀ p ∈ ps, w.Canon p.ty (ds p.ty)) → ∀ i (hi : i < cs.length) (hi' : i < ps.length),
        ds ps[i].ty = none → cs[i] = none := by
    intro ps cs U h
    induction h with
    | nil => intro _ i hi; cases hi
    | @cons p ps c cs U V ha hp hps ih =>
        intro hd i hi hi' hn
        cases i with
        | zero =>
            refine not_not.mp fun hc => ?_
            exact (hd p (List.mem_cons_self ..)).eq_none_iff.mp hn (hp.converts hc)
        | succ i =>
            exact ih (fun q hq => hd q (List.mem_cons_of_mem _ hq)) i (by simpa using hi)
              (by simpa using hi') hn
  have hlen := length_wrapped h.length
  have lengths : ((List.zipWith Part.wrap l.parts cs).map bare).length =
      ((List.zipWith Part.wrap l.parts (l.parts.map fun p => ds p.ty)).map bare).length :=
    hlen.trans (length_wrapped (by simp)).symm
  obtain ⟨h', s'', fails⟩ := assemble_fails hl lengths hlen
    (fun i hc hi => by
      simp only [List.getElem_map, List.getElem_zipWith, content_bare, Part.wrap_eq_none]
      exact converts h hd i _ _) (hf (PlanM.blank w.arena) rfl)
  rw [hds (PlanM.blank w.arena) rfl] at fails
  cases fails

theorem SpeaksAll.hopeless {t : Term} {l : Layer} (hl : w.layer? x t = some l)
    (ht : w.arena.term? x = some t) (h : w.Hopeless (.parts l.parts)) : ¬w.Good x := by
  intro hx
  obtain ⟨p, hp, h | ⟨f, hf⟩⟩ := h
  · exact h (hx.edge (.part ht hl hp))
  · obtain ⟨c, hc⟩ := hx.fine.canon
    cases ((hc.layer_inv ht hl).2.1 p hp).unique hf

theorem not_good_of_refused {t : Term} {l : Layer} {h : Halt} (hl : w.layer? x t = some l)
    (ht : w.arena.term? x = some t) (hf : w.Answers l.before (.error h)) : ¬w.Good x := by
  intro hx
  obtain ⟨c, hc⟩ := hx.fine.canon
  cases (hc.layer_inv ht hl).1.unique hf

theorem not_good_of_unresolved {f : Fault} (hx : w.Refers x) (hf : w.Resolves x (.error f)) :
    ¬w.Good x := by
  intro hg
  obtain ⟨t, ht, href⟩ := hx
  obtain ⟨c, hc⟩ := hg.fine.canon
  obtain ⟨r, hr⟩ := hc.resolves ht href
  cases hr.unique hf

theorem not_good_of_growing {r : Referent} (hr : w.Resolves x (.ok r)) (hrec : r.recursive = true)
    (hreg : r.regular = false) : ¬w.Good x := by
  intro hx
  obtain ⟨c, hc⟩ := hx.fine.canon
  rcases hc.reference_inv hr with ⟨h, -⟩ | ⟨-, h, -⟩
  · rw [hrec] at h; cases h
  · rw [hreg] at h; cases h

theorem not_good_of_node {r : Referent} (hr : w.Resolves x (.ok r)) (h : ¬w.Good r.node) :
    ¬w.Good x :=
  fun hx => h (hx.edge (.node hr))

/-! ## What is below a canonical content -/

/-- The right body of `t` defers to `u`. -/
def Below (w : World) (t u : TyId) : Prop := ∃ c, w.Body t c ∧ u ∈ (bare c).targets

/-- Whatever is reached and converts is found below a target of the content. -/
theorem Canon.leads (hrec : w.Recursive u) (hconv : w.Converts u) (h : w.Reach x u) :
    ∀ {c}, w.Good x → w.Canon x c → ∃ t ∈ (bare c).targets, ReflTransGen w.Below t u := by
  induction h using ReflTransGen.head_induction_on with
  | refl =>
      intro c _ hc
      cases hc.unique (.deferring hrec hconv)
      exact ⟨u, mem_targets_deferring.mpr rfl, .refl⟩
  | @head x y e' hyu ih =>
      intro c hx hc
      obtain ⟨cy, hcy⟩ := (hx.edge e').fine.canon
      obtain ⟨t, ht, htu⟩ := ih (hx.edge e') hcy
      cases hc with
      | leaf htx hl => exact absurd e' (not_edge_of_leaf htx hl)
      | @layer _ t' l cs _ htx hl hb ha hcs has =>
          obtain ⟨p, hp, rfl⟩ := (edge_iff_part htx hl hb).mp e'
          refine ⟨t, (has.targets hl (by simp)).mpr ⟨cs p.ty, List.mem_map_of_mem hp, ?_⟩, htu⟩
          rw [(hcs p hp).unique hcy]
          exact ht
      | inline hr _ hc' =>
          cases (edge_iff_node hr).mp e'
          cases hc'.unique hcy
          exact ⟨t, ht, htu⟩
      | idle hx' hn => exact absurd (hconv.of_reach (.head e' hyu)) hn
      | deferring hx' _ =>
          obtain ⟨r, hr, -⟩ := hx'
          cases (edge_iff_node hr).mp e'
          exact ⟨x, mem_targets_deferring.mpr rfl, .head ⟨cy, ⟨r, hr, hcy⟩, ht⟩ htu⟩

/-- On the way to what is reached, either nothing of `P` is met or there is a
first type of it. -/
theorem Reach.first (P : Set TyId) (h : w.Reach x t) :
    w.Away P x t ∨ ∃ v ∈ P, w.Meets P x v ∧ w.Reach v t := by
  induction h with
  | refl =>
      by_cases hx : x ∈ P
      · exact .inr ⟨x, hx, .refl w P x, .refl⟩
      · exact .inl (.start hx)
  | @tail y z _ e' ih =>
      rcases ih with h | ⟨v, hv, hm, h⟩
      · by_cases hz : z ∈ P
        · exact .inr ⟨z, hz, .inr ⟨y, h, e'⟩, .refl⟩
        · exact .inl (.step h e' hz)
      · exact .inr ⟨v, hv, hm, h.tail e'⟩

/-! ## Sharing -/

/-- What a run leaves of wrong bodies: those that it came by are explained, the
others were wrong before. -/
def Leaves (w : World) (C : Set TyId) (e : Env) (job : Job) (m m' : Memory) : Prop :=
  ∀ u, w.Wrong m' u →
    ((∃ x ∈ job.types, w.Away (Bound C e m') x u) → w.Explained C e m' u) ∧
      ((∀ x ∈ job.types, ¬w.Away (Bound C e m') x u) → w.Wrong m u)

section Sharing

/-- A type that hangs on nothing, and all that is known of it when it is about to
be settled. -/
structure Done (w : World) (C : Set TyId) (e : Env) (x : TyId) (c : Content) (m m' : Memory) :
    Prop where
  good : w.Good x
  canon : w.Canon x c
  sane : w.Sane e m'
  apart : w.Apart C e m'
  clear : ∀ o ∈ e.opened, ¬w.Meets (Bound C e m') x o
  present : ∀ t ∈ (bare c).targets, m'.bodies t ≠ none
  leaves : w.Leaves C e (.layer x) m m'

variable {tys : List TyId}

/-- Below a type that hangs on nothing, a path is clear or passes a type at hand. -/
theorem Done.first (h : w.Done C e x c m m') (ht : w.Reach x t) :
    w.Away (Bound C e m') x t ∨ ∃ v ∈ Fixed C m', w.Reach v t := by
  rcases ht.first (Bound C e m') with h' | ⟨v, hv | hv, hm, hvt⟩
  · exact .inl h'
  · exact .inr ⟨v, hv, hvt⟩
  · exact absurd hm (h.clear v hv)

theorem Done.cached (h : w.Done C e x c m m') (hc : e.caching = true) {v : TyId}
    (hv : v ∈ Fixed C m') : m'.cache.converters v ≠ none := by
  rcases hv with hv | hv
  · exact h.sane.shared hc v hv
  · exact (h.apart.cached v hv).2

/-- A wrong or missing body below a type that hangs on nothing is not needed: the
cache has a right one. -/
theorem Done.wrong (h : w.Done C e x c m m') (hc : e.caching = true) (ht : w.Reach x t)
    (hw : w.Wrong m' t) : ∃ v, m'.cache.converters v ≠ none ∧ w.Reach v t := by
  rcases h.first ht with haway | ⟨v, hv, hvt⟩
  · obtain ⟨o, ho, -, hm⟩ := (h.leaves t hw).1 ⟨x, List.mem_singleton_self x, haway⟩
    exact absurd (.of_away haway hm) (h.clear o ho)
  · exact ⟨v, h.cached hc hv, hvt⟩

/-- Every type that is needed below is on the list of what to publish, with a right
body in the table, or below some converter in the cache. -/
theorem Done.needs (h : w.Done C e x c m m') (hc : e.caching = true)
    (hn : m'.bodies.Needs (bare c).targets tys) (hu : w.Reach x u) (hrec : w.Recursive u)
    (hconv : w.Converts u) : (u ∈ tys ∧ m'.bodies u ≠ none ∧ ¬w.Wrong m' u) ∨
      ∃ v, m'.cache.converters v ≠ none ∧ w.Reach v u := by
  obtain ⟨t, ht, htu⟩ := h.canon.leads hrec hconv hu h.good
  clear hu hrec hconv
  suffices all : (w.Reach x u ∧ w.Recursive u ∧ w.Converts u) ∧
      ((u ∈ tys ∧ m'.bodies u ≠ none ∧ ¬w.Wrong m' u) ∨
        ∃ v, m'.cache.converters v ≠ none ∧ w.Reach v u) from all.2
  induction htu with
  | refl =>
      obtain ⟨hreach, hrest⟩ := h.canon.targets ht
      refine ⟨⟨hreach, hrest⟩, ?_⟩
      by_cases hw : w.Wrong m' t
      · exact .inr (h.wrong hc hreach hw)
      · exact .inl ⟨(hn t).mpr ⟨t, ht, .refl⟩, h.present t ht, hw⟩
  | @tail t' u _ hb ih =>
      obtain ⟨⟨hreach, hrec, hconv⟩, ih⟩ := ih
      obtain ⟨b, hbody, hub⟩ := hb
      obtain ⟨htu, hrest⟩ := hbody.targets hub
      have hxu := hreach.trans htu
      refine ⟨⟨hxu, hrest⟩, ?_⟩
      rcases ih with ⟨hmem, hpresent, hright⟩ | ⟨v, hv, hvt⟩
      · obtain ⟨b', hb'⟩ := Option.ne_none_iff_exists'.mp hpresent
        have hgood := h.good.reach hreach
        have : w.Body t' b' := not_not.mp fun hn => hright ⟨hgood, hrec, hconv, b', hb', hn⟩
        cases this.unique hbody
        by_cases hw : w.Wrong m' u
        · exact .inr (h.wrong hc hxu hw)
        rcases h.sane.closed t' _ hb' hgood u hub with hpu | ⟨o, ho, -⟩
        · obtain ⟨r, hr, hlead⟩ := (hn t').mp hmem
          exact .inl ⟨(hn u).mpr ⟨r, hr, hlead.tail ⟨_, hb', hub⟩⟩, hpu, hw⟩
        · -- The body defers to an open type, which is only met behind a type at hand.
          rcases h.first hxu with haway | ⟨v, hv, hvu⟩
          · exact absurd (Or.inr (Env.mem_opened.mpr ⟨o, ho⟩)) haway.right
          · exact .inr ⟨v, h.cached hc hv, hvu⟩
      · exact .inr ⟨v, hv, hvt.trans htu⟩

theorem Publishes.grows (hq : w.Fair rivals) {bodies : Contents}
    (h : Publishes rivals bodies k tys k') :
    (∀ u, k.bodies u ≠ none → k'.bodies u ≠ none) ∧
      (∀ u, k.converters u ≠ none → k'.converters u ≠ none) ∧
      ∀ t ∈ tys, bodies t ≠ none → k'.bodies t ≠ none := by
  induction h with
  | done => simp
  | skip hn _ ih =>
      refine ⟨ih.1, ih.2.1, fun t ht hb => ?_⟩
      rcases List.mem_cons.mp ht with rfl | ht
      · exact absurd hn hb
      · exact ih.2.2 t ht hb
  | @offer k k₁ k' t b tys hb hk _ ih =>
      obtain ⟨ihb, ihc, iht⟩ := ih
      refine ⟨fun u hu => ihb u (Contents.extends_keep.ne_none (hq.bodies hk u hu)),
        fun u hu => ihc u (hq.acyclic.grows hk u hu), fun t' ht hb' => ?_⟩
      rcases List.mem_cons.mp ht with rfl | ht
      · exact ihb t' (by simp)
      · exact iht t' ht hb'

theorem Publishes.supplies (hq : w.Fair rivals) {bodies : Contents}
    (h : Publishes rivals bodies k tys k') : w.Supplies k →
      (∀ t ∈ tys, ∀ b, bodies t = some b → w.Good t → w.Body t b ∨ k.bodies t ≠ none) →
      w.Supplies k' := by
  induction h with
  | done => exact fun hk _ => hk
  | skip _ _ ih => exact fun hk ht => ih hk fun t h => ht t (List.mem_cons_of_mem _ h)
  | @offer k k₁ k' t b tys hb hk _ ih =>
      intro hs ht
      have hs₁ := hq.supplies hk hs
      refine ih ⟨fun u d hd hu => ?_, fun v hv u hvu hrec hconv => ?_⟩ fun t' ht' b' hb' hg => ?_
      · by_cases hut : u = t
        · subst hut
          change k₁.bodies.keep u b u = some d at hd
          rw [Contents.keep_self] at hd
          cases hk₁ : k₁.bodies u with
          | some d' =>
              rw [hk₁] at hd
              cases hd
              exact hs₁.bodies u _ hk₁ hu
          | none =>
              rw [hk₁] at hd
              cases hd
              refine (ht u (List.mem_cons_self ..) _ hb hu).resolve_right fun h => ?_
              exact hq.bodies hk u h hk₁
        · exact hs₁.bodies u d (by simpa [Contents.keep_of_ne hut] using hd) hu
      · exact Contents.extends_keep.ne_none (hs₁.closed v hv u hvu hrec hconv)
      · rcases ht t' (List.mem_cons_of_mem _ ht') b' hb' hg with h | h
        · exact .inl h
        · exact .inr (Contents.extends_keep.ne_none (hq.bodies hk t' h))

theorem leads_reach {f : Contents}
    (haim : ∀ u c, f u = some c → ∀ t ∈ (bare c).targets,
      w.Reach u t ∧ w.Recursive t ∧ w.Converts t)
    (h : f.Leads t u) : w.Reach t u := by
  induction h with
  | refl => exact .refl
  | tail _ hb ih =>
      obtain ⟨c, hc, hu⟩ := hb
      exact ih.trans (haim _ c hc _ hu).1

/-- What is shared with a type is complete. -/
theorem Done.settles (hq : w.Fair rivals) (h : w.Done C e x c m m')
    (hm : w.Honest m') {m₂ : Memory} (hs : Settles rivals e m' x c d m₂) :
    w.Sane e m₂ ∧ m₂.bodies = m'.bodies := by
  have settled {d : Content} (hd : d = c) : ∀ y b, (m'.settled.put x d) y = some b →
      ∀ t ∈ (bare b).targets, m'.bodies t ≠ none := by
    intro y b hy
    by_cases hyx : y = x
    · subst hyx
      rw [Contents.put_self] at hy
      cases hy
      exact hd ▸ h.present
    · exact h.sane.settled y b (by simpa [Contents.put_of_ne hyx] using hy)
  cases hs with
  | alone hc =>
      refine ⟨⟨h.sane.supplies, h.sane.aims, h.sane.closed, settled rfl, fun hc' => ?_⟩, rfl⟩
      rw [hc] at hc'
      cases hc'
  | @shared tys k k₁ hc hn hp hk =>
      have same := (hq.vouching _ _ hk (hp.vouched hq.vouching hm.cached)).getD h.canon
      have hk' : w.Supplies k := by
        refine hp.supplies hq h.sane.supplies fun t ht b hb hg => ?_
        obtain ⟨r, hr, hlead⟩ := (hn t).mp ht
        obtain ⟨hxr, hrrec, hrconv⟩ := h.canon.targets hr
        have hxt := hxr.trans (leads_reach h.sane.aims hlead)
        have hrest : w.Recursive t ∧ w.Converts t := by
          rcases ReflTransGen.cases_tail hlead with rfl | ⟨v, -, b', hb', hmem⟩
          · exact ⟨hrrec, hrconv⟩
          · exact (h.sane.aims v b' hb' t hmem).2
        by_cases hw : w.Wrong m' t
        · obtain ⟨v, hv, hvt⟩ := h.wrong hc hxt hw
          exact .inr (h.sane.supplies.closed v hv t hvt hrest.1 hrest.2)
        · refine .inl (not_not.mp fun hnot => hw ⟨hg, hrest.1, hrest.2, b, hb, hnot⟩)
      have hk₁ := hq.supplies hk hk'
      obtain ⟨hbodies, hconverters, hpublished⟩ := hp.grows hq
      refine ⟨⟨⟨hk₁.bodies, fun v hv u hvu hrec hconv => ?_⟩, h.sane.aims, h.sane.closed,
        settled same, fun _ y hy => ?_⟩, rfl⟩
      · by_cases hvx : v = x
        · subst hvx
          refine hq.bodies hk u ?_
          rcases h.needs hc hn hvu hrec hconv with ⟨hmem, hpu, -⟩ | ⟨v', hv', hvu'⟩
          · exact hpublished u hmem hpu
          · exact hbodies u (h.sane.supplies.closed v' hv' u hvu' hrec hconv)
        · exact hk₁.closed v (by simpa [Contents.keep_of_ne hvx] using hv) u hvu hrec hconv
      · by_cases hyx : y = x
        · subst hyx; simp
        · have hy' : m'.settled y ≠ none := by simpa [Contents.put_of_ne hyx] using hy
          refine Contents.extends_keep.ne_none (hq.acyclic.grows hk y (hconverters y ?_))
          exact h.sane.shared hc y hy'

end Sharing

/-! ## What a run leaves -/

section Leaving

variable {r : Referent} {job job' : Job}

theorem wrong_congr (h : m'.bodies = m.bodies) : w.Wrong m' u ↔ w.Wrong m u := by
  rw [Wrong, Wrong, h]

theorem Wrong.of_put (h : w.Wrong (m.setBody x d) u) (hux : u ≠ x) : w.Wrong m u := by
  obtain ⟨hg, hrec, hconv, c, hc, hn⟩ := h
  exact ⟨hg, hrec, hconv, c, by simpa [Contents.put_of_ne hux] using hc, hn⟩

/-- Nothing is seen from a type at hand. -/
theorem Leaves.at_hand (hx : x ∈ Fixed C m') (h : ∀ u, w.Wrong m' u → w.Wrong m u) :
    w.Leaves C e (.visit x) m m' := by
  refine fun u hu => ⟨?_, fun _ => h u hu⟩
  rintro ⟨y, hy, haway⟩
  cases List.mem_singleton.mp hy
  exact absurd (Or.inl hx) haway.left

theorem Leaves.reach (h : w.Leaves C e job m m') (hu : w.Wrong m' u) :
    w.Wrong m u ∨ ∃ o ∈ e.opened, w.Reach u o := by
  by_cases hs : ∃ x ∈ job.types, w.Away (Bound C e m') x u
  · exact .inr ((h u hu).1 hs).reach
  · push Not at hs
    exact .inl ((h u hu).2 hs)

/-- A type from which nothing open is met leaves nothing wrong. -/
theorem Leaves.wrong (h : w.Leaves C e (.layer x) m m')
    (hx : ∀ o ∈ e.opened, ¬w.Meets (Bound C e m') x o) (hu : w.Wrong m' u) : w.Wrong m u := by
  refine (h u hu).2 fun y hy haway => ?_
  cases List.mem_singleton.mp hy
  obtain ⟨o, ho, -, hm⟩ := (h u hu).1 ⟨x, List.mem_singleton_self x, haway⟩
  exact hx o ho (.of_away haway hm)

/-- A type that is no recursive reference sees what its children see. -/
theorem Leaves.up (h : w.Leaves C e job m m') (hc : w.Clears C e m m') (hx : x ∉ Bound C e m)
    (hrec : ¬w.Recursive x) (hty : ∀ y, w.Edge x y ↔ y ∈ job.types) :
    w.Leaves C e (.layer x) m m' := by
  intro u hu
  constructor
  · rintro ⟨y, hy, haway⟩
    cases List.mem_singleton.mp hy
    rcases haway.cases_head with rfl | ⟨z, e', haway⟩
    · exact absurd hu.2.1 hrec
    · exact (h u hu).1 ⟨z, (hty z).mp e', haway⟩
  · intro hn
    refine (h u hu).2 fun y hy haway => ?_
    obtain ⟨o, ho, -, hm⟩ := (h u hu).1 ⟨y, hy, haway⟩
    have hx' := hc.notMem hx ((hty y).mpr hy) ho (.of_away haway hm)
    exact hn x (List.mem_singleton_self x) (.cons hx' ((hty y).mpr hy) haway)

/-- The parts one after another. -/
theorem Leaves.then {p : Part} {ps : List Part}
    (h : w.Leaves C (e.inside p.lazy) (.visit p.ty) m m₁)
    (h' : w.Leaves C e (.parts ps) m₁ m') (hc : w.Clears C e m₁ m') :
    w.Leaves C e (.parts (p :: ps)) m m' := by
  intro u hu
  have headSees (haway : w.Away (Bound C e m₁) p.ty u) (hu₁ : w.Wrong m₁ u) :
      w.Explained C e m₁ u :=
    (h u hu₁).1 ⟨p.ty, List.mem_singleton_self _, haway⟩
  by_cases hs : ∃ y ∈ (Job.parts ps).types, w.Away (Bound C e m') y u
  · refine ⟨fun _ => (h' u hu).1 hs, fun hn => ?_⟩
    obtain ⟨y, hy, haway⟩ := hs
    exact absurd haway (hn y (List.mem_cons_of_mem _ hy))
  push Not at hs
  have hu₁ := (h' u hu).2 hs
  constructor
  · rintro ⟨y, hy, haway⟩
    rcases List.mem_cons.mp hy with rfl | hy
    · obtain ⟨o, ho, hr, hm⟩ := headSees (haway.anti hc.bound_mono) hu₁
      exact ⟨o, ho, hr, hc.meets ho hm⟩
    · exact absurd haway (hs y hy)
  · intro hn
    refine (h u hu₁).2 fun y hy haway => ?_
    cases List.mem_singleton.mp hy
    obtain ⟨o, ho, -, hm⟩ := headSees haway hu₁
    exact hn p.ty (List.mem_cons_self ..) (haway.stable (hc.fresh_bound ho) hm)

theorem Meets.away {P : Set TyId} (h : w.Meets P u x) (hx : x ∉ P) : w.Away P u x := by
  rcases h with rfl | ⟨z, h, e'⟩
  · exact .start hx
  · exact .step h e' hx

theorem Right.of_enter (ho : ¬w.Right (e.enter x g) o) (hne : o ≠ x) : ¬w.Right e o :=
  fun h => ho ((Right.enter_of_ne hne).mpr h)

/-- The first turn gave identity, and there is no second. If identity is wrong
after all, another guess was. -/
theorem Leaves.idle_turn (hr : w.Resolves x (.ok r)) (hrec : w.Recursive x)
    (h : w.Leaves C (e.enter x none) (.visit r.node) m m')
    (hs : w.Speaks e x none (U \ {x})) (ht : w.Tracks C e (.layer x) m (.ok ([none], U \ {x})) m')
    (hx : x ∉ Bound C e m') : w.Leaves C e (.layer x) m m' := by
  have other (hconv : w.Converts x) :
      ∃ o ∈ e.opened, ¬w.Right e o ∧ w.Meets (Bound C e m') x o := by
    by_contra hn
    push Not at hn
    have : w.Canon x none := hs.canon fun o ho => by
      have hopen := (hs.used o ho).1
      exact not_not.mp fun hr => hn o hopen hr ((ht.single rfl hopen).mp ho)
    exact this.eq_none_iff.mp rfl hconv
  intro u hu
  constructor
  · rintro ⟨y, hy, haway⟩
    cases List.mem_singleton.mp hy
    rcases haway.last_node hr with rfl | haway
    · exact other hu.2.2.1
    rw [← bound_enter (g := none)] at haway
    obtain ⟨o, ho, hright, hm⟩ := (h u hu).1 ⟨r.node, List.mem_singleton_self _, haway⟩
    have hm' : w.Meets (Bound C e m') u o := by
      rw [bound_enter] at hm
      exact hm.anti Set.subset_union_left
    by_cases hox : o = x
    · subst hox
      have hconv : w.Converts o := by
        by_contra hn
        exact hright (Right.enter_self.mpr (.idle hrec hn))
      obtain ⟨o', ho', hright', hm''⟩ := other hconv
      exact ⟨o', ho', hright', .of_away (hm'.away hx) hm''⟩
    · rw [Env.enter_opened] at ho
      exact ⟨o, ho.resolve_left hox, Right.of_enter hright hox, hm'⟩
  · intro hn
    refine (h u hu).2 fun y hy haway => ?_
    cases List.mem_singleton.mp hy
    rw [bound_enter] at haway
    exact hn x (List.mem_singleton_self x) (.cons hx (.node hr) (haway.anti Set.subset_union_left))

/-- The second turn comes by all that the first one left wrong. -/
theorem Leaves.second_turn (hr : w.Resolves x (.ok r)) (hcanon : w.Canon x (deferring x))
    (h : w.Leaves C (e.enter x none) (.visit r.node) m m₁)
    (h' : w.Leaves C (e.enter x (deferring x)) (.visit r.node) m₁ m')
    (hs : w.Speaks (e.enter x (deferring x)) r.node d V)
    (ht : w.Tracks C (e.enter x (deferring x)) (.visit r.node) m₁ (.ok ([d], V)) m')
    (hx : x ∉ Bound C e m') : w.Leaves C e (.layer x) m (m'.setBody x d) := by
  have bound : Bound C e (m'.setBody x d) = Bound C e m' := rfl
  -- Its guess is right, so what is wrong is explained by a type that is still open.
  have outer {o : TyId} (ho : o ∈ (e.enter x (deferring x)).opened)
      (hright : ¬w.Right (e.enter x (deferring x)) o) : o ∈ e.opened ∧ ¬w.Right e o := by
    have hne : o ≠ x := by
      rintro rfl
      exact hright (Right.enter_self.mpr hcanon)
    rw [Env.enter_opened] at ho
    exact ⟨ho.resolve_left hne, Right.of_enter hright hne⟩
  have lower {y o : TyId} (hm : w.Meets (Bound C (e.enter x (deferring x)) m') y o) :
      w.Meets (Bound C e m') y o := by
    rw [bound_enter] at hm
    exact hm.anti Set.subset_union_left
  intro u hu
  rw [bound]
  constructor
  · rintro ⟨y, hy, haway⟩
    cases List.mem_singleton.mp hy
    rcases haway.last_node hr with rfl | haway
    · obtain ⟨-, -, -, c, hc, hn⟩ := hu
      have hn : ¬w.Canon r.node d := by
        rw [Memory.setBody_bodies, Contents.put_self] at hc
        cases hc
        exact fun h => hn ⟨r, hr, h⟩
      obtain ⟨o, hoV, hright⟩ : ∃ o ∈ V, ¬w.Right (e.enter x (deferring x)) o := by
        by_contra hall
        push Not at hall
        exact hn (hs.canon hall)
      have hopen := (hs.used o hoV).1
      obtain ⟨ho, hright⟩ := outer hopen hright
      exact ⟨o, ho, hright, .cons hx (.node hr) (lower ((ht.single rfl hopen).mp hoV))⟩
    · have hux : u ≠ x := fun h => haway.right (.inr h)
      rw [← bound_enter (g := deferring x)] at haway
      obtain ⟨o, ho, hright, hm⟩ :=
        (h' u (hu.of_put hux)).1 ⟨r.node, List.mem_singleton_self _, haway⟩
      obtain ⟨ho, hright⟩ := outer ho hright
      exact ⟨o, ho, hright, lower hm⟩
  · intro hn
    have hn := hn x (List.mem_singleton_self x)
    have hux : u ≠ x := by
      rintro rfl
      exact hn (.start hx)
    have unseen : ¬w.Away (Bound C (e.enter x (deferring x)) m') r.node u := fun haway => by
      rw [bound_enter] at haway
      exact hn (.cons hx (.node hr) (haway.anti Set.subset_union_left))
    have hu₁ := (h' u (hu.of_put hux)).2 fun y hy => by
      cases List.mem_singleton.mp hy
      exact unseen
    refine (h u hu₁).2 fun y hy haway => ?_
    cases List.mem_singleton.mp hy
    obtain ⟨o, ho, -, hm⟩ := (h u hu₁).1 ⟨r.node, List.mem_singleton_self _, haway⟩
    have ho' : o ∈ (e.enter x (deferring x)).opened := by simpa using ho
    refine unseen (Away.stable (P := Bound C (e.enter x (deferring x)) m₁)
      (ht.clears.fresh_bound ho') ?_ (o := o) ?_)
    · rw [bound_enter] at haway ⊢
      exact haway
    · rw [bound_enter] at hm ⊢
      exact hm

end Leaving

/-! ## Where planning stands -/

/-- All that is known where a planner stands. -/
structure Stands (w : World) (C : Set TyId) (e : Env) (job : Job) (m : Memory) : Prop where
  env : w.HonestEnv e
  honest : w.Honest m
  above : w.Above e job
  apart : w.Apart C e m
  sane : w.Sane e m
  near : w.Near e job

section Standing

variable {r : Referent}

theorem Sane.found (hq : w.Fair rivals) (h : w.Sane e m) (hk : rivals m.cache k) :
    w.Sane e (m.found k) :=
  ⟨hq.supplies hk h.supplies, h.aims, h.closed, h.settled,
    fun hc x hx => hq.acyclic.grows hk x (h.shared hc x hx)⟩

theorem Sane.inside {l : Bool} (h : w.Sane e m) : w.Sane (e.inside l) m :=
  ⟨h.supplies, h.aims, h.closed, h.settled, h.shared⟩

theorem Sane.outside {l : Bool} (h : w.Sane (e.inside l) m) : w.Sane e m :=
  ⟨h.supplies, h.aims, h.closed, h.settled, h.shared⟩

theorem Deferred.enter (hx : e.find? x = none) (h : Deferred e t) : Deferred (e.enter x g) t := by
  obtain ⟨o, ho, hg⟩ := h
  have htx : t ≠ x := by
    rintro rfl
    rw [hx] at ho
    cases ho
  exact ⟨o, by rw [Env.enter_find?_of_ne htx, ho], hg⟩

theorem Deferred.leave (h : Deferred (e.enter x g) t) : t = x ∧ g ≠ none ∨ Deferred e t := by
  obtain ⟨o, ho, hg⟩ := h
  by_cases htx : t = x
  · subst htx
    rw [Env.enter_find?_self] at ho
    cases ho
    exact .inl ⟨rfl, hg⟩
  · rw [Env.enter_find?_of_ne htx] at ho
    exact .inr ⟨o, ho, hg⟩

theorem Sane.enter (hx : e.find? x = none) (h : w.Sane e m) : w.Sane (e.enter x g) m :=
  ⟨h.supplies, h.aims, fun u c hc hu t ht => (h.closed u c hc hu t ht).imp_right (.enter hx),
    h.settled, h.shared⟩

theorem Sane.again (h : w.Sane (e.enter x none) m) : w.Sane (e.enter x g) m := by
  refine ⟨h.supplies, h.aims, fun u c hc hu t ht => ?_, h.settled, h.shared⟩
  refine (h.closed u c hc hu t ht).imp_right fun ⟨o, ho, hg⟩ => ?_
  have htx : t ≠ x := by
    rintro rfl
    rw [Env.enter_find?_self] at ho
    cases ho
    exact hg rfl
  rw [Env.enter_find?_of_ne htx] at ho
  exact ⟨o, by rw [Env.enter_find?_of_ne htx, ho], hg⟩

/-- Nothing is left that defers to a type which was open, unless its body is there
or it turned out not to be good. -/
theorem Sane.leave (h : w.Sane (e.enter x g) m) (hg : g = none ∨ ¬w.Good x) : w.Sane e m := by
  refine ⟨h.supplies, h.aims, fun u c hc hu t ht => ?_, h.settled, h.shared⟩
  refine (h.closed u c hc hu t ht).imp_right fun hd => hd.leave.resolve_left ?_
  rintro ⟨rfl, hn⟩
  exact hg.elim hn fun hbad => hbad (hu.reach (h.aims u c hc t ht).1)

/-- The second turn gives the body of the type that it closes. -/
theorem Sane.setBody (h : w.Sane (e.enter x g) m)
    (haim : ∀ t ∈ (bare d).targets, w.Reach x t ∧ w.Recursive t ∧ w.Converts t)
    (hd : ∀ t ∈ (bare d).targets, m.bodies t ≠ none ∨ Deferred (e.enter x g) t) :
    w.Sane e (m.setBody x d) := by
  have covered {t : TyId} (ht : m.bodies t ≠ none ∨ Deferred (e.enter x g) t) :
      (m.setBody x d).bodies t ≠ none ∨ Deferred e t := by
    rcases ht with ht | ht
    · exact .inl (Contents.put_ne_none ht)
    · rcases ht.leave with ⟨rfl, -⟩ | ht
      · exact .inl (by simp)
      · exact .inr ht
  refine ⟨h.supplies, fun u c hc t ht => ?_, fun u c hc hu t ht => ?_,
    fun y c hy t ht => Contents.put_ne_none (h.settled y c hy t ht), h.shared⟩
  all_goals
    by_cases hux : u = x
    · subst hux
      rw [Memory.setBody_bodies, Contents.put_self] at hc
      cases hc
      first | exact haim t ht | exact covered (hd t ht)
    · rw [Memory.setBody_bodies, Contents.put_of_ne hux] at hc
      first | exact h.aims u c hc t ht | exact covered (h.closed u c hc hu t ht)

theorem Close.enter (h : w.Close e x) (hr : w.Resolves x (.ok r)) :
    w.Close (e.enter x g) r.node := by
  intro o p hp hd
  by_cases hox : o = x
  · subst hox
    exact .single (.node hr)
  · rw [Env.enter_find?_of_ne hox] at hp
    exact .tail (h o p hp hd) (.node hr)

theorem Close.part (he : w.HonestEnv e) (h : w.Close e x) {t : Term} {l : Layer}
    (ht : w.arena.term? x = some t) (hl : w.layer? x t = some l) {p : Part} (hp : p ∈ l.parts) :
    w.Close (e.inside p.lazy) p.ty := by
  intro o q hq hd
  cases hlazy : p.lazy with
  | true =>
      -- A type entered further out is not at this depth.
      have := he.depth q (Env.find?_mem hq)
      simp only [Env.inside, hlazy, if_true] at hd
      omega
  | false =>
      simp only [Env.inside, hlazy] at hd
      exact .tail (h o q hq hd) (.part ht hl hp hlazy)

namespace Stands

theorem missed (hq : w.Fair rivals) (h : w.Stands C e (.visit x) m) (hs : m.settled x = none)
    (hm : Misses rivals e m x m₁) :
    w.Stands C e (.layer x) m₁ ∧ x ∉ Fixed C m₁ ∧ m₁.bodies = m.bodies := by
  obtain ⟨hap, hset, hbodies, hxC⟩ := hm.apart hq.acyclic h.apart
  refine ⟨⟨h.env, hm.honest hq.vouching h.honest, ⟨h.above.refers, h.above.leads⟩, hap, ?_,
    h.near⟩, fun hx => hx.elim (fun hx => hx (hset ▸ hs)) hxC, hbodies⟩
  cases hm with
  | alone => exact h.sane
  | shared _ hk _ => exact h.sane.found hq hk

theorem parts (h : w.Stands C e (.layer x) m) {t : Term} {l : Layer}
    (ht : w.arena.term? x = some t) (hl : w.layer? x t = some l) :
    w.Stands C e (.parts l.parts) m :=
  ⟨h.env, h.honest, h.above.parts ht hl, h.apart, h.sane,
    fun _ hp => Close.part h.env h.near ht hl hp⟩

theorem inline (h : w.Stands C e (.layer x) m) (hr : w.Resolves x (.ok r)) :
    w.Stands C e (.visit r.node) m :=
  ⟨h.env, h.honest, h.above.inline hr, h.apart, h.sane,
    fun o p hp hd => .tail (h.near o p hp hd) (.node hr)⟩

theorem head {p : Part} {ps : List Part} (h : w.Stands C e (.parts (p :: ps)) m) :
    w.Stands C (e.inside p.lazy) (.visit p.ty) m :=
  ⟨h.env.inside _, h.honest, h.above.head, ⟨h.apart.opened, h.apart.known, h.apart.cached⟩,
    h.sane.inside, h.near p (List.mem_cons_self ..)⟩

theorem tail {p : Part} {ps : List Part} (h : w.Stands C e (.parts (p :: ps)) m)
    (hm : w.Honest m₁) (ha : w.Apart C e m₁) (hs : w.Sane e m₁) : w.Stands C e (.parts ps) m₁ :=
  ⟨h.env, hm, h.above.tail, ha, hs, fun q hq => h.near q (List.mem_cons_of_mem _ hq)⟩

theorem first (h : w.Stands C e (.layer x) m) (hx : x ∉ Fixed C m) (hopen : e.find? x = none)
    (hr : w.Resolves x (.ok r)) (hrec : w.Recursive x) :
    w.Stands C (e.enter x none) (.visit r.node) m :=
  ⟨h.env.enter hrec (.inl rfl), h.honest, h.above.enter hr, h.apart.enter hx, h.sane.enter hopen,
    Close.enter h.near hr⟩

theorem second (h : w.Stands C e (.layer x) m) (hr : w.Resolves x (.ok r)) (hrec : w.Recursive x)
    (hconv : w.Converts x) (hm : w.Honest m₁) (ha : w.Apart C (e.enter x none) m₁)
    (hs : w.Sane (e.enter x none) m₁) :
    w.Stands C (e.enter x (deferring x)) (.visit r.node) m₁ :=
  ⟨h.env.enter hrec (.inr ⟨rfl, hconv⟩), hm, h.above.enter hr,
    ⟨fun o ho => ha.opened o (by simpa using ho), ha.known, ha.cached⟩, hs.again,
    Close.enter h.near hr⟩

theorem speaks (hq : w.Fair rivals) (st : w.Stands C e job m) {out : Verdict}
    (h : w.Plans rivals e job m out m') :
    w.Honest m' ∧ ∀ cs U, out = .ok (cs, U) → w.Says e job cs U :=
  h.speaks hq.vouching st.env st.honest

theorem tracks (hq : w.Fair rivals) (st : w.Stands C e job m) (hx : Due C m job) {out : Verdict}
    (h : w.Plans rivals e job m out m') : w.Tracks C e job m out m' :=
  h.tracks hq.acyclic st.above hx st.apart

/-- Where the other parts stand after the first one. -/
theorem after_head (hq : w.Fair rivals) {p : Part} {ps : List Part}
    (st : w.Stands C e (.parts (p :: ps)) m) {out : Verdict}
    (h : w.Plans rivals (e.inside p.lazy) (.visit p.ty) m out m₁)
    (hs : w.Sane (e.inside p.lazy) m₁) : w.Stands C e (.parts ps) m₁ :=
  st.tail (st.head.speaks hq h).1 (st.head.tracks hq trivial h).clears.outside.apart hs.outside

/-- Where the second turn stands, after a first turn that gave no identity. -/
theorem after_first (hq : w.Fair rivals) (st : w.Stands C e (.layer x) m) (hx : x ∉ Fixed C m)
    (hopen : e.find? x = none) (hr : w.Resolves x (.ok r)) (hrec : w.Recursive x)
    (h : w.Plans rivals (e.enter x none) (.visit r.node) m (.ok ([c], U)) m₁) (hc : c ≠ none)
    (hs : w.Sane (e.enter x none) m₁) :
    w.Converts x ∧ w.Stands C (e.enter x (deferring x)) (.visit r.node) m₁ := by
  have st₁ := st.first hx hopen hr hrec
  obtain ⟨hm₁, said⟩ := st₁.speaks hq h
  have hconv := (converts_node hr).mpr (Speaks.converts (said _ _ rfl) hc)
  exact ⟨hconv, st.second hr hrec hconv hm₁ (st₁.tracks hq trivial h).clears.apart hs⟩

/-- After the turns of a type that was not open it is not at hand. -/
theorem unbound (st : w.Stands C (e.enter x g) (.visit r.node) m) (hq : w.Fair rivals)
    (hopen : e.find? x = none) {out : Verdict}
    (h : w.Plans rivals (e.enter x g) (.visit r.node) m out m') : x ∉ Bound C e m' := fun hx =>
  hx.elim ((st.tracks hq trivial h).clears.apart.opened x (by simp)) (Env.notMem_opened.mpr hopen)

end Stands

end Standing

/-! ## The main statement -/

/-- What a run keeps true of the table, and what it tells when it fails. -/
structure Keeps (w : World) (C : Set TyId) (e : Env) (job : Job) (m : Memory) (out : Verdict)
    (m' : Memory) : Prop where
  sane : w.Sane e m'
  grows : ∀ u, m.bodies u ≠ none → m'.bodies u ≠ none
  /-- What the contents defer to has a body, or is open and will get one. -/
  covered : ∀ cs U, out = .ok (cs, U) → ∀ c ∈ cs, ∀ t ∈ (bare c).targets,
    m'.bodies t ≠ none ∨ t ∈ U ∧ Deferred e t
  leaves : ∀ cs U, out = .ok (cs, U) → w.Leaves C e job m m'
  hopeless : ∀ f, out = .error f → w.Hopeless job
  /-- After a failure, a new wrong body is below a type that is open. -/
  failed : ∀ f, out = .error f → ∀ u, w.Wrong m' u → w.Wrong m u ∨ ∃ o ∈ e.opened, w.Reach u o

namespace Keeps

variable {job job' : Job} {cs : List Content} {f : Failure}

theorem success (hs : w.Sane e m') (hg : ∀ u, m.bodies u ≠ none → m'.bodies u ≠ none)
    (hc : ∀ c ∈ cs, ∀ t ∈ (bare c).targets, m'.bodies t ≠ none ∨ t ∈ U ∧ Deferred e t)
    (hl : w.Leaves C e job m m') : w.Keeps C e job m (.ok (cs, U)) m' :=
  ⟨hs, hg, by rintro _ _ ⟨⟩; exact hc, by rintro _ _ ⟨⟩; exact hl, nofun, nofun⟩

theorem fault (hs : w.Sane e m') (hg : ∀ u, m.bodies u ≠ none → m'.bodies u ≠ none)
    (hh : w.Hopeless job)
    (hf : ∀ u, w.Wrong m' u → w.Wrong m u ∨ ∃ o ∈ e.opened, w.Reach u o) :
    w.Keeps C e job m (.error f) m' :=
  ⟨hs, hg, nofun, nofun, fun _ _ => hh, fun _ _ => hf⟩

/-- A fault that is found at once. -/
theorem refused (hs : w.Sane e m) (hh : w.Hopeless job) : w.Keeps C e job m (.error f) m :=
  .fault hs (fun _ h => h) hh fun _ h => .inl h

/-- What was wrong after a turn of a type that is not good. -/
theorem leave {x : TyId} (hbad : ¬w.Good x) (hu : w.Wrong m' u)
    (h : w.Wrong m u ∨ ∃ o ∈ (e.enter x g).opened, w.Reach u o) :
    w.Wrong m u ∨ ∃ o ∈ e.opened, w.Reach u o := by
  refine h.imp_right fun ⟨o, ho, hreach⟩ => ?_
  rw [Env.enter_opened] at ho
  rcases ho with rfl | ho
  · exact absurd (hu.1.reach hreach) hbad
  · exact ⟨o, ho, hreach⟩

end Keeps

section Cases

/-- A converter from the cache brings right bodies with it. -/
theorem keeps_adopted (hq : w.Fair rivals) (st : w.Stands C e (.visit x) m)
    (hk : rivals m.cache k) (hkx : k.converters x = some c)
    (ht : Takes rivals (m.found k) (bare c).targets.reverse m' true) :
    w.Keeps C e (.visit x) m (.ok ([c], ∅)) (m'.remember x c) := by
  obtain ⟨-, took⟩ := Takes.of_converter hq st.honest st.sane.supplies hk hkx ht
  have present {t : TyId} (h : t ∈ (bare c).targets) : m'.bodies t ≠ none :=
    took.present t (List.mem_reverse.mpr h)
  have hsane := st.sane.found hq hk
  have hset : m'.settled = m.settled := ht.settled
  have kept {y : TyId} (hy : k.converters y ≠ none) : m'.cache.converters y ≠ none :=
    Takes.keeps hq ht hy
  refine .success ⟨took.supplies, fun u d hd t h => ?_, fun u d hd hu t h => ?_,
    fun y d hy t h => ?_, fun hc y hy => ?_⟩ (fun u => took.grows.ne_none) ?_
    (.at_hand (mem_fixed_put.mpr (.inl rfl)) fun u hu => ?_)
  · rcases took.new u d hd with hd | ⟨hb, -⟩
    · exact hsane.aims u d hd t h
    · exact hb.targets h
  · rcases took.new u d hd with hd | ⟨-, hp⟩
    · exact (hsane.closed u d hd hu t h).imp_left took.grows.ne_none
    · exact .inl (hp t h)
  · by_cases hyx : y = x
    · subst hyx
      rw [Memory.remember_settled, Contents.put_self] at hy
      cases hy
      exact present h
    · rw [Memory.remember_settled, Contents.put_of_ne hyx, hset] at hy
      exact took.grows.ne_none (hsane.settled y d hy t h)
  · by_cases hyx : y = x
    · subst hyx
      exact kept (by simp [hkx])
    · rw [Memory.remember_settled, Contents.put_of_ne hyx, hset] at hy
      exact kept (hsane.shared hc y hy)
  · rintro d hd t h
    cases List.mem_singleton.mp hd
    exact .inl (present h)
  · obtain ⟨hg, hrec, hconv, d, hd, hn⟩ := hu
    rcases took.new u d hd with hd | ⟨hb, -⟩
    · exact ⟨hg, hrec, hconv, d, hd, hn⟩
    · exact absurd hb hn

theorem keeps_settles (hq : w.Fair rivals) (hbodies : m₁.bodies = m.bodies)
    {m₂ : Memory} (hm : w.Honest m₂) (done : w.Done C e x c m₁ m₂)
    (hgrows : ∀ u, m₁.bodies u ≠ none → m₂.bodies u ≠ none)
    (hs : Settles rivals e m₂ x c d m') : w.Keeps C e (.visit x) m (.ok ([d], ∅)) m' := by
  obtain ⟨hsane, hbodies'⟩ := done.settles hq hm hs
  obtain rfl : d = c := (hs.honest hq.vouching hm done.good done.canon).2
  have hopen : x ∉ e.opened := fun ho => done.clear x ho (.refl w _ x)
  have hfixed : x ∈ Fixed C m' := by
    have hset := (hs.apart hq.acyclic done.apart hopen).2.1
    exact .inl (by simp [hset])
  refine .success hsane (fun u hu => ?_) ?_ (.at_hand hfixed fun u hu => ?_)
  · rw [hbodies']
    exact hgrows u (hbodies.symm ▸ hu)
  · rintro b hb t ht
    cases List.mem_singleton.mp hb
    rw [hbodies']
    exact .inl (done.present t ht)
  · exact (wrong_congr hbodies).mp (done.leaves.wrong done.clear ((wrong_congr hbodies').mp hu))

theorem leaves_leaf {t : Term} (ht : w.arena.term? x = some t) (hl : t.isLeaf = true) :
    w.Leaves C e (.layer x) m m := by
  refine fun u hu => ⟨?_, fun _ => hu⟩
  rintro ⟨y, hy, haway⟩
  cases List.mem_singleton.mp hy
  rcases haway.cases_head with rfl | ⟨z, e', -⟩
  · have := hu.2.1.isReference ht
    rw [not_isReference_of_leaf hl] at this
    cases this
  · exact absurd e' (not_edge_of_leaf ht hl)

theorem Recursive.not_layer {t : Term} {l : Layer} (ht : w.arena.term? x = some t)
    (hl : w.layer? x t = some l) : ¬w.Recursive x := by
  intro h
  have := h.isReference ht
  rw [isReference_of_layer hl] at this
  cases this

end Cases

/-- Planning keeps the table sane, leaves no wrong body unexplained, and fails only
where it has to. -/
theorem Plans.keeps (hq : w.Fair rivals) {job : Job} {out : Verdict}
    (h : w.Plans rivals e job m out m') : w.Stands C e job m → Due C m job →
      w.Keeps C e job m out m' := by
  induction h with
  | remembered hs =>
      intro st _
      refine .success st.sane (fun _ h => h) ?_ (.at_hand (.inl (by simp [hs])) fun _ h => h)
      rintro c hc t ht
      cases List.mem_singleton.mp hc
      exact .inl (st.sane.settled _ _ hs t ht)
  | adopted _ _ hk hkx ht => exact fun st _ => keeps_adopted hq st hk hkx ht
  | bodyless _ _ hk hkx ht =>
      intro st _
      cases (Takes.of_converter hq st.honest st.sane.supplies hk hkx ht).1
  | @settles e m m₁ m₂ m' x c kept hs hm h hset ih =>
      intro st _
      obtain ⟨st₁, hx, hbodies⟩ := st.missed hq hs hm
      have keeps := ih st₁ hx
      obtain ⟨hm₂, said⟩ := st₁.speaks hq h
      obtain ⟨hgood, hcanon⟩ := Speaks.good (said _ _ rfl)
      have tracks := st₁.tracks hq hx h
      refine keeps_settles hq hbodies hm₂ ⟨hgood, hcanon, keeps.sane, tracks.clears.apart,
        fun o ho hmeets => (tracks.single rfl ho).mpr hmeets, fun t ht => ?_,
        keeps.leaves _ _ rfl⟩ keeps.grows hset
      exact (keeps.covered _ _ rfl c (List.mem_singleton_self c) t ht).resolve_right fun h => h.1
  | hangs hs hm _ _ ih =>
      intro st _
      obtain ⟨st₁, hx, hbodies⟩ := st.missed hq hs hm
      have keeps := ih st₁ hx
      refine .success keeps.sane (fun u hu => keeps.grows u (hbodies.symm ▸ hu))
        (keeps.covered _ _ rfl) fun u hu => ?_
      obtain ⟨seen, unseen⟩ := keeps.leaves _ _ rfl u hu
      exact ⟨seen, fun hn => (wrong_congr hbodies).mp (unseen hn)⟩
  | fails hs hm _ ih =>
      intro st _
      obtain ⟨st₁, hx, hbodies⟩ := st.missed hq hs hm
      have keeps := ih st₁ hx
      refine .fault keeps.sane (fun u hu => keeps.grows u (hbodies.symm ▸ hu))
        (keeps.hopeless _ rfl) fun u hu => ?_
      exact (keeps.failed _ rfl u hu).imp_left (wrong_congr hbodies).mp
  | leaf ht hl =>
      intro st _
      exact .success st.sane (fun _ h => h) (by simp) (leaves_leaf ht hl)
  | refused ht hl hf => exact fun st _ => .refused st.sane (not_good_of_refused hl ht hf)
  | partsFail ht hl _ _ ih =>
      intro st _
      have keeps := ih (st.parts ht hl) trivial
      exact .fault keeps.sane keeps.grows (SpeaksAll.hopeless hl ht (keeps.hopeless _ rfl))
        (keeps.failed _ rfl)
  | unassembled ht hl _ h hf ih =>
      intro st _
      have keeps := ih (st.parts ht hl) trivial
      obtain ⟨-, said⟩ := (st.parts ht hl).speaks hq h
      exact .fault keeps.sane keeps.grows (SpeaksAll.not_good (said _ _ rfl) hl ht hf)
        fun u hu => (keeps.leaves _ _ rfl).reach hu
  | @assembled e m m' x t l cs c U ht hl hb h hc ih =>
      intro st hx
      have st₁ := st.parts ht hl
      have keeps := ih st₁ trivial
      obtain ⟨-, said⟩ := st₁.speaks hq h
      have tracks := st₁.tracks hq trivial h
      have hopen := st.above.notMem_of_term ht (isReference_of_layer hl)
      refine .success keeps.sane keeps.grows ?_ (Leaves.up (keeps.leaves _ _ rfl) tracks.clears
        (fun h => h.elim hx hopen) (Recursive.not_layer ht hl) fun y => ?_)
      · rintro d hd t' ht'
        cases List.mem_singleton.mp hd
        obtain ⟨b, hb', ht'⟩ := (hc.targets hl (SpeaksAll.length (said _ _ rfl))).mp ht'
        exact keeps.covered _ _ rfl b hb' t' ht'
      · rw [edge_iff_part ht hl hb, Job.types, List.mem_map]
  | circles _ ho hd => exact fun st _ => .refused st.sane (not_good_of_circle (st.near _ _ ho hd))
  | @guessed e m x o _ ho _ =>
      intro st _
      have hopen : x ∈ e.opened := Env.mem_opened.mpr ⟨o, ho⟩
      refine .success st.sane (fun _ h => h) ?_ fun u hu => ⟨?_, fun _ => hu⟩
      · rintro c hc t ht
        cases List.mem_singleton.mp hc
        rcases st.env.guess o (Env.find?_mem ho) with hn | ⟨hd, -⟩
        · rw [hn] at ht
          cases ht
        · rw [hd, mem_targets_deferring, Env.find?_ty ho] at ht
          exact .inr ⟨ht, o, ht ▸ ho, by rw [hd]; exact Option.some_ne_none _⟩
      · rintro ⟨y, hy, haway⟩
        cases List.mem_singleton.mp hy
        exact absurd (Or.inr hopen) haway.left
  | unresolved hx _ hf => exact fun st _ => .refused st.sane (not_good_of_unresolved hx hf)
  | inlineFails _ hr _ _ ih =>
      intro st _
      have keeps := ih (st.inline hr) trivial
      exact .fault keeps.sane keeps.grows (not_good_of_node hr (keeps.hopeless _ rfl))
        (keeps.failed _ rfl)
  | @inline e m m' x r cs U hopen hr hn h ih =>
      intro st hx
      have keeps := ih (st.inline hr) trivial
      have tracks := (st.inline hr).tracks hq trivial h
      have notRecursive : ¬w.Recursive x := by
        rintro ⟨r', hr', hrec, -⟩
        cases hr.unique hr'
        rw [hn] at hrec
        cases hrec
      exact .success keeps.sane keeps.grows (keeps.covered _ _ rfl) (Leaves.up
        (keeps.leaves _ _ rfl) tracks.clears (fun h => h.elim hx (Env.notMem_opened.mpr hopen))
        notRecursive fun y => by rw [edge_iff_node hr, Job.types, List.mem_singleton])
  | grows _ hr hrec hreg =>
      exact fun st _ => .refused st.sane (not_good_of_growing hr hrec hreg)
  | firstFails hopen hr hrec hreg _ ih =>
      intro st hx
      have keeps := ih (st.first hx hopen hr (recursive_of_resolves hr hrec hreg)) trivial
      have hbad := not_good_of_node hr (keeps.hopeless _ rfl)
      exact .fault (keeps.sane.leave (.inl rfl)) keeps.grows hbad fun u hu =>
        Keeps.leave hbad hu (keeps.failed _ rfl u hu)
  | @idle e m m' x r U hopen hr hrec hreg h ih =>
      intro st hx
      have hrecx := recursive_of_resolves hr hrec hreg
      have st₁ := st.first hx hopen hr hrecx
      have keeps := ih st₁ trivial
      obtain ⟨-, said⟩ := st₁.speaks hq h
      have tracks := st.tracks hq hx (Plans.idle hopen hr hrec hreg h)
      exact .success (keeps.sane.leave (.inl rfl)) keeps.grows (by simp)
        (Leaves.idle_turn hr hrecx (keeps.leaves _ _ rfl)
          (Speaks.idle_turn hr hrec hreg (said _ _ rfl)) tracks (st₁.unbound hq hopen h))
  | @secondFails e m m₁ m' x r c U f hopen hr hrec hreg h hc h' ih ih' =>
      intro st hx
      have hrecx := recursive_of_resolves hr hrec hreg
      have keeps := ih (st.first hx hopen hr hrecx) trivial
      obtain ⟨-, st₂⟩ := st.after_first hq hx hopen hr hrecx h hc keeps.sane
      have keeps' := ih' st₂ trivial
      have hbad := not_good_of_node hr (keeps'.hopeless _ rfl)
      refine .fault (keeps'.sane.leave (.inr hbad)) (fun u hu => keeps'.grows u (keeps.grows u hu))
        hbad fun u hu => ?_
      rcases Keeps.leave hbad hu (keeps'.failed _ rfl u hu) with hu₁ | hopen
      · exact Keeps.leave hbad hu ((keeps.leaves _ _ rfl).reach hu₁)
      · exact .inr hopen
  | @defers e m m₁ m₂ x r c d U V hopen hr hrec hreg h hc h' ih ih' =>
      intro st hx
      have hrecx := recursive_of_resolves hr hrec hreg
      have keeps := ih (st.first hx hopen hr hrecx) trivial
      obtain ⟨hconv, st₂⟩ := st.after_first hq hx hopen hr hrecx h hc keeps.sane
      have keeps' := ih' st₂ trivial
      obtain ⟨-, said⟩ := st₂.speaks hq h'
      refine .success (keeps'.sane.setBody (fun t ht => ?_) fun t ht => ?_)
        (fun u hu => Contents.put_ne_none (keeps'.grows u (keeps.grows u hu))) ?_
        (Leaves.second_turn hr (.deferring hrecx hconv) (keeps.leaves _ _ rfl)
          (keeps'.leaves _ _ rfl) (said _ _ rfl) (st₂.tracks hq trivial h')
          (st₂.unbound hq hopen h'))
      · obtain ⟨hreach, hrest⟩ := Speaks.targets (said _ _ rfl) t ht
        exact ⟨.head (.node hr) hreach, hrest⟩
      · exact (keeps'.covered _ _ rfl d (List.mem_singleton_self d) t ht).imp_right fun h => h.2
      · rintro b hb t ht
        cases List.mem_singleton.mp hb
        cases mem_targets_deferring.mp ht
        exact .inl (by simp)
  | noParts =>
      intro st _
      exact .success st.sane (fun _ h => h) (by simp) fun u hu => ⟨by simp [Job.types], fun _ => hu⟩
  | partRefused hf =>
      exact fun st _ => .refused st.sane ⟨_, List.mem_cons_self .., .inr ⟨_, hf⟩⟩
  | @partFails e m m' p ps f _ _ ih =>
      intro st _
      have keeps := ih st.head trivial
      exact .fault keeps.sane.outside keeps.grows
        ⟨p, List.mem_cons_self .., .inl (keeps.hopeless _ rfl)⟩ (keeps.failed _ rfl)
  | @restFails e m m₁ m' p ps c U f _ h _ ih ih' =>
      intro st _
      have keeps := ih st.head trivial
      have keeps' := ih' (st.after_head hq h keeps.sane) trivial
      obtain ⟨q, hq', hbad⟩ := keeps'.hopeless _ rfl
      refine .fault keeps'.sane (fun u hu => keeps'.grows u (keeps.grows u hu))
        ⟨q, List.mem_cons_of_mem _ hq', hbad⟩ fun u hu => ?_
      rcases keeps'.failed _ rfl u hu with hu₁ | hopen
      · exact (keeps.leaves _ _ rfl).reach hu₁
      · exact .inr hopen
  | @someParts e m m₁ m' p ps c cs U V _ h h' ih ih' =>
      intro st _
      have keeps := ih st.head trivial
      have st₁ := st.after_head hq h keeps.sane
      have keeps' := ih' st₁ trivial
      refine .success keeps'.sane (fun u hu => keeps'.grows u (keeps.grows u hu)) ?_
        (Leaves.then (keeps.leaves _ _ rfl) (keeps'.leaves _ _ rfl)
          (st₁.tracks hq trivial h').clears)
      rintro b hb t ht
      rcases List.mem_cons.mp hb with rfl | hb
      · rcases keeps.covered _ _ rfl b (List.mem_singleton_self b) t ht with h | ⟨h, hd⟩
        · exact .inl (keeps'.grows t h)
        · exact .inr ⟨.inl h, hd⟩
      · exact (keeps'.covered _ _ rfl b hb t ht).imp_right (And.imp_left .inr)

end World

end Marshal
