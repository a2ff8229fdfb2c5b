import Mathlib.Data.List.Sections
import Mathlib.Data.Set.Finite.Basic
import Marshal.Proofs.Instances

/-!
# Expanding references

A reference is expanded when it is resolved and the references in the type that it
stands for are looked at in their turn (`Expands`). A planner stops this where it
meets a recursive declaration, or refuses an irregular one, and it goes by the tags of
the declaration that was referred to. The theorems here say what the tags of all
declarations that the alias steps pass are good for:

- on every cycle of expansions a recursive declaration is passed
  (`cycle_passes_recursive`);
- where no irregular declaration is passed, only finitely many references are met
  (`expands_finitely`).

The declaration that was referred to need not be the one. It may be an alias of its
argument, which is on the cycle, or an alias that leads into a cycle on which it is
applied to bare parameters itself.

For the first theorem, ways down into types that pass no recursive declaration are
shown to end (`Grounded`), by the ranks of declarations. For the second, an arena is
built that has all instances that regular declarations need (`ClosedFrom`), one rank
after the other: an instance of a body of some rank holds new references of that rank
only with arguments that were there before.
-/

namespace Marshal

open Arena Relation

namespace Catalog

/-! ## Alias steps -/

/-- One alias step, in an arena that holds the instance. -/
def Opens (c : Catalog) (a : Arena) (x y : TyId) : Prop :=
  ∃ key args, a.term? x = some (.named key args) ∧ c.expand key args a = (.ok y, a)

/-- The alias steps from the reference on pass the declaration. -/
inductive Passes (c : Catalog) (a : Arena) : TyId → Key → Prop
  | here {x : TyId} {key : Key} {args : List TyId} : a.term? x = some (.named key args) →
      Passes c a x key
  | next {x y : TyId} {key : Key} : c.Opens a x y → Passes c a y key → Passes c a x key

variable {c : Catalog} {a b : Arena} {x y origin node : TyId} {key : Key} {args : List TyId}

theorem expand_ok (h : c.expand key args a = (.ok y, b)) :
    ∃ d, c.find? key = some d ∧ args.length = d.params ∧ instantiate d.body args a = (y, b) := by
  cases hd : c.find? key with
  | none => rw [expand, hd] at h; cases h
  | some d =>
      rw [expand, hd] at h
      dsimp only at h
      by_cases hlen : args.length = d.params
      · rw [if_pos hlen] at h
        cases h
        exact ⟨d, rfl, hlen, rfl⟩
      · rw [if_neg hlen] at h
        cases h

theorem expand_found {d : Decl} (hd : c.find? key = some d) (hlen : args.length = d.params)
    (h : instantiate d.body args a = (y, b)) : c.expand key args a = (.ok y, b) := by
  rw [expand, hd]
  dsimp only
  rw [if_pos hlen, h]

theorem expand_fails (h : ∀ d, c.find? key = some d → args.length ≠ d.params) :
    ∃ f, c.expand key args a = (.error f, a) := by
  cases hd : c.find? key with
  | none => exact ⟨_, by rw [expand, hd]; rfl⟩
  | some d => exact ⟨_, by rw [expand, hd]; dsimp only; rw [if_neg (h d hd)]; rfl⟩

theorem follow_opens (hc : c.Over a) (ha : a.Sound) (horigin : a.Has origin) :
    ∀ {steps : Nat} {passed : List Key} {key : Key} {args : List TyId} {x : TyId},
      a.term? x = some (.named key args) →
      c.follow origin steps passed key args a = (.ok node, a) → TransGen (c.Opens a) x node
  | 0, passed, key, args, x, _, h => by
      rw [follow_spent] at h
      cases h
  | steps + 1, passed, key, args, x, hx, h => by
      by_cases hp : key ∈ passed
      · rw [follow_passed hp] at h
        cases h
      have hargs : ∀ v ∈ args, a.Has v := fun v hv => ha.has_child hx hv
      obtain ⟨r, b, hr, hstored⟩ := expand_tries hc ha hargs
      cases r with
      | error f =>
          rw [follow_stops hp hr.run] at h
          cases h
      | ok n =>
          have same : b.Within a → c.Opens a x n := fun hba =>
            ⟨key, args, hx, hba.antisymm hr.within ▸ hr.run⟩
          by_cases hn : ∃ next nextArgs, b.term? n = some (.named next nextArgs)
          · obtain ⟨next, nextArgs, hn⟩ := hn
            rw [follow_goes hp hr.run hn] at h
            have rest : ∃ r d, Tries (c.follow origin steps (key :: passed) next nextArgs) b r d ∧
                ∀ v, r = .ok v → Ended d v :=
              follow_tries steps (hc.within hr.within) hr.sound (hr.within.has horigin)
                fun v hv => hr.sound.has_child hn hv
            obtain ⟨r', d, hr', -⟩ := rest
            cases hr'.run.symm.trans h
            have hba := hr'.within
            cases hba.antisymm hr.within
            exact .head (same hba) (follow_opens hc ha horigin hn h)
          · rw [follow_ends hp hr.run fun k as hk => hn ⟨k, as, hk⟩] at h
            cases h
            exact .single (same (.refl a))

/-- A reference that resolves comes to its node by alias steps. -/
theorem Resolves.opens {ref : Referent} (h : c.Resolves a x (.ok ref)) (hc : c.Over a)
    (ha : a.Sound) : TransGen (c.Opens a) x ref.node := by
  by_cases hx : ∃ key args, a.term? x = some (.named key args)
  · obtain ⟨key, args, hx⟩ := hx
    have tries : ∃ r b, Tries (c.follow x (c.size + 1) [] key args) a r b ∧
        ∀ v, r = .ok v → Ended b v :=
      follow_tries (c.size + 1) hc ha (has_of_term? hx) fun v hv => ha.has_child hx hv
    obtain ⟨r, b, hr, -⟩ := tries
    rw [Resolves, resolve_named hx] at h
    cases r with
    | error f =>
        rw [ArenaM.bind_error hr.run] at h
        cases h
    | ok node =>
        rw [ArenaM.bind_ok hr.run] at h
        cases h
        exact follow_opens hc ha (has_of_term? hx) hx hr.run
  · rw [Resolves, resolve_unnamed fun key args h => hx ⟨key, args, h⟩] at h
    cases h

/-! ## Expansions -/

/-- A part of a type that is met without entering a reference. -/
def Inside (a : Arena) (x y : TyId) : Prop :=
  ∃ t, a.term? x = some t ∧ t.isReference = false ∧ y ∈ t.children

/-- The first reference resolves to a type in which the second is met. -/
def Expands (c : Catalog) (a : Arena) (r s : TyId) : Prop :=
  ∃ ref, c.Resolves a r (.ok ref) ∧ ReflTransGen (Inside a) ref.node s ∧ a.isReference s = true

theorem inside_later (hab : a.Within b) (h : ReflTransGen (Inside a) x y) :
    ReflTransGen (Inside b) x y :=
  h.lift id fun _ _ ⟨t, ht, hmem⟩ => ⟨t, hab.term? ht, hmem⟩

theorem inside_of_later (ha : a.Sound) (hab : a.Within b) (hx : a.Has x)
    (h : ReflTransGen (Inside b) x y) : a.Has y ∧ ReflTransGen (Inside a) x y := by
  induction h with
  | refl => exact ⟨hx, .refl⟩
  | tail _ hstep ih =>
      obtain ⟨t, ht, href, hmem⟩ := hstep
      have ht' := (hab.term?_eq ih.1).symm.trans ht
      exact ⟨ha.has_child ht' hmem, ih.2.tail ⟨t, ht', href, hmem⟩⟩

theorem isReference_within (hab : a.Within b) (hx : a.Has x) :
    b.isReference x = a.isReference x := by
  rw [isReference, isReference, hab.term?_eq hx]

theorem has_of_isReference (hx : a.isReference x = true) : a.Has x := by
  rw [has_iff]
  cases ht : a.term? x with
  | none => rw [isReference, ht] at hx; cases hx
  | some t => exact ⟨t, rfl⟩

/-- The catalog of these declarations was built over `a₀`, and `a` has grown from that. -/
structure Based (a₀ : Arena) (decls : List Decl) (a : Arena) : Prop where
  built : a₀.Built
  spans : (ofDecls a₀ decls).Over a₀
  within : a₀.Within a
  sound : a.Sound

section Based

variable {a₀ : Arena} {decls : List Decl}

theorem Based.later (h : Based a₀ decls a) (hab : a.Within b) (hb : b.Sound) : Based a₀ decls b :=
  ⟨h.built, h.spans, h.within.trans hab, hb⟩

theorem Based.over (h : Based a₀ decls a) : (ofDecls a₀ decls).Over a := h.spans.within h.within

theorem Based.body (h : Based a₀ decls a) {d : Decl} (hd : lookup decls key = some d) :
    a₀.Has d.body :=
  h.spans d (key_of_lookup hd).1

/-- An alias step leads to an instance of the body. -/
theorem Based.opens_inst (h : Based a₀ decls a) (hx : a.term? x = some (.named key args))
    (hxy : (ofDecls a₀ decls).Opens a x y) :
    ∃ d, lookup decls key = some d ∧ a.Inst args d.body y := by
  obtain ⟨k, as, hx', hexpand⟩ := hxy
  cases hx.symm.trans hx'
  obtain ⟨d, hd, -, hrun⟩ := expand_ok hexpand
  obtain ⟨v, b, hv, hinst, -⟩ := instantiate_inst h.built.sound h.built.marked h.within h.sound
    (h.body hd)
    fun v hv => h.sound.has_child hx hv
  cases hv.run.symm.trans hrun
  exact ⟨d, hd, hinst⟩

end Based

/-! ## Cycles -/

section Cycles

variable {a₀ : Arena} {decls : List Decl}

/-- A step into a type: into a part, or behind a declaration that is not recursive. -/
def Descends (c : Catalog) (a : Arena) (x y : TyId) : Prop :=
  Inside a x y ∨
    c.Opens a x y ∧ ∃ key args, a.term? x = some (.named key args) ∧ c.isRecursive key = false

/-- There is no endless way down from the type. -/
def Grounded (c : Catalog) (a : Arena) (x : TyId) : Prop := Acc (fun y x => c.Descends a x y) x

theorem Grounded.of_parts {t : Term} (ht : a.term? x = some t) (href : t.isReference = false)
    (h : ∀ y ∈ t.children, c.Grounded a y) : c.Grounded a x := by
  refine .intro x fun y hy => ?_
  rcases hy with ⟨u, hu, -, hmem⟩ | ⟨⟨key, args, hx, -⟩, -⟩
  · cases ht.symm.trans hu
    exact h y hmem
  · cases ht.symm.trans hx
    cases href

theorem Grounded.of_reference (ht : a.term? x = some (.named key args))
    (h : ∀ y, c.isRecursive key = false → c.Opens a x y → c.Grounded a y) : c.Grounded a x := by
  refine .intro x fun y hy => ?_
  rcases hy with ⟨u, hu, href, -⟩ | ⟨hopens, k, as, hx, hrec⟩
  · cases ht.symm.trans hu
    cases href
  · cases ht.symm.trans hx
    exact h y hrec hopens

theorem Grounded.no_cycle (h : c.Grounded a x) : ¬TransGen (c.Descends a) x x := by
  replace h := Acc.transGen h
  induction h with
  | intro x _ ih => exact fun hx => ih x hx.swap hx

theorem isReference_rebuild (t : Term) (ids : List TyId) :
    (t.rebuild ids).isReference = t.isReference := by
  cases t <;> rfl

/-- An instance of a part of a body is grounded if the arguments are, and all that is of
a lower rank. -/
theorem Grounded.inst (h : Based a₀ decls a) {d : Decl} (hd : lookup decls key = some d)
    (hrec : (ofDecls a₀ decls).isRecursive key = false)
    (hargs : ∀ v ∈ args, (ofDecls a₀ decls).Grounded a v)
    (hlower : ∀ k as z, rank a₀ decls k < rank a₀ decls key → a.term? z = some (.named k as) →
      (∀ v ∈ as, (ofDecls a₀ decls).Grounded a v) → (ofDecls a₀ decls).Grounded a z)
    (hxy : a.Inst args x y) : a₀.Contains d.body x → (ofDecls a₀ decls).Grounded a y := by
  induction hxy with
  | @var x i ht =>
      intro _
      cases hi : args[i]? with
      | none => exact .of_parts ht rfl (by simp [Term.children])
      | some v => exact hargs v (List.mem_of_getElem? hi)
  | @term x y t ids ht _ hlen _ hy ih =>
      intro hx
      have ht₀ : a₀.term? x = some t :=
        (h.within.term?_eq (hx.has h.built.sound (h.body hd))).symm.trans ht
      have parts : ∀ z ∈ ids, (ofDecls a₀ decls).Grounded a z := by
        intro z hz
        rw [← List.map_snd_zip (Nat.le_of_eq hlen)] at hz
        obtain ⟨p, hp, rfl⟩ := List.mem_map.mp hz
        exact ih p hp (hx.tail ⟨t, ht₀, (List.of_mem_zip hp).1⟩)
      cases t with
      | named k ts =>
          refine .of_reference hy fun z hrec' hz => ?_
          have uses : Uses a₀ decls key k := ⟨d, x, ts, hd, hx, ht₀⟩
          have lower : rank a₀ decls k < rank a₀ decls key := by
            refine rank_lt uses fun hback => ?_
            rw [(isRecursive_iff h.built.sound h.built.marked).mpr (.head' uses hback)] at hrec
            cases hrec
          exact (hlower k ids y lower hy parts).inv (.inr ⟨hz, k, ids, hy, hrec'⟩)
      | _ =>
          refine .of_parts hy (isReference_rebuild _ ids) ?_
          rw [Term.children_rebuild _ ids hlen]
          exact parts

theorem Grounded.reference (h : Based a₀ decls a) (hx : a.term? x = some (.named key args))
    (hargs : ∀ v ∈ args, (ofDecls a₀ decls).Grounded a v) : (ofDecls a₀ decls).Grounded a x := by
  induction hn : rank a₀ decls key using Nat.strong_induction_on generalizing key args x with
  | _ n ih =>
    subst hn
    refine .of_reference hx fun y hrec hxy => ?_
    obtain ⟨d, hd, hinst⟩ := h.opens_inst hx hxy
    exact .inst h hd hrec hargs (fun k as z hlt hz has => ih _ hlt hz has rfl) hinst .refl

/-- Ways down that pass no recursive declaration come to an end. -/
theorem Based.grounded (h : Based a₀ decls a) (hx : a.Has x) : (ofDecls a₀ decls).Grounded a x := by
  induction hn : x.index using Nat.strong_induction_on generalizing x with
  | _ n ih =>
    subst hn
    obtain ⟨t, ht⟩ := has_iff.mp hx
    have parts : ∀ y ∈ t.children, (ofDecls a₀ decls).Grounded a y :=
      fun y hy => ih _ (h.sound.below ht y hy) (h.sound.has_child ht hy) rfl
    cases t with
    | named key args => exact .reference h ht parts
    | _ => exact .of_parts ht rfl parts

theorem descends_of_opens (h : TransGen (c.Opens a) x y)
    (hrec : ∀ key, c.Passes a x key → c.isRecursive key = false) : TransGen (c.Descends a) x y := by
  have step {x y : TyId} (hxy : c.Opens a x y)
      (hrec : ∀ key, c.Passes a x key → c.isRecursive key = false) : c.Descends a x y := by
    obtain ⟨key, args, hx, -⟩ := id hxy
    exact .inr ⟨hxy, key, args, hx, hrec key (.here hx)⟩
  induction h using TransGen.head_induction_on with
  | single hxy => exact .single (step hxy hrec)
  | head hxy _ ih => exact .head (step hxy hrec) (ih fun key hkey => hrec key (.next hxy hkey))

theorem descends_of_expands (h : c.Expands a x y) (hc : c.Over a) (ha : a.Sound)
    (hrec : ∀ key, c.Passes a x key → c.isRecursive key = false) : TransGen (c.Descends a) x y := by
  obtain ⟨ref, hres, hinside, -⟩ := h
  exact (descends_of_opens (hres.opens hc ha) hrec).trans_left
    (hinside.lift id fun _ _ h => .inl h)

theorem has_of_expands (h : c.Expands a x y) (hc : c.Over a) (ha : a.Sound) : a.Has x := by
  obtain ⟨ref, hres, -⟩ := h
  obtain ⟨z, ⟨key, args, hx, -⟩, -⟩ := TransGen.head'_iff.mp (hres.opens hc ha)
  exact has_of_term? hx

end Cycles

/-! ## Aliases that hide a cycle -/

namespace Hiding

def same : Key := ⟨"M", "same"⟩

def knot : Key := ⟨"M", "knot"⟩

def wrap : Key := ⟨"M", "wrap"⟩

def nest : Key := ⟨"M", "nest"⟩

def arena : Arena :=
  [.var 0, .named knot [], .named same [⟨6⟩], .record [⟨"f", ⟨7⟩, false, false⟩],
    .named nest [⟨5⟩], .array ⟨5⟩, .named wrap [⟨10⟩], .record [⟨"next", ⟨11⟩, false, false⟩],
    .named wrap [Scalar.int.id]].foldl (fun a t => (intern t a).2) .new

/-- `same<'a>` is `'a` and `knot` is `{f: same<knot>}`; `wrap<'a>` is `nest<'a>` and
`nest<'a>` is `{next: wrap<array<'a>>}`. -/
def decls : List Decl := [⟨same, 1, ⟨5⟩⟩, ⟨knot, 0, ⟨8⟩⟩, ⟨wrap, 1, ⟨9⟩⟩, ⟨nest, 1, ⟨12⟩⟩]

/-- The reference `same<knot>`. -/
def knotted : TyId := ⟨7⟩

/-- The reference `wrap<int>`. -/
def wrapped : TyId := ⟨13⟩

theorem built : arena.Built := by
  refine .intern (.intern (.intern (.intern (.intern (.intern (.intern (.intern (.intern .new
    ?_) ?_) ?_) ?_) ?_) ?_) ?_) ?_) ?_
  all_goals decide

theorem based : Based arena decls arena :=
  ⟨built, by decide, .refl _, built.sound⟩

theorem expands_knotted : (ofDecls arena decls).Expands arena knotted knotted :=
  ⟨⟨same, ⟨8⟩, false, true⟩, rfl, .single ⟨_, rfl, rfl, by decide⟩, rfl⟩

end Hiding

section Cycles

variable {a₀ : Arena} {decls : List Decl}

/-- On every cycle of expansions there is a reference whose alias steps pass a recursive
declaration. -/
theorem cycle_passes_recursive (h : Based a₀ decls a) {r : TyId}
    (hr : TransGen ((ofDecls a₀ decls).Expands a) r r) :
    ∃ s key, ReflTransGen ((ofDecls a₀ decls).Expands a) r s ∧
      ReflTransGen ((ofDecls a₀ decls).Expands a) s r ∧ (ofDecls a₀ decls).Passes a s key ∧
        (ofDecls a₀ decls).isRecursive key = true := by
  by_contra hnot
  have untagged {s : TyId} (hrs : ReflTransGen ((ofDecls a₀ decls).Expands a) r s)
      (hsr : ReflTransGen ((ofDecls a₀ decls).Expands a) s r) :
      ∀ key, (ofDecls a₀ decls).Passes a s key → (ofDecls a₀ decls).isRecursive key = false := by
    intro key hkey
    by_contra hrec
    exact hnot ⟨s, key, hrs, hsr, hkey, Bool.not_eq_false _ ▸ hrec⟩
  have down {s : TyId} (hrs : TransGen ((ofDecls a₀ decls).Expands a) r s) :
      ReflTransGen ((ofDecls a₀ decls).Expands a) s r →
        TransGen ((ofDecls a₀ decls).Descends a) r s := by
    induction hrs with
    | single hstep =>
        intro hback
        exact descends_of_expands hstep h.over h.sound (untagged .refl (.head hstep hback))
    | tail hrm hstep ih =>
        intro hback
        have mid := ReflTransGen.head hstep hback
        exact (ih mid).trans
          (descends_of_expands hstep h.over h.sound (untagged hrm.to_reflTransGen mid))
  obtain ⟨s, hrs, -⟩ := TransGen.head'_iff.mp hr
  exact (h.grounded (has_of_expands hrs h.over h.sound)).no_cycle (down hr .refl)

/-- The cycle of `same<knot>` passes `knot`, which is recursive. -/
theorem cycle_passes_recursive_knotted :
    ∃ s key, ReflTransGen ((ofDecls Hiding.arena Hiding.decls).Expands Hiding.arena)
        Hiding.knotted s ∧
      ReflTransGen ((ofDecls Hiding.arena Hiding.decls).Expands Hiding.arena) s Hiding.knotted ∧
        (ofDecls Hiding.arena Hiding.decls).Passes Hiding.arena s key ∧
          (ofDecls Hiding.arena Hiding.decls).isRecursive key = true :=
  cycle_passes_recursive Hiding.based (.single Hiding.expands_knotted)

/-- The alias that is referred to there is not. -/
example : (ofDecls Hiding.arena Hiding.decls).isRecursive Hiding.same = false := by
  decide +kernel

end Cycles

/-! ## Finitely many references -/

section Finite

variable {a₀ : Arena} {decls : List Decl} {n : Nat} {r s : TyId}

/-- An expansion of a reference whose alias steps pass regular declarations only. -/
def RegularlyExpands (c : Catalog) (a : Arena) (r s : TyId) : Prop :=
  (∀ key, c.Passes a r key → c.isRegular key = true) ∧ c.Expands a r s

/-- The references that are met from this one on, as long as all declarations that are
passed are regular. -/
def met (c : Catalog) (a : Arena) (r : TyId) : Set TyId :=
  {s | ReflTransGen (c.RegularlyExpands a) r s}

theorem has_of_met (hr : a.Has r) (hs : s ∈ c.met a r) : a.Has s := by
  rcases hs.cases_tail with rfl | ⟨_, -, -, _, -, -, href⟩
  · exact hr
  · exact has_of_isReference href

/-- Applying the declaration to these arguments needs nothing new. -/
def Stays (c : Catalog) (a : Arena) (key : Key) (args : List TyId) : Prop :=
  ∃ r, c.expand key args a = (r, a)

theorem Stays.later (hc : c.Over a) (ha : a.Sound) (hargs : ∀ v ∈ args, a.Has v)
    (h : c.Stays a key args) (hab : a.Within b) (hb : b.Sound) :
    ∃ r, c.expand key args a = (r, a) ∧ c.expand key args b = (r, b) := by
  obtain ⟨r, hr⟩ := h
  obtain ⟨r', a', hr', -⟩ := expand_tries hc ha hargs
  cases hr'.run.symm.trans hr
  exact ⟨r, hr, hr'.again hb hab⟩

/-- Regular declarations down to this rank stay where they are applied. -/
def ClosedFrom (a₀ : Arena) (decls : List Decl) (n : Nat) (a : Arena) : Prop :=
  ∀ x key args, a.term? x = some (.named key args) → (ofDecls a₀ decls).isRegular key = true →
    n ≤ rank a₀ decls key → (ofDecls a₀ decls).Stays a key args

/-- A declaration with arguments. -/
structure Application where
  decl : Decl
  args : List TyId

/-- One later arena has the instances of all these. What is new there are instances of
parts of the bodies. -/
theorem Based.applications (h : Based a₀ decls a) : ∀ {apps : List Application},
    (∀ j ∈ apps, j.decl ∈ decls ∧ ∀ v ∈ j.args, a.Has v) →
      ∃ b, a.Within b ∧ b.Sound ∧
        (∀ j ∈ apps, ∃ v, instantiate j.decl.body j.args b = (v, b)) ∧
        ∀ y, b.Has y → a.Has y ∨
          ∃ j ∈ apps, ∃ x, a₀.Contains j.decl.body x ∧ b.Inst j.args x y
  | [], _ => ⟨a, .refl a, h.sound, by simp, fun y hy => .inl hy⟩
  | j :: apps, happs => by
      obtain ⟨b, hab, hb, hdone, hnew⟩ := h.applications fun j hj =>
        happs j (List.mem_cons_of_mem _ hj)
      obtain ⟨hdecl, hargs⟩ := happs j (List.mem_cons_self ..)
      obtain ⟨v, d, hv, -, hadds⟩ := instantiate_inst h.built.sound h.built.marked
        (h.within.trans hab) hb (h.spans j.decl hdecl) fun v hv => hab.has (hargs v hv)
      refine ⟨d, hab.trans hv.within, hv.sound, fun i hi => ?_, fun y hy => ?_⟩
      · rcases List.mem_cons.mp hi with rfl | hi
        · exact ⟨v, hv.again hv.sound (.refl d)⟩
        · obtain ⟨w, hw⟩ := hdone i hi
          obtain ⟨hdecl, hargs⟩ := happs i (List.mem_cons_of_mem _ hi)
          obtain ⟨u, e, hu, -⟩ := instantiate_settles hb
            (hab.has (h.within.has (h.spans i.decl hdecl))) fun v hv => hab.has (hargs v hv)
          cases hu.run.symm.trans hw
          exact ⟨w, hu.again hv.sound hv.within⟩
      · rcases hadds y hy with hy | ⟨x, hx, hxy⟩
        · refine (hnew y hy).imp_right ?_
          rintro ⟨i, hi, x, hx, hxy⟩
          exact ⟨i, List.mem_cons_of_mem _ hi, x, hx, hxy.within hv.within⟩
        · exact .inr ⟨j, List.mem_cons_self .., x, hx, hxy⟩

theorem named_of_rebuild {t : Term} {ids : List TyId} (h : t.rebuild ids = .named key args) :
    ∃ ts, t = .named key ts ∧ ids = args := by
  cases t with
  | named k ts =>
      cases h
      exact ⟨ts, rfl, rfl⟩
  | _ => cases h

/-- A reference that is new in an instance of a regular declaration comes from a mention
in the body. If it is of the same rank, its arguments are not new. -/
theorem Based.new_reference (h : Based a₀ decls a) (hab : a.Within b) {d : Decl}
    (hd : lookup decls d.key = some d) (hreg : (ofDecls a₀ decls).isRegular d.key = true)
    {outer : List TyId} (houter : ∀ v ∈ outer, a.Has v) (hx : a₀.Contains d.body x)
    (hxy : b.Inst outer x y) (hy : b.term? y = some (.named key args)) (hnew : ¬a.Has y) :
    Uses a₀ decls d.key key ∧
      (rank a₀ decls d.key ≤ rank a₀ decls key → ∀ v ∈ args, a.Has v) := by
  have stored {z : TyId} (hz : a₀.Contains d.body z) : a.Has z :=
    h.within.has (hz.has h.built.sound (h.body hd))
  have argument (i : Nat) {z : TyId} (hz : a.Has z) : a.Has (outer[i]?.getD z) := by
    cases hi : outer[i]? with
    | none => exact hz
    | some v => exact houter v (List.mem_of_getElem? hi)
  cases hxy with
  | @var _ i ht =>
      exact absurd (argument i (stored hx)) hnew
  | @term _ _ t ids ht hvar hlen hparts hy' =>
      obtain ⟨ts, rfl, rfl⟩ := named_of_rebuild (Option.some.inj (hy'.symm.trans hy))
      have ht₀ : a₀.term? x = some (.named key ts) :=
        ((h.within.trans hab).term?_eq (hx.has h.built.sound (h.body hd))).symm.trans ht
      have uses : Uses a₀ decls d.key key := ⟨d, x, ts, hd, hx, ht₀⟩
      refine ⟨uses, fun hrank => ?_⟩
      -- There is a way back, so the mention is on a cycle.
      have back : ReflTransGen (Uses a₀ decls) key d.key := by
        by_contra hback
        exact absurd (rank_lt uses hback) (Nat.not_lt.mpr hrank)
      have bare := bare_of_regular h.built.sound h.built.marked hreg hd hx ht₀ back
      intro v hv
      rw [← List.map_snd_zip (Nat.le_of_eq hlen)] at hv
      obtain ⟨⟨u, v⟩, hp, rfl⟩ := List.mem_map.mp hv
      have hu : u ∈ ts := (List.of_mem_zip hp).1
      obtain ⟨i, hi⟩ := bare u hu
      have hbody : a₀.Contains d.body u := hx.tail ⟨_, ht₀, hu⟩
      exact ((hparts _ hp).of_var ((h.within.trans hab).term? hi)) ▸ argument i (stored hbody)

/-- All stored types. -/
def ids (a : Arena) : List TyId := (List.range a.size).map TyId.mk

theorem mem_ids : x ∈ ids a ↔ a.Has x := by
  rw [ids, List.mem_map]
  constructor
  · rintro ⟨i, hi, rfl⟩
    exact List.mem_range.mp hi
  · exact fun h => ⟨x.index, List.mem_range.mpr h, rfl⟩

/-- All lists of so many stored types. -/
def tuples (a : Arena) (n : Nat) : List (List TyId) := (List.replicate n (ids a)).sections

theorem mem_tuples : args ∈ tuples a n ↔ args.length = n ∧ ∀ v ∈ args, a.Has v := by
  rw [tuples, List.mem_sections]
  induction n generalizing args with
  | zero => cases args <;> simp
  | succ n ih =>
      cases args with
      | nil => simp
      | cons v args =>
          simp only [List.replicate_succ, List.forall₂_cons, ih, mem_ids, List.length_cons,
            List.forall_mem_cons, Nat.add_right_cancel_iff]
          tauto

/-- One rank more can be closed. -/
theorem Based.closed_step (h : Based a₀ decls a) (hclosed : ClosedFrom a₀ decls (n + 1) a) :
    ∃ b, a.Within b ∧ b.Sound ∧ ClosedFrom a₀ decls n b := by
  classical
  let ready := decls.filter fun d => decide (lookup decls d.key = some d ∧
    (ofDecls a₀ decls).isRegular d.key = true ∧ rank a₀ decls d.key = n)
  let apps := ready.flatMap fun d => (tuples a d.params).map (Application.mk d)
  have mem_apps (j : Application) :
      j ∈ apps ↔ j.decl ∈ ready ∧ j.args ∈ tuples a j.decl.params := by
    simp only [apps, List.mem_flatMap, List.mem_map]
    exact ⟨by rintro ⟨d, hd, args, hargs, rfl⟩; exact ⟨hd, hargs⟩,
      fun ⟨hd, hargs⟩ => ⟨j.decl, hd, j.args, hargs, rfl⟩⟩
  have mem_ready (d : Decl) : d ∈ ready ↔ d ∈ decls ∧ lookup decls d.key = some d ∧
      (ofDecls a₀ decls).isRegular d.key = true ∧ rank a₀ decls d.key = n := by
    simp [ready]
  have stored : ∀ j ∈ apps, j.decl ∈ decls ∧ ∀ v ∈ j.args, a.Has v := fun j hj =>
    ⟨((mem_ready _).mp ((mem_apps j).mp hj).1).1, (mem_tuples.mp ((mem_apps j).mp hj).2).2⟩
  obtain ⟨b, hab, hb, hdone, hnew⟩ := h.applications stored
  refine ⟨b, hab, hb, fun x key args hx hreg hrank => ?_⟩
  have same (hkey : rank a₀ decls key = n) (hargs : ∀ v ∈ args, a.Has v) :
      (ofDecls a₀ decls).Stays b key args := by
    by_cases hd : ∃ d, lookup decls key = some d ∧ args.length = d.params
    · obtain ⟨d, hd, hlen⟩ := hd
      obtain ⟨hmem, rfl⟩ := key_of_lookup hd
      obtain ⟨v, hv⟩ := hdone ⟨d, args⟩ ((mem_apps _).mpr
        ⟨(mem_ready d).mpr ⟨hmem, hd, hreg, hkey⟩, mem_tuples.mpr ⟨hlen, hargs⟩⟩)
      exact ⟨.ok v, expand_found hd hlen hv⟩
    · have fails : ∃ f, (ofDecls a₀ decls).expand key args b = (.error f, b) :=
        expand_fails fun d hd' hlen => hd ⟨d, hd', hlen⟩
      obtain ⟨f, hf⟩ := fails
      exact ⟨.error f, hf⟩
  by_cases hold : a.Has x
  · have hx' := (hab.term?_eq hold).symm.trans hx
    have hargs : ∀ v ∈ args, a.Has v := fun v hv => h.sound.has_child hx' hv
    rcases hrank.eq_or_lt with hkey | hlt
    · exact same hkey.symm hargs
    · obtain ⟨r, -, hr⟩ := (hclosed x key args hx' hreg hlt).later h.over h.sound hargs hab hb
      exact ⟨r, hr⟩
  · rcases hnew x (has_of_term? hx) with hx' | ⟨j, hj, z, hz, hzx⟩
    · exact absurd hx' hold
    · obtain ⟨hready, hargs⟩ := (mem_apps j).mp hj
      obtain ⟨-, hd, hreg', rfl⟩ := (mem_ready _).mp hready
      obtain ⟨uses, hold'⟩ := h.new_reference hab hd hreg' (mem_tuples.mp hargs).2 hz hzx hx hold
      exact same (Nat.le_antisymm (rank_mono uses) hrank) (hold' hrank)

/-- Some later arena has all that regular declarations need. -/
theorem Based.closes (h : Based a₀ decls a) :
    ∃ b, a.Within b ∧ b.Sound ∧ ClosedFrom a₀ decls 0 b := by
  suffices down : ∀ n, ∀ a, Based a₀ decls a → ClosedFrom a₀ decls n a →
      ∃ b, a.Within b ∧ b.Sound ∧ ClosedFrom a₀ decls 0 b by
    refine down (decls.length + 1) a h fun _ _ _ _ _ hrank => ?_
    exact absurd rank_le (Nat.not_le.mpr hrank)
  intro n
  induction n with
  | zero => exact fun a h hclosed => ⟨a, .refl a, h.sound, hclosed⟩
  | succ n ih =>
      intro a h hclosed
      obtain ⟨b, hab, hb, hclosed⟩ := h.closed_step hclosed
      obtain ⟨d, hbd, hd, hall⟩ := ih b (h.later hab hb) hclosed
      exact ⟨d, hab.trans hbd, hd, hall⟩

/-- A reference whose alias steps pass regular declarations resolves without anything
new. -/
theorem ClosedFrom.resolves (hclosed : ClosedFrom a₀ decls 0 a)
    (hreg : ∀ key, (ofDecls a₀ decls).Passes a x key → (ofDecls a₀ decls).isRegular key = true) :
    ∃ r, (ofDecls a₀ decls).Resolves a x r := by
  by_cases hn : ∃ key args, a.term? x = some (.named key args)
  · obtain ⟨key, args, hn⟩ := hn
    suffices all : ∀ (steps : Nat) (passed : List Key) {key : Key} {args : List TyId} {y : TyId},
        a.term? y = some (.named key args) →
        (∀ k, (ofDecls a₀ decls).Passes a y k → (ofDecls a₀ decls).isRegular k = true) →
        ∃ r, (ofDecls a₀ decls).follow x steps passed key args a = (r, a) by
      obtain ⟨r, hr⟩ := all ((ofDecls a₀ decls).size + 1) [] hn hreg
      cases r with
      | error f => exact ⟨_, (resolve_named hn).trans (ArenaM.bind_error hr)⟩
      | ok node => exact ⟨_, (resolve_named hn).trans (ArenaM.bind_ok hr)⟩
    clear hn hreg
    intro steps
    induction steps with
    | zero => exact fun _ _ _ _ _ _ => ⟨_, follow_spent⟩
    | succ steps ih =>
        intro passed key args y hy hreg
        by_cases hp : key ∈ passed
        · exact ⟨_, follow_passed hp⟩
        obtain ⟨r, hr⟩ := hclosed y key args hy (hreg key (.here hy)) (Nat.zero_le _)
        cases r with
        | error f => exact ⟨_, follow_stops hp hr⟩
        | ok node =>
            by_cases hn : ∃ next nextArgs, a.term? node = some (.named next nextArgs)
            · obtain ⟨next, nextArgs, hn⟩ := hn
              rw [follow_goes hp hr hn]
              exact ih _ hn fun k hk => hreg k (.next ⟨key, args, hy, hr⟩ hk)
            · exact ⟨_, follow_ends hp hr fun k as hk => hn ⟨k, as, hk⟩⟩
  · exact ⟨_, resolve_unnamed fun key args hk => hn ⟨key, args, hk⟩⟩

section Later

variable (h : Based a₀ decls a) (hab : a.Within b) (hb : b.Sound)
include h hab hb

theorem Based.opens_later (hxy : (ofDecls a₀ decls).Opens a x y) :
    (ofDecls a₀ decls).Opens b x y := by
  obtain ⟨key, args, hx, hexpand⟩ := hxy
  obtain ⟨r, hr, hr'⟩ := Stays.later h.over h.sound (fun v hv => h.sound.has_child hx hv)
    ⟨_, hexpand⟩ hab hb
  cases hr.symm.trans hexpand
  exact ⟨key, args, hab.term? hx, hr'⟩

theorem Based.passes_later (hx : (ofDecls a₀ decls).Passes a x key) :
    (ofDecls a₀ decls).Passes b x key := by
  induction hx with
  | here hx => exact .here (hab.term? hx)
  | next hxy _ ih => exact .next (h.opens_later hab hb hxy) ih

variable (hclosed : ClosedFrom a₀ decls 0 a)
include hclosed

/-- In later arenas, nothing else is passed. -/
theorem Based.passes_closed (hpass : (ofDecls a₀ decls).Passes b x key) : a.Has x →
    (∀ k, (ofDecls a₀ decls).Passes a x k → (ofDecls a₀ decls).isRegular k = true) →
      (ofDecls a₀ decls).Passes a x key := by
  induction hpass with
  | here hx => exact fun hxa _ => .here ((hab.term?_eq hxa).symm.trans hx)
  | next hxy _ ih =>
      intro hxa hreg
      obtain ⟨key, args, hx, hexpand⟩ := hxy
      have hx' := (hab.term?_eq hxa).symm.trans hx
      have hargs : ∀ v ∈ args, a.Has v := fun v hv => h.sound.has_child hx' hv
      obtain ⟨r, hr, hr'⟩ := (hclosed _ key args hx' (hreg key (.here hx')) (Nat.zero_le _)).later
        h.over h.sound hargs hab hb
      cases hr'.symm.trans hexpand
      have hopens : (ofDecls a₀ decls).Opens a _ _ := ⟨key, args, hx', hr⟩
      obtain ⟨_, _, hstays, hhas⟩ := expand_tries h.over h.sound hargs
      cases hstays.run.symm.trans hr
      exact .next hopens (ih (hhas _ rfl) fun k hk => hreg k (.next hopens hk))

/-- In later arenas, a stored reference has the same expansions. -/
theorem Based.regularlyExpands_iff (hx : a.Has x) :
    (ofDecls a₀ decls).RegularlyExpands b x y ↔ (ofDecls a₀ decls).RegularlyExpands a x y := by
  have target {ref : Referent} (hres : (ofDecls a₀ decls).Resolves a x (.ok ref)) :
      a.Has ref.node ∧ (ofDecls a₀ decls).Resolves b x (.ok ref) := by
    obtain ⟨r, a', hr, hended⟩ := resolve_tries h.over h.sound hx
    cases hr.run.symm.trans hres
    exact ⟨(hended ref rfl).1, hr.again hb hab⟩
  constructor
  · rintro ⟨hreg, ref, hres, hinside, href⟩
    have hreg' : ∀ k, (ofDecls a₀ decls).Passes a x k → (ofDecls a₀ decls).isRegular k = true :=
      fun k hk => hreg k (h.passes_later hab hb hk)
    obtain ⟨r, hr⟩ := hclosed.resolves hreg'
    cases r with
    | error f =>
        obtain ⟨r, a', hr', -⟩ := resolve_tries h.over h.sound hx
        cases hr'.run.symm.trans hr
        cases (hr'.again hb hab).symm.trans hres
    | ok ref' =>
        obtain ⟨hnode, hr'⟩ := target hr
        cases hr'.unique hres
        obtain ⟨hy, hinside⟩ := inside_of_later h.sound hab hnode hinside
        exact ⟨hreg', ref, hr, hinside, isReference_within hab hy ▸ href⟩
  · rintro ⟨hreg, ref, hres, hinside, href⟩
    obtain ⟨hnode, hres'⟩ := target hres
    have hinside' := inside_later hab hinside
    obtain ⟨hy, -⟩ := inside_of_later h.sound hab hnode hinside'
    exact ⟨fun k hk => hreg k (h.passes_closed hab hb hclosed hk hx hreg), ref, hres', hinside',
      (isReference_within hab hy).trans href⟩

/-- In later arenas, the same is met from a stored reference. -/
theorem Based.met_closed (hr : a.Has r) :
    (ofDecls a₀ decls).met b r = (ofDecls a₀ decls).met a r := by
  ext s
  constructor
  · intro hs
    induction hs with
    | refl => exact ReflTransGen.refl
    | tail _ hstep ih =>
        exact ih.tail ((h.regularlyExpands_iff hab hb hclosed (has_of_met hr ih)).mp hstep)
  · intro hs
    induction hs with
    | refl => exact ReflTransGen.refl
    | tail hs hstep ih =>
        exact ih.tail ((h.regularlyExpands_iff hab hb hclosed (has_of_met hr hs)).mpr hstep)

end Later

/-- From a reference on, only finitely many others are met in all later arenas, if
expansion stops where an irregular declaration is passed. -/
theorem expands_finitely (h : Based a₀ decls a) :
    ∃ b, a.Within b ∧ b.Sound ∧ ∀ r, b.Has r → ((ofDecls a₀ decls).met b r).Finite ∧
      ∀ d, b.Within d → d.Sound → (ofDecls a₀ decls).met d r = (ofDecls a₀ decls).met b r := by
  obtain ⟨b, hab, hb, hclosed⟩ := h.closes
  refine ⟨b, hab, hb, fun r hr => ⟨?_, fun d hbd hd => ?_⟩⟩
  · exact (List.finite_toSet (ids b)).subset fun s hs => mem_ids.mpr (has_of_met hr hs)
  · exact (h.later hab hb).met_closed hbd hd hclosed hr

/-- What is met from `wrap<int>` on comes to an end, as `wrap` passes `nest`. -/
theorem expands_finitely_wrapped : ∃ b, Hiding.arena.Within b ∧ b.Sound ∧ ∀ r, b.Has r →
    ((ofDecls Hiding.arena Hiding.decls).met b r).Finite ∧
      ∀ d, b.Within d → d.Sound → (ofDecls Hiding.arena Hiding.decls).met d r =
        (ofDecls Hiding.arena Hiding.decls).met b r :=
  expands_finitely Hiding.based

/-- The alias itself counts as regular. -/
example : (ofDecls Hiding.arena Hiding.decls).isRegular Hiding.wrap = true ∧
    (ofDecls Hiding.arena Hiding.decls).isRegular Hiding.nest = false := by
  decide +kernel

end Finite

end Catalog

end Marshal
