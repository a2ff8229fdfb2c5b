import Marshal.Proofs.Aliases
import Marshal.Proofs.Pruning

/-!
# Substitution composes

To put arguments into a body and then further arguments into the result comes to the same
as to put the further arguments into the first ones and these into the body, as long as
the first ones are as many as the body has parameters. Beyond them a parameter would stay
free in the first case until the further arguments meet it.

Both computations intern as they go, so there is no one arena in which both results can be
read off. They agree in the sense that the second finds the id that the first has handed
out, in whichever order they run and whatever else is interned in between (`Agree`). What
each of them comes to is said by instances, which later arenas keep, and a sound arena has
one instance at most (`Inst.unique`). The law itself is `Inst.through`, by induction on the
body.

Alias steps are such substitutions one after the other. Declarations that are aliases of
each other compose to one declaration (`Composes`), and following them step by step comes
to the instance of its body (`Composes.chain`).
-/

namespace Marshal

namespace Arena

variable {a b c : Arena} {args as bs cs : List TyId} {body x y z : TyId} {t : Term} {n : Nat}

/-! ## Parameters in scope -/

/-- The parameters in a type all lie below `n`. -/
def Scoped (a : Arena) (n : Nat) (x : TyId) : Prop :=
  ∀ y i, a.Contains x y → a.term? y = some (.var i) → i < n

theorem Scoped.child (h : a.Scoped n x) (ht : a.term? x = some t) (hy : y ∈ t.children) :
    a.Scoped n y :=
  fun _ i hz hi => h _ i (.child ht hy hz) hi

theorem Scoped.within (ha : a.Sound) (hab : a.Within b) (hx : a.Has x) (h : a.Scoped n x) :
    b.Scoped n x := by
  intro y i hy hi
  have hy := hy.of_within ha hab hx
  rw [hab.term?_eq (hy.has ha hx)] at hi
  exact h y i hy hi

/-- The parameters in a type, looked at one after the other, all lie below `n`. -/
def scopes (a : Arena) (n : Nat) (x : TyId) : Bool :=
  (a.preorder (x.index + 1) x).all fun y =>
    match a.term? y with
    | some (.var i) => decide (i < n)
    | _ => true

theorem scoped_of_scopes (ha : a.Sound) (h : a.scopes n x = true) : a.Scoped n x := by
  intro y i hy hi
  have here := List.all_eq_true.mp h y (mem_preorder_of_contains ha (Nat.lt_succ_self _) hy)
  rw [hi] at here
  exact of_decide_eq_true here

theorem isVar_rebuild (t : Term) (ids : List TyId) : (t.rebuild ids).isVar = t.isVar := by
  cases t <;> rfl

/-- An instance has no parameters but those of the arguments. -/
theorem Inst.scoped (h : a.Inst args x y) :
    a.Scoped args.length x → (∀ v ∈ args, a.Scoped n v) → a.Scoped n y := by
  induction h with
  | @var x i ht =>
      intro hx hargs
      have hi := hx x i .refl ht
      rw [List.getElem?_eq_getElem hi]
      exact hargs _ (List.getElem_mem hi)
  | @term x y t ids ht hvar hlen _ hy ih =>
      intro hx hargs z i hz hi
      rcases hz.cases with rfl | ⟨u, hu, v, hv, hz⟩
      · have kept := isVar_rebuild t ids
        rw [Option.some.inj (hy.symm.trans hi), hvar] at kept
        cases kept
      · cases hy.symm.trans hu
        rw [Term.children_rebuild t ids hlen, ← List.map_snd_zip (Nat.le_of_eq hlen)] at hv
        obtain ⟨p, hp, rfl⟩ := List.mem_map.mp hv
        exact ih p hp (hx.child ht (List.of_mem_zip hp).1) hargs z i hz hi

/-! ## Instances of instances -/

theorem Inst.has (h : a.Inst args x y) (hargs : ∀ v ∈ args, a.Has v) : a.Has y := by
  cases h with
  | @var _ i ht =>
      cases hi : args[i]? with
      | none => exact has_of_term? ht
      | some v => exact hargs v (List.mem_of_getElem? hi)
  | term _ _ _ _ hy => exact has_of_term? hy

theorem eq_of_zip : ∀ {l m r : List TyId}, m.length = l.length → r.length = l.length →
    (∀ p ∈ l.zip m, ∀ z, (p.1, z) ∈ l.zip r → p.2 = z) → m = r
  | [], [], [], _, _, _ => rfl
  | x :: l, y :: m, z :: r, hm, hr, h => by
      have first : y = z := h (x, y) (List.mem_cons_self ..) z (List.mem_cons_self ..)
      have rest : m = r := eq_of_zip (Nat.succ.inj hm) (Nat.succ.inj hr) fun p hp z hz =>
        h p (List.mem_cons_of_mem _ hp) z (List.mem_cons_of_mem _ hz)
      rw [first, rest]

/-- A type has one instance at most. -/
theorem Inst.unique (ha : a.Sound) (h : a.Inst args x y) :
    ∀ {z : TyId}, a.Inst args x z → y = z := by
  induction h with
  | var ht => exact fun h => (h.of_var ht).symm
  | @term x y t ids ht hvar hlen _ hy ih =>
      intro z h
      cases h with
      | var ht' =>
          cases ht.symm.trans ht'
          cases hvar
      | @term _ _ _ ids' ht' _ hlen' hparts hz =>
          cases ht.symm.trans ht'
          have same : ids = ids' := eq_of_zip hlen hlen' fun p hp z hz => ih p hp (hparts _ hz)
          rw [← same] at hz
          exact ha.unique hy hz

/-- What stands in two lists at one place stands beside one member of a third. -/
theorem exists_beside {l m r : List TyId} (hm : m.length = l.length) {p : TyId × TyId}
    (hp : p ∈ m.zip r) (hr : r.length = l.length) :
    ∃ u, (u, p.1) ∈ l.zip m ∧ (u, p.2) ∈ l.zip r := by
  obtain ⟨i, hi, rfl⟩ := List.mem_iff_getElem.mp hp
  have hil : i < l.length := by
    rw [List.length_zip] at hi
    omega
  rw [List.getElem_zip]
  refine ⟨l[i], List.mem_iff_getElem?.mpr ⟨i, ?_⟩, List.mem_iff_getElem?.mpr ⟨i, ?_⟩⟩ <;>
    simp [List.getElem?_zip_eq_some]

/-- The instance for some arguments has, for further ones, the instance that the body has
for the instances of the arguments. -/
theorem Inst.through (hxy : a.Inst as x y) (hlen : cs.length = as.length)
    (hcs : ∀ p ∈ as.zip cs, a.Inst bs p.1 p.2) :
    ∀ {z : TyId}, a.Scoped as.length x → a.Inst cs x z → a.Inst bs y z := by
  induction hxy with
  | @var x i ht =>
      intro z hx hxz
      have hi := hx x i .refl ht
      rw [hxz.of_var ht, List.getElem?_eq_getElem hi, List.getElem?_eq_getElem (hlen ▸ hi)]
      refine hcs (as[i], cs[i]) (List.mem_iff_getElem?.mpr ⟨i, ?_⟩)
      simp [List.getElem?_zip_eq_some]
  | @term x y t ids ht hvar hids _ hy ih =>
      intro z hx hxz
      cases hxz with
      | var ht' =>
          cases ht.symm.trans ht'
          cases hvar
      | @term _ _ _ ids' ht' _ hids' hparts hz =>
          cases ht.symm.trans ht'
          have children := Term.children_rebuild t ids hids
          have length_eq : ids'.length = (t.rebuild ids).children.length := by
            rw [children, hids', hids]
          refine .term hy ((isVar_rebuild t ids).trans hvar) length_eq (fun p hp => ?_)
            (Term.rebuild_rebuild t ids ids' hids' ▸ hz)
          rw [children] at hp
          obtain ⟨u, hup, hup'⟩ := exists_beside hids hp hids'
          exact ih (u, p.1) hup (hx.child ht (List.of_mem_zip hup).1) (hparts _ hup')

/-! ## Arenas that interning leads to -/

/-- Some calls lead from the first arena to the second. -/
def Later (a b : Arena) : Prop := ∃ calls, Interns a calls b

theorem Later.refl (a : Arena) : a.Later a := ⟨[], .done⟩

theorem Later.trans (h : a.Later b) (h' : b.Later c) : a.Later c := by
  obtain ⟨calls, h⟩ := h
  obtain ⟨more, h'⟩ := h'
  exact ⟨calls ++ more, h.append h'⟩

theorem Later.sound (h : a.Later b) (ha : a.Sound) : b.Sound := h.choose_spec.sound ha

theorem Later.marked (h : a.Later b) (ha : a.Sound) (hm : a.Marked) : b.Marked :=
  h.choose_spec.marked ha hm

theorem Later.within (h : a.Later b) (ha : a.Sound) : a.Within b := h.choose_spec.within ha

/-- The computations hand out one id, whichever runs first and whatever is interned before
the other runs. -/
def Agree (f g : StateM Arena TyId) (a : Arena) : Prop :=
  (∀ b, (f a).2.Later b → (g b).1 = (f a).1) ∧ ∀ b, (g a).2.Later b → (f b).1 = (g a).1

/-- Computations agree if what they say of their results is kept by later arenas, and both
is true of one type only. -/
theorem agree_of {f g : StateM Arena TyId} {P Q : Arena → TyId → Prop} (ha : a.Sound)
    (hf : ∀ b, a.Later b → b.Later (f b).2 ∧ P (f b).2 (f b).1)
    (hg : ∀ b, a.Later b → b.Later (g b).2 ∧ Q (g b).2 (g b).1)
    (hP : ∀ {b c v}, b.Within c → P b v → P c v) (hQ : ∀ {b c v}, b.Within c → Q b v → Q c v)
    (h : ∀ b v w, a.Later b → P b v → Q b w → v = w) : Agree f g a := by
  constructor
  · intro b hb
    obtain ⟨hfirst, hv⟩ := hf a (.refl a)
    obtain ⟨hthen, hw⟩ := hg b (hfirst.trans hb)
    have rest := (hb.trans hthen).within (hfirst.sound ha)
    exact (h _ _ _ (hfirst.trans (hb.trans hthen)) (hP rest hv) hw).symm
  · intro b hb
    obtain ⟨hfirst, hw⟩ := hg a (.refl a)
    obtain ⟨hthen, hv⟩ := hf b (hfirst.trans hb)
    have rest := (hb.trans hthen).within (hfirst.sound ha)
    exact h _ _ _ (hfirst.trans (hb.trans hthen)) hv (hQ rest hw)

/-! ## Instantiating -/

section Built

variable (ha : a.Sound) (hm : a.Marked)
include ha hm

theorem instantiate_spec (hx : a.Has x) (hargs : ∀ v ∈ args, a.Has v)
    (h : instantiate x args a = (y, b)) : a.Later b ∧ b.Inst args x y := by
  obtain ⟨calls, hcalls, -⟩ := instantiate_fills ha hx hargs
  obtain ⟨v, c, hv, hinst, -⟩ := instantiate_inst ha hm (.refl a) ha hx hargs
  cases hv.run.symm.trans h
  rw [h] at hcalls
  exact ⟨⟨calls, hcalls⟩, hinst⟩

/-- An instance that is stored is found. -/
theorem instantiate_of_inst (hx : a.Has x) (hargs : ∀ v ∈ args, a.Has v)
    (h : a.Inst args x y) : instantiate x args a = (y, a) :=
  (instantiate_eq_refill ha hm hx hargs (Nat.lt_succ_self _)).trans
    (refill_of_inst ha h (Nat.lt_succ_self _))

/-- With its own parameters for arguments, as many as they may be, a type is itself. -/
theorem instantiate_own (hx : a.Has x)
    (h : ∀ i v, args[i]? = some v → a.term? v = some (.var i)) :
    instantiate x args a = (x, a) := by
  have hargs : ∀ v ∈ args, a.Has v := fun v hv => by
    obtain ⟨i, hi⟩ := List.mem_iff_getElem?.mp hv
    exact has_of_term? (h i v hi)
  refine instantiate_of_inst ha hm hx hargs (inst_of_fixed ha hx fun y i _ ht => ?_)
  cases hi : args[i]? with
  | none => rfl
  | some v => exact ha.unique (h i v hi) ht

end Built

theorem mapM_instantiate : ∀ {l : List TyId} {a : Arena}, a.Sound → a.Marked →
    (∀ x ∈ l, a.Has x) → (∀ v ∈ args, a.Has v) →
    ∃ ids b, l.mapM (fun x => instantiate x args) a = (ids, b) ∧ a.Later b ∧
      ids.length = l.length ∧ ∀ p ∈ l.zip ids, b.Inst args p.1 p.2
  | [], a, _, _, _, _ => ⟨[], a, rfl, .refl a, rfl, by simp⟩
  | x :: l, a, ha, hm, hl, hargs => by
      rcases hx : instantiate x args a with ⟨y, b⟩
      obtain ⟨hab, hinst⟩ := instantiate_spec ha hm (hl x (List.mem_cons_self ..)) hargs hx
      have stored {u : TyId} (hu : a.Has u) : b.Has u := (hab.within ha).has hu
      obtain ⟨ids, c, hids, hbc, hlen, hparts⟩ := mapM_instantiate (l := l) (hab.sound ha)
        (hab.marked ha hm) (fun u hu => stored (hl u (List.mem_cons_of_mem _ hu)))
        fun v hv => stored (hargs v hv)
      refine ⟨y :: ids, c, ?_, hab.trans hbc, congrArg Nat.succ hlen, fun p hp => ?_⟩
      · rw [List.mapM_cons, bind_of_run hx, bind_of_run hids]
        rfl
      · rcases List.mem_cons.mp hp with rfl | hp
        · exact hinst.within (hbc.within (hab.sound ha))
        · exact hparts p hp

/-! ## Twice or at once -/

/-- Arguments put into the body, and further ones into the result. -/
def instantiateTwice (body : TyId) (as bs : List TyId) : StateM Arena TyId := do
  let once ← instantiate body as
  instantiate once bs

/-- The further arguments put into the first ones, and these into the body. -/
def instantiateOnce (body : TyId) (as bs : List TyId) : StateM Arena TyId := do
  let args ← as.mapM fun v => instantiate v bs
  instantiate body args

/-- An instance of an instance of the body. -/
def Twice (a : Arena) (as bs : List TyId) (body z : TyId) : Prop :=
  ∃ y, a.Inst as body y ∧ a.Inst bs y z

/-- An instance of the body for instances of the arguments. -/
def Once (a : Arena) (as bs : List TyId) (body z : TyId) : Prop :=
  ∃ cs, cs.length = as.length ∧ (∀ p ∈ as.zip cs, a.Inst bs p.1 p.2) ∧ a.Inst cs body z

theorem Twice.within (hab : a.Within b) : a.Twice as bs body z → b.Twice as bs body z
  | ⟨y, hy, hz⟩ => ⟨y, hy.within hab, hz.within hab⟩

theorem Once.within (hab : a.Within b) : a.Once as bs body z → b.Once as bs body z
  | ⟨cs, hlen, hcs, hz⟩ => ⟨cs, hlen, fun p hp => (hcs p hp).within hab, hz.within hab⟩

theorem Twice.eq_once (ha : a.Sound) (hbody : a.Scoped as.length body)
    (h : a.Twice as bs body y) (h' : a.Once as bs body z) : y = z := by
  obtain ⟨x, hx, hxy⟩ := h
  obtain ⟨cs, hlen, hcs, hz⟩ := h'
  exact hxy.unique ha (hx.through hlen hcs hbody hz)

section Built

variable (ha : a.Sound) (hm : a.Marked) (hbody : a.Has body) (has : ∀ v ∈ as, a.Has v)
  (hbs : ∀ v ∈ bs, a.Has v)
include ha hm hbody has hbs

theorem instantiateTwice_spec : a.Later (instantiateTwice body as bs a).2 ∧
    (instantiateTwice body as bs a).2.Twice as bs body (instantiateTwice body as bs a).1 := by
  rcases hy : instantiate body as a with ⟨y, b⟩
  obtain ⟨hab, hinst⟩ := instantiate_spec ha hm hbody has hy
  have stored {u : TyId} (hu : a.Has u) : b.Has u := (hab.within ha).has hu
  have hyb : b.Has y := hinst.has fun v hv => stored (has v hv)
  rw [instantiateTwice, bind_of_run hy]
  obtain ⟨hbc, hinst'⟩ := instantiate_spec (hab.sound ha) (hab.marked ha hm) hyb
    (fun v hv => stored (hbs v hv)) rfl
  exact ⟨hab.trans hbc, y, hinst.within (hbc.within (hab.sound ha)), hinst'⟩

theorem instantiateOnce_spec : a.Later (instantiateOnce body as bs a).2 ∧
    (instantiateOnce body as bs a).2.Once as bs body (instantiateOnce body as bs a).1 := by
  obtain ⟨cs, b, hcs, hab, hlen, hparts⟩ := mapM_instantiate ha hm has hbs
  have stored {u : TyId} (hu : a.Has u) : b.Has u := (hab.within ha).has hu
  have hcsb : ∀ v ∈ cs, b.Has v := by
    intro v hv
    rw [← List.map_snd_zip (Nat.le_of_eq hlen)] at hv
    obtain ⟨p, hp, rfl⟩ := List.mem_map.mp hv
    exact (hparts p hp).has fun v hv => stored (hbs v hv)
  rw [instantiateOnce, bind_of_run hcs]
  obtain ⟨hbc, hinst⟩ := instantiate_spec (hab.sound ha) (hab.marked ha hm) (stored hbody) hcsb rfl
  have later := hbc.within (hab.sound ha)
  exact ⟨hab.trans hbc, cs, hlen, fun p hp => (hparts p hp).within later, hinst⟩

theorem twice_agrees_once (hscope : a.Scoped as.length body) :
    Agree (instantiateTwice body as bs) (instantiateOnce body as bs) a := by
  have stored {b : Arena} (hb : a.Later b) {u : TyId} (hu : a.Has u) : b.Has u :=
    (hb.within ha).has hu
  refine agree_of (P := fun b => b.Twice as bs body) (Q := fun b => b.Once as bs body) ha
    (fun b hb => ?_) (fun b hb => ?_) Twice.within Once.within fun b v w hb hv hw => ?_
  · exact instantiateTwice_spec (hb.sound ha) (hb.marked ha hm) (stored hb hbody)
      (fun v hv => stored hb (has v hv)) fun v hv => stored hb (hbs v hv)
  · exact instantiateOnce_spec (hb.sound ha) (hb.marked ha hm) (stored hb hbody)
      (fun v hv => stored hb (has v hv)) fun v hv => stored hb (hbs v hv)
  · exact hv.eq_once (hb.sound ha) (hscope.within ha (hb.within ha) hbody) hw

end Built

end Arena

/-! ## Aliases of aliases -/

namespace Catalog

open Arena

variable {c : Catalog} {a b b' : Arena} {x y : TyId} {key next : Key} {keys : List Key}
  {args : List TyId} {d e : Decl}

/-- The declarations, each an alias of the next one, as one declaration: into its body goes
what the first one applies the second to. The instances may be new in the arena. -/
inductive Composes (c : Catalog) (a : Arena) : List Key → Arena → Decl → Prop
  | one {key : Key} {d : Decl} : c.find? key = some d → Composes c a [key] a d
  | onto {b b' : Arena} {key next : Key} {keys : List Key} {args : List TyId} {d e : Decl}
      {body : TyId} : c.find? key = some d → a.term? d.body = some (.named next args) →
      Composes c a (next :: keys) b e → args.length = e.params →
      instantiate e.body args b = (body, b') →
      Composes c a (key :: next :: keys) b' ⟨key, d.params, body⟩

/-- The bodies are stored, and have only the parameters that are declared. -/
def Scoped (c : Catalog) (a : Arena) : Prop :=
  ∀ d ∈ c.decls, a.Has d.body ∧ a.Scoped d.params d.body

/-- An instance of a reference refers to the same declaration. -/
theorem inst_of_named (h : a.Inst args x y) {ts : List TyId}
    (hx : a.term? x = some (.named key ts)) :
    ∃ ids, a.term? y = some (.named key ids) ∧ ids.length = ts.length ∧
      ∀ p ∈ ts.zip ids, a.Inst args p.1 p.2 := by
  cases h with
  | var ht => cases hx.symm.trans ht
  | @term _ _ _ ids ht _ hlen hparts hy =>
      cases hx.symm.trans ht
      exact ⟨ids, hy, hlen, hparts⟩

theorem Scoped.found (hc : c.Scoped a) (ha : a.Sound) (hd : c.find? key = some d)
    (hb : a.Later b) : b.Has d.body ∧ b.Scoped d.params d.body := by
  obtain ⟨hbody, hscope⟩ := hc d (key_of_lookup hd).1
  exact ⟨(hb.within ha).has hbody, hscope.within ha (hb.within ha) hbody⟩

section Built

variable (ha : a.Sound) (hm : a.Marked) (hc : c.Scoped a)
include ha hm hc

/-- The composed declaration is in order like those that it is made of. -/
theorem Composes.spec (h : c.Composes a keys b e) :
    a.Later b ∧ b.Has e.body ∧ b.Scoped e.params e.body := by
  induction h with
  | one hd => exact ⟨.refl _, hc.found ha hd (.refl _)⟩
  | @onto b b' key next keys args d e body hd hbody _ hlen hrun ih =>
      obtain ⟨hab, hstored, hscope⟩ := ih
      obtain ⟨hdbody, hdscope⟩ := hc.found ha hd (.refl a)
      have hargs : ∀ v ∈ args, a.Has v := fun v hv => ha.has_child hbody hv
      obtain ⟨hbb, hinst⟩ := instantiate_spec (hab.sound ha) (hab.marked ha hm) hstored
        (fun v hv => (hab.within ha).has (hargs v hv)) hrun
      have hab' := hab.trans hbb
      refine ⟨hab', hinst.has fun v hv => (hab'.within ha).has (hargs v hv), ?_⟩
      refine hinst.scoped ?_ fun v hv => ?_
      · rw [hlen]
        exact hscope.within (hab.sound ha) (hbb.within (hab.sound ha)) hstored
      · exact (hdscope.child hbody hv).within ha (hab'.within ha) (hargs v hv)

/-- A reference to the first declaration is followed, step by step, to the instance of the
composed body. -/
theorem Composes.chain (h : c.Composes a keys b e) :
    ∀ {b' : Arena} {x : TyId} {key : Key} {rest : List Key} {args : List TyId},
      keys = key :: rest → b.Later b' → b'.term? x = some (.named key args) →
      args.length = e.params →
      ∃ y d, c.Chain b' x keys d y ∧ b'.Later d ∧ d.Inst args e.body y := by
  induction h with
  | @one key d hd =>
      rintro b x _ _ args ⟨⟩ hab hx hlen
      obtain ⟨hstored, -⟩ := hc.found ha hd hab
      have hb := hab.sound ha
      have harg : ∀ v ∈ args, b.Has v := fun v hv => hb.has_child hx hv
      rcases hrun : instantiate d.body args b with ⟨y, b'⟩
      obtain ⟨hbb, hinst⟩ := instantiate_spec hb (hab.marked ha hm) hstored harg hrun
      exact ⟨y, b', .head ⟨args, d, hx, hd, hlen, hrun⟩ .refl, hbb, hinst⟩
  | @onto b b₁ key next keys inner d e body hd hbody hcomposes hlen hrun ih =>
      rintro b' x _ _ args ⟨⟩ hbb' hx hargs
      obtain ⟨hab, hstored, hscope⟩ := hcomposes.spec ha hm hc
      have hb := hab.sound ha
      have hinner : ∀ v ∈ inner, b.Has v := fun v hv =>
        (hab.within ha).has (ha.has_child hbody hv)
      obtain ⟨hbb₁, hinst⟩ := instantiate_spec hb (hab.marked ha hm) hstored hinner hrun
      -- The first step leads to a reference to the next declaration.
      have hab' := hab.trans (hbb₁.trans hbb')
      have hb' := hab'.sound ha
      have harg : ∀ v ∈ args, b'.Has v := fun v hv => hb'.has_child hx hv
      rcases hstep : instantiate d.body args b' with ⟨x', b''⟩
      obtain ⟨hbb'', hx'⟩ := instantiate_spec hb' (hab'.marked ha hm)
        (hc.found ha hd hab').1 harg hstep
      obtain ⟨ids, hnamed, hids, hparts⟩ := inst_of_named hx'
        (((hab'.trans hbb'').within ha).term? hbody)
      obtain ⟨y, f, hchain, hf, hy⟩ := ih rfl ((hbb₁.trans hbb').trans hbb'') hnamed
        (hids.trans hlen)
      -- From there the rest comes to the instance for the instances of the arguments.
      have hfrom := hf.within (hbb''.sound hb')
      have hto := ((hbb'.trans hbb'').trans hf).within (hbb₁.sound hb)
      refine ⟨y, f, .head ⟨args, d, hx, hd, hargs, hstep⟩ hchain, hbb''.trans hf, ?_⟩
      refine (hinst.within hto).through hids (fun p hp => (hparts p hp).within hfrom) ?_ hy
      rw [hlen]
      exact hscope.within hb ((hbb₁.within hb).trans hto) hstored

end Built

/-- Where it runs into no declaration for the second time, resolving comes to what the
chain comes to. -/
theorem Chain.resolve (h : c.Chain a x keys b y) (hx : a.term? x = some (.named key args))
    (hkeys : keys.Nodup) (hend : b.isReference y = false) :
    c.resolve x a = (.ok ⟨key, y, c.isRecursive key, c.isRegular key⟩, b) :=
  (resolve_ok_iff hx).mpr
    ⟨rfl, (follow_iff hx).mpr ⟨keys, y, h, hkeys, stops_ok_iff.mpr ⟨rfl, hend⟩⟩⟩

/-- Instantiating twice is instantiating once with instances for arguments, a body's own
parameters put into it give the body, and a chain of aliases comes to the instance of the
composed declaration, whether that is made before the chain is followed or after it. -/
theorem substitution_composes {calls : List (Term × TyId)} (h : Interns .new calls a) :
    (∀ body as bs, a.Has body → (∀ v ∈ as, a.Has v) → (∀ v ∈ bs, a.Has v) →
      a.Scoped as.length body →
        Agree (instantiateTwice body as bs) (instantiateOnce body as bs) a) ∧
    (∀ body vs, a.Has body → (∀ i v, vs[i]? = some v → a.term? v = some (.var i)) →
      instantiate body vs a = (body, a)) ∧
    ∀ (c : Catalog), c.Scoped a → ∀ key keys b e, c.Composes a (key :: keys) b e →
      ∀ b', b.Later b' → ∀ x args, b'.term? x = some (.named key args) →
        args.length = e.params →
          (∃ y d, c.Chain b' x (key :: keys) d y ∧ instantiate e.body args d = (y, d) ∧
            ((key :: keys).Nodup → d.isReference y = false →
              c.resolve x b' = (.ok ⟨key, y, c.isRecursive key, c.isRegular key⟩, d))) ∧
          ∃ y d f, instantiate e.body args b' = (y, d) ∧ c.Chain d x (key :: keys) f y := by
  have whole := interns_scalars.append h
  have ha := whole.sound empty_sound
  have hm := whole.marked empty_sound empty_marked
  refine ⟨fun body as bs hbody has hbs => twice_agrees_once ha hm hbody has hbs,
    fun body vs hbody hvs => instantiate_own ha hm hbody hvs,
    fun c hc key keys b e he b' hbb' x args hx hlen => ?_⟩
  obtain ⟨hab, hstored, -⟩ := he.spec ha hm hc
  have hab' := hab.trans hbb'
  have hb' := hab'.sound ha
  have stored {d : Arena} (hd : b'.Later d) : d.Has e.body ∧ ∀ v ∈ args, d.Has v :=
    ⟨((hbb'.trans hd).within (hab.sound ha)).has hstored,
      fun v hv => (hd.within hb').has (hb'.has_child hx hv)⟩
  constructor
  · obtain ⟨y, d, hchain, hd, hy⟩ := he.chain ha hm hc rfl hbb' hx hlen
    obtain ⟨hbody, hargs⟩ := stored hd
    exact ⟨y, d, hchain, instantiate_of_inst (hd.sound hb') ((hab'.trans hd).marked ha hm)
      hbody hargs hy, hchain.resolve hx⟩
  · obtain ⟨hbody, hargs⟩ := stored (.refl b')
    rcases hrun : instantiate e.body args b' with ⟨y, d⟩
    obtain ⟨hd, hy⟩ := instantiate_spec hb' (hab'.marked ha hm) hbody hargs hrun
    obtain ⟨z, f, hchain, hf, hz⟩ := he.chain ha hm hc rfl (hbb'.trans hd)
      ((hd.within hb').term? hx) hlen
    have same : y = z :=
      (hy.within (hf.within (hd.sound hb'))).unique (hf.sound (hd.sound hb')) hz
    exact ⟨y, d, f, rfl, same ▸ hchain⟩

/-! ### Pairs turned round -/

namespace Turned

def pair : Key := ⟨"M", "pair"⟩

def flip : Key := ⟨"M", "flip"⟩

def bundle : Key := ⟨"M", "bundle"⟩

/-- Two parameters, a record of them, the record's name applied the other way round, that
applied to the first parameter and an array of it, and what this is applied to in turn. -/
def made : List (Term × TyId) :=
  [(.var 0, ⟨5⟩), (.var 1, ⟨6⟩),
    (.record [⟨"left", ⟨5⟩, false, false⟩, ⟨"right", ⟨6⟩, false, false⟩], ⟨7⟩),
    (.named pair [⟨6⟩, ⟨5⟩], ⟨8⟩), (.array ⟨5⟩, ⟨9⟩), (.named flip [⟨5⟩, ⟨9⟩], ⟨10⟩),
    (.named bundle [Scalar.int.id], ⟨11⟩)]

def arena : Arena := (made.map Prod.fst).foldl push .new

/-- `pair<'a, 'b>` is a record, `flip<'a, 'b>` is `pair<'b, 'a>`, and `bundle<'a>` is
`flip<'a, array<'a>>`. -/
def catalog : Catalog := ofDecls arena [⟨pair, 2, ⟨7⟩⟩, ⟨flip, 2, ⟨8⟩⟩, ⟨bundle, 1, ⟨10⟩⟩]

/-- With the bodies of the composed declarations, of `flip` and of `bundle`. -/
def composed : Arena :=
  (instantiate ⟨12⟩ [⟨5⟩, ⟨9⟩] (instantiate ⟨7⟩ [⟨6⟩, ⟨5⟩] arena).2).2

theorem composes : catalog.Composes arena [bundle, flip, pair] composed ⟨bundle, 1, ⟨13⟩⟩ := by
  have flipped : arena.term? ⟨8⟩ = some (.named pair [⟨6⟩, ⟨5⟩]) := by decide +kernel
  have bundled : arena.term? ⟨10⟩ = some (.named flip [⟨5⟩, ⟨9⟩]) := by decide +kernel
  have inner : catalog.Composes arena [flip, pair] (instantiate ⟨7⟩ [⟨6⟩, ⟨5⟩] arena).2
      ⟨flip, 2, ⟨12⟩⟩ :=
    .onto (d := ⟨flip, 2, ⟨8⟩⟩) (e := ⟨pair, 2, ⟨7⟩⟩) (by decide +kernel) flipped
      (.one (by decide +kernel)) rfl (Prod.ext (by decide +kernel) rfl)
  exact .onto (d := ⟨bundle, 1, ⟨10⟩⟩) (by decide +kernel) bundled inner rfl
    (Prod.ext (by decide +kernel) rfl)

theorem in_scope : catalog.Scoped arena := by
  have sound : arena.Sound := by decide +kernel
  have all : ∀ d ∈ catalog.decls, arena.Has d.body ∧ arena.scopes d.params d.body = true := by
    decide +kernel
  exact fun d hd => ⟨(all d hd).1, scoped_of_scopes sound (all d hd).2⟩

end Turned

/-- The pair of an array and a parameter, both open, with an argument put into it; the pair
with its own parameters; and `bundle<int>`, followed to the record. -/
theorem substitution_composes_turned :
    Interns .new Turned.made Turned.arena ∧
      Agree (instantiateTwice ⟨7⟩ [⟨9⟩, ⟨6⟩] [⟨6⟩]) (instantiateOnce ⟨7⟩ [⟨9⟩, ⟨6⟩] [⟨6⟩])
        Turned.arena ∧
      instantiate ⟨7⟩ [⟨5⟩, ⟨6⟩] Turned.arena = (⟨7⟩, Turned.arena) ∧
      ∃ y d, Turned.catalog.Chain Turned.composed ⟨11⟩ [Turned.bundle, Turned.flip, Turned.pair]
        d y ∧ instantiate ⟨13⟩ [Scalar.int.id] d = (y, d) := by
  have interned : Interns .new Turned.made Turned.arena := by decide +kernel
  have sound : Turned.arena.Sound := by decide +kernel
  have own : ∀ i v, ([⟨5⟩, ⟨6⟩] : List TyId)[i]? = some v →
      Turned.arena.term? v = some (.var i) := by
    rintro (_ | _ | i) v h
    · cases h; decide +kernel
    · cases h; decide +kernel
    · cases h
  obtain ⟨composes, keeps, follows⟩ := substitution_composes interned
  obtain ⟨⟨y, d, hchain, hy, -⟩, -⟩ := follows _ Turned.in_scope _ _ _ _ Turned.composes _
    (.refl _) ⟨11⟩ [Scalar.int.id] (by decide +kernel) rfl
  exact ⟨interned, composes _ _ _ (by decide) (by decide) (by decide)
    (scoped_of_scopes sound (by decide +kernel)), keeps _ _ (by decide) own, y, d, hchain, hy⟩

end Catalog

end Marshal
