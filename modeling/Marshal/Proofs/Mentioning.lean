import Marshal.Proofs.Composition

/-!
# References of an instance

The references in an instance of a body are the instances of the body's references and,
with them, the references in those arguments that are put for a parameter
(`references_of_instance`). An argument for which the body has no parameter adds nothing,
and a parameter for which there is no argument stays and adds nothing either.

The search for references cannot be followed beside the substitution. It skips subtrees
and drops what it has met, and two references of the body can become one in the instance.
Since the references found are those that stand in the type (`mem_mentions`), it is enough
to say what stands in an instance. That is a relation between two types of one arena, and
both halves are inductions of their own: down the instance, from what stands in it to where
it comes from (`Inst.origin`), and down the body, from what stands there to what becomes of
it (`Inst.image`).

For declarations this is why the graph of their bodies is enough to tag them. To which keys
an instance of a body refers is known from the body, but for the arguments.
-/

namespace Marshal

namespace Arena

variable {a b : Arena} {args : List TyId} {body x y z r u : TyId} {t : Term}

/-! ## What stands in an instance -/

/-- The argument is put for a parameter that stands in the type. -/
def Puts (a : Arena) (args : List TyId) (x u : TyId) : Prop :=
  ∃ y i, a.Contains x y ∧ a.term? y = some (.var i) ∧ args[i]? = some u

theorem Puts.mem (h : a.Puts args x u) : u ∈ args := by
  obtain ⟨_, _, -, -, hu⟩ := h
  exact List.mem_of_getElem? hu

theorem Puts.above (hxy : a.Contains x y) : a.Puts args y u → a.Puts args x u
  | ⟨z, i, hz, ht, hu⟩ => ⟨z, i, hxy.trans hz, ht, hu⟩

/-- What stands in an instance is an instance of a part, or stands in an argument. -/
theorem Inst.origin (h : a.Inst args x y) (hz : a.Contains y z) :
    (∃ r, a.Contains x r ∧ a.Inst args r z) ∨ ∃ u, a.Puts args x u ∧ a.Contains u z := by
  induction h with
  | @var x i ht =>
      cases hi : args[i]? with
      | some u =>
          rw [hi] at hz
          exact .inr ⟨u, ⟨x, i, .refl, ht, hi⟩, hz⟩
      | none =>
          rw [hi] at hz
          rcases hz.cases with hxz | ⟨t', ht', c, hc, -⟩
          · have fixed : a.Inst args x (args[i]?.getD x) := .var ht
            rw [hi] at fixed
            exact .inl ⟨x, .refl, hxz ▸ fixed⟩
          · cases ht.symm.trans ht'
            cases hc
  | @term x y t ids ht hvar hlen hparts hy ih =>
      rcases hz.cases with rfl | ⟨t', ht', c, hc, hz⟩
      · exact .inl ⟨x, .refl, .term ht hvar hlen hparts hy⟩
      · cases hy.symm.trans ht'
        rw [Term.children_rebuild t ids hlen, ← List.map_snd_zip (Nat.le_of_eq hlen)] at hc
        obtain ⟨p, hp, rfl⟩ := List.mem_map.mp hc
        have below : a.Contains x p.1 := .child ht (List.of_mem_zip hp).1 .refl
        rcases ih p hp hz with ⟨r, hr, hrz⟩ | ⟨u, hu, huz⟩
        · exact .inl ⟨r, below.trans hr, hrz⟩
        · exact .inr ⟨u, hu.above below, huz⟩

/-- The instance of a part stands in the instance. -/
theorem Inst.image (hxr : a.Contains x r) :
    ∀ {y : TyId}, a.Inst args x y → ∃ z, a.Contains y z ∧ a.Inst args r z := by
  induction hxr using Relation.ReflTransGen.head_induction_on with
  | refl => exact fun h => ⟨_, .refl, h⟩
  | @head x c hstep _ ih =>
      obtain ⟨t, ht, hc⟩ := hstep
      intro y h
      cases h with
      | var ht' =>
          cases ht.symm.trans ht'
          cases hc
      | @term _ _ _ ids ht' _ hlen hparts hy =>
          cases ht.symm.trans ht'
          obtain ⟨i, hi, rfl⟩ := List.mem_iff_getElem.mp hc
          have hi' : i < ids.length := hlen ▸ hi
          have hp : (t.children[i], ids[i]) ∈ t.children.zip ids :=
            List.mem_iff_getElem?.mpr ⟨i, by simp [List.getElem?_zip_eq_some]⟩
          obtain ⟨z, hz, hrz⟩ := ih (hparts _ hp)
          refine ⟨z, .child hy ?_ hz, hrz⟩
          rw [Term.children_rebuild t ids hlen]
          exact (List.of_mem_zip hp).2

/-- An argument that is put stands in the instance. -/
theorem Inst.contains_put (h : a.Inst args x y) (hu : a.Puts args x u) : a.Contains y u := by
  obtain ⟨w, i, hw, ht, hi⟩ := hu
  obtain ⟨z, hz, hwz⟩ := h.image hw
  rw [hwz.of_var ht, hi] at hz
  exact hz

/-- A reference in the place of a type has been put there, or the type is a reference. -/
theorem Inst.reference (h : a.Inst args r z) (hz : a.isReference z = true) :
    a.isReference r = true ∨ a.Puts args r z := by
  obtain ⟨t', ht', href⟩ := isReference_eq_true.mp hz
  cases h with
  | @var _ i ht =>
      cases hi : args[i]? with
      | some u => exact .inr ⟨r, i, .refl, ht, hi⟩
      | none => exact .inl (by rwa [hi] at hz)
  | @term _ _ t ids ht _ _ _ hy =>
      cases hy.symm.trans ht'
      rw [Catalog.isReference_rebuild] at href
      exact .inl (isReference_eq_true.mpr ⟨t, ht, href⟩)

theorem Inst.isReference (h : a.Inst args r z) (hr : a.isReference r = true) :
    a.isReference z = true := by
  obtain ⟨t, ht, href⟩ := isReference_eq_true.mp hr
  cases h with
  | var ht' =>
      cases ht.symm.trans ht'
      cases href
  | @term _ _ _ ids ht' _ _ _ hy =>
      cases ht.symm.trans ht'
      exact isReference_eq_true.mpr ⟨_, hy, (Catalog.isReference_rebuild t ids).trans href⟩

/-- Of one arena: the references in an instance are the instances of the references and
those in the arguments that are put. -/
theorem Inst.mem_mentions (ha : a.Sound) (hm : a.Marked) (h : a.Inst args x y) :
    z ∈ a.mentions y ↔
      (∃ r ∈ a.mentions x, a.Inst args r z) ∨ ∃ u, a.Puts args x u ∧ z ∈ a.mentions u := by
  simp only [Arena.mem_mentions ha hm]
  constructor
  · rintro ⟨hz, href⟩
    rcases h.origin hz with ⟨r, hr, hrz⟩ | ⟨u, hu, huz⟩
    · rcases hrz.reference href with hrref | hput
      · exact .inl ⟨r, ⟨hr, hrref⟩, hrz⟩
      · exact .inr ⟨z, hput.above hr, .refl, href⟩
    · exact .inr ⟨u, hu, huz, href⟩
  · rintro (⟨r, ⟨hr, href⟩, hrz⟩ | ⟨u, hu, huz, href⟩)
    · obtain ⟨z', hz', hrz'⟩ := h.image hr
      cases hrz.unique ha hrz'
      exact ⟨hz', hrz.isReference href⟩
    · exact ⟨(h.contains_put hu).trans huz, href⟩

/-! ## In a later arena -/

theorem Contains.within (hab : a.Within b) (h : a.Contains x y) : b.Contains x y := by
  induction h with
  | refl => exact .refl
  | tail _ hstep ih =>
      obtain ⟨t, ht, hc⟩ := hstep
      exact ih.tail ⟨t, hab.term? ht, hc⟩

theorem contains_within (ha : a.Sound) (hab : a.Within b) (hx : a.Has x) :
    b.Contains x y ↔ a.Contains x y :=
  ⟨.of_within ha hab hx, .within hab⟩

theorem puts_within (ha : a.Sound) (hab : a.Within b) (hx : a.Has x) :
    b.Puts args x u ↔ a.Puts args x u := by
  unfold Puts
  simp only [contains_within ha hab hx]
  refine exists_congr fun y => exists_congr fun i => and_congr_right fun hy => ?_
  rw [hab.term?_eq (hy.has ha hx)]

/-- Later the references in a type are the same. -/
theorem mem_mentions_within (ha : a.Sound) (hm : a.Marked) (hb : b.Sound) (hm' : b.Marked)
    (hab : a.Within b) (hx : a.Has x) : y ∈ b.mentions x ↔ y ∈ a.mentions x := by
  rw [mem_mentions ha hm, mem_mentions hb hm', contains_within ha hab hx]
  refine and_congr_right fun hy => ?_
  rw [Arena.isReference, Arena.isReference, hab.term?_eq (hy.has ha hx)]

end Arena

namespace Catalog

open Arena

variable {a b : Arena} {args : List TyId} {x y : TyId} {decls : List Decl} {d : Decl} {k : Key}

/-! ## Keys -/

/-- The references in an instance, by their keys: those of the body and those in the
arguments that are put. -/
theorem references_inst (ha : a.Sound) (hm : a.Marked) (h : a.Inst args x y) :
    (∃ ts, (k, ts) ∈ references a y) ↔ (∃ ts, (k, ts) ∈ references a x) ∨
      ∃ u, a.Puts args x u ∧ ∃ ts, (k, ts) ∈ references a u := by
  simp only [mem_references ha hm]
  constructor
  · rintro ⟨ts, z, hz, ht⟩
    have href : a.isReference z = true := isReference_eq_true.mpr ⟨_, ht, rfl⟩
    rcases h.mem_mentions ha hm |>.mp ((mem_mentions ha hm).mpr ⟨hz, href⟩) with
      ⟨r, hr, hrz⟩ | ⟨u, hu, huz⟩
    · obtain ⟨hxr, hrref⟩ := (mem_mentions ha hm).mp hr
      obtain ⟨t, hrt, href⟩ := isReference_eq_true.mp hrref
      cases t with
      | named key us =>
          obtain ⟨ids, hz', -, -⟩ := inst_of_named hrz hrt
          cases ht.symm.trans hz'
          exact .inl ⟨us, r, hxr, hrt⟩
      | _ => cases href
    · exact .inr ⟨u, hu, ts, z, ((mem_mentions ha hm).mp huz).1, ht⟩
  · rintro (⟨ts, r, hr, ht⟩ | ⟨u, hu, ts, z, hz, ht⟩)
    · obtain ⟨z, hz, hrz⟩ := h.image hr
      obtain ⟨ids, hz', -, -⟩ := inst_of_named hrz ht
      exact ⟨ids, z, hz, hz'⟩
    · exact ⟨ts, z, (h.contains_put hu).trans hz, ht⟩

theorem leads_iff_references (hd : lookup decls d.key = some d) :
    Leads (edges a decls) d.key k ↔ ∃ ts, (k, ts) ∈ references a d.body := by
  rw [Leads, targets, lookup_edges, hd, Option.map_some, Option.getD_some, List.mem_map]
  constructor
  · rintro ⟨⟨_, ts⟩, h, rfl⟩
    exact ⟨ts, h⟩
  · rintro ⟨ts, h⟩
    exact ⟨(k, ts), h, rfl⟩

theorem references_within (ha : a.Sound) (hm : a.Marked) (hb : b.Sound) (hm' : b.Marked)
    (hab : a.Within b) (hx : a.Has x) {ts : List TyId} :
    (k, ts) ∈ references b x ↔ (k, ts) ∈ references a x := by
  rw [mem_references ha hm, mem_references hb hm']
  simp only [contains_within ha hab hx]
  refine exists_congr fun y => and_congr_right fun hy => ?_
  rw [hab.term?_eq (hy.has ha hx)]

/-! ## What instantiating leaves -/

/-- Over any arena that interning has filled, the references in what instantiating gives
are the instances of the body's references and the references in the arguments that are
put for its parameters. The keys among them are those that the graph of declarations has
for the body, and those of the arguments. -/
theorem references_of_instance {calls : List (Term × TyId)} {body : TyId}
    (h : Interns .new calls a) (hbody : a.Has body) (hargs : ∀ v ∈ args, a.Has v)
    (hrun : instantiate body args a = (y, b)) :
    (∀ z, z ∈ b.mentions y ↔
        (∃ r ∈ a.mentions body, instantiate r args b = (z, b)) ∨
          ∃ u, a.Puts args body u ∧ z ∈ a.mentions u) ∧
      ∀ decls d, lookup decls d.key = some d → d.body = body → ∀ k,
        (∃ ts, (k, ts) ∈ references b y) ↔
          Leads (edges a decls) d.key k ∨
            ∃ u, a.Puts args body u ∧ ∃ ts, (k, ts) ∈ references a u := by
  have whole := interns_scalars.append h
  have ha := whole.sound empty_sound
  have hm := whole.marked empty_sound empty_marked
  obtain ⟨hlater, hinst⟩ := instantiate_spec ha hm hbody hargs hrun
  have hab := hlater.within ha
  have hb := hlater.sound ha
  have hm' := hlater.marked ha hm
  have put_stored {u : TyId} (hu : a.Puts args body u) : a.Has u := hargs u hu.mem
  constructor
  · intro z
    rw [hinst.mem_mentions hb hm']
    refine or_congr (exists_congr fun r => ?_) (exists_congr fun u => ?_)
    · rw [mem_mentions_within ha hm hb hm' hab hbody]
      refine and_congr_right fun hr => ?_
      have hr : b.Has r := hab.has (((mem_mentions ha hm).mp hr).1.has ha hbody)
      have hargs : ∀ v ∈ args, b.Has v := fun v hv => hab.has (hargs v hv)
      exact ⟨instantiate_of_inst hb hm' hr hargs,
        fun h => (instantiate_spec hb hm' hr hargs h).2⟩
    · rw [puts_within ha hab hbody]
      exact and_congr_right fun hu => mem_mentions_within ha hm hb hm' hab (put_stored hu)
  · rintro decls d hd rfl k
    rw [references_inst hb hm' hinst, leads_iff_references hd]
    refine or_congr (exists_congr fun ts => ?_) (exists_congr fun u => ?_)
    · exact references_within ha hm hb hm' hab hbody
    · rw [puts_within ha hab hbody]
      exact and_congr_right fun hu => exists_congr fun ts =>
        references_within ha hm hb hm' hab (put_stored hu)

/-! ### Boxes that become one -/

namespace Boxes

def both : Decl := ⟨⟨"Box", "both"⟩, 4, ⟨12⟩⟩

/-- A record of boxes of the first and of the second parameter, of the first one itself
and of the fourth; the third is not used. -/
def made : List (Term × TyId) :=
  let box (content : TyId) : Term := .named ⟨"Box", "box"⟩ [content]
  [(.var 0, ⟨5⟩), (.var 1, ⟨6⟩), (.var 3, ⟨7⟩), (box ⟨5⟩, ⟨8⟩), (box ⟨6⟩, ⟨9⟩),
    (.named ⟨"Box", "list"⟩ [Scalar.int.id], ⟨10⟩), (.named ⟨"Box", "tree"⟩ [], ⟨11⟩),
    (.record [⟨"left", ⟨8⟩, false, false⟩, ⟨"right", ⟨9⟩, false, false⟩,
      ⟨"first", ⟨5⟩, false, false⟩, ⟨"last", ⟨7⟩, false, false⟩], ⟨12⟩)]

def arena : Arena := (made.map Prod.fst).foldl push .new

/-- One list for the first two parameters and a tree for the third. -/
def filled : Arena := (instantiate ⟨12⟩ [⟨10⟩, ⟨10⟩, ⟨11⟩] arena).2

end Boxes

/-- The two boxes of the body are one box of a list. The list is the argument's own, the
tree is put nowhere, and the fourth parameter stays. -/
theorem references_of_instance_boxes :
    Interns .new Boxes.made Boxes.arena ∧
      instantiate ⟨12⟩ [⟨10⟩, ⟨10⟩, ⟨11⟩] Boxes.arena = (⟨14⟩, Boxes.filled) ∧
      Boxes.arena.mentions ⟨12⟩ = [⟨8⟩, ⟨9⟩] ∧ Boxes.filled.mentions ⟨14⟩ = [⟨13⟩, ⟨10⟩] ∧
      (∃ r ∈ Boxes.arena.mentions ⟨12⟩,
        instantiate r [⟨10⟩, ⟨10⟩, ⟨11⟩] Boxes.filled = (⟨13⟩, Boxes.filled)) ∧
      Leads (edges Boxes.arena [Boxes.both]) Boxes.both.key ⟨"Box", "box"⟩ := by
  have interned : Interns .new Boxes.made Boxes.arena := by decide +kernel
  have run : instantiate ⟨12⟩ [⟨10⟩, ⟨10⟩, ⟨11⟩] Boxes.arena = (⟨14⟩, Boxes.filled) :=
    Prod.ext (by decide +kernel) rfl
  have found : Boxes.filled.mentions ⟨14⟩ = [⟨13⟩, ⟨10⟩] := by decide +kernel
  obtain ⟨mentions, keys⟩ :=
    references_of_instance interned (by decide +kernel) (by decide +kernel) run
  -- The list that is put refers to itself and to no box.
  have put {u : TyId} (hu : Boxes.arena.Puts [⟨10⟩, ⟨10⟩, ⟨11⟩] ⟨12⟩ u) :
      ⟨13⟩ ∉ Boxes.arena.mentions u ∧
        ∀ ts, (⟨"Box", "box"⟩, ts) ∉ references Boxes.arena u := by
    have all : ∀ u ∈ [(⟨10⟩ : TyId), ⟨10⟩, ⟨11⟩], ⟨13⟩ ∉ Boxes.arena.mentions u ∧
        ⟨"Box", "box"⟩ ∉ (references Boxes.arena u).map Prod.fst := by decide +kernel
    exact ⟨(all u hu.mem).1, fun ts h => (all u hu.mem).2 (List.mem_map_of_mem h)⟩
  have boxed : ∃ ts, (⟨"Box", "box"⟩, ts) ∈ references Boxes.filled ⟨14⟩ :=
    ⟨[⟨10⟩], by decide +kernel⟩
  refine ⟨interned, run, by decide +kernel, found, ?_, ?_⟩
  · exact ((mentions ⟨13⟩).mp (found ▸ List.mem_cons_self ..)).resolve_right
      fun ⟨u, hu, h⟩ => (put hu).1 h
  · exact ((keys [Boxes.both] Boxes.both (by decide +kernel) rfl _).mp boxed).resolve_right
      fun ⟨u, hu, ts, h⟩ => (put hu).2 ts h

end Catalog

end Marshal
