import Marshal.Proofs.Moves

/-!
# Converters move values between carriers

The forward half of a converter takes what carries a value on the host to what
carries it on the native side, the backward half takes it back. One thing can go
wrong: a record on its way from an object to an array needs its fields to be there,
and only fields that are optional, or whose type stands for an option, are known to
be left out at times. A field of another type whose value is carried as absence, such
as one that is nullable around an option, is refused when the record is met.
`Demand` says which records pass, and `Session.Comes.arrives` that values of such
records arrive and all others are refused.

The proof is by induction on the value, through the fixpoint bodies.
-/

namespace Marshal

open Converter Planner PlanM Run

namespace World

variable (w : World)

/-- A record that moves from keyed to positional has all its required fields, except
those that stand for an option. -/
def Demand (d : Direction) : Term → Abstract → Prop
  | .record fields, .record _ items =>
    (w.options.source d).records = .keyed → (w.options.target d).records = .positional →
      ∀ x ∈ fields.zip items, x.1.optional = false → x.2.isBlank = true → w.StandsForOption x.1.ty
  | _, _ => True

/-- What a content defers to has its right body in the table, and so has all that
these defer to. -/
def Backs (table : FixTable) (c : Assembly.Content) : Prop :=
  ∀ t ∈ (bare c).targets, ∀ u, table.contents.Leads t u →
    ∃ b, table.contents u = some b ∧ w.Body u b

variable {w} {ty : TyId} {table : FixTable} {c : Assembly.Content}

theorem Backs.mono {c' : Assembly.Content} (h : w.Backs table c)
    (hsub : ∀ t ∈ (bare c').targets, t ∈ (bare c).targets) : w.Backs table c' :=
  fun t ht => h t (hsub t ht)

end World

open World

variable {ty : TyId}

/-! ## Places -/

/-- The content at a place where the value may be left out. -/
def Spot.wrap (sp : Spot) (c : Assembly.Content) : Assembly.Content :=
  if sp.omittable then (bare c).wrapped .mapOption else c

@[simp] theorem wrap_whole (c : Assembly.Content) : (⟨ty, false⟩ : Spot).wrap c = c := rfl

theorem wrap_ofField (f : Field) (c : Assembly.Content) :
    (Part.ofField f).wrap c = f.spot.wrap c := by
  cases c <;> rfl

/-- What carries the value on its side is taken to what carries it on the other,
unless there is a record below that does not pass. -/
def Carries (w : World) (table : FixTable) (d : Direction) (sp : Spot) (a : Abstract) : Prop :=
  ∀ c, w.Good sp.ty → w.Canon sp.ty c → w.Backs table c → ∀ s v,
    Encodes (w.options.source d) s a v →
      Lands table ((bare (sp.wrap c)).step d) s v (Holds w (w.Demand d) sp a)
        fun s' v' => Encodes (w.options.target d) s' a v'

section Carries

variable {w : World} {table : FixTable} {d : Direction} {sp : Spot} {a : Abstract}
  {c : Assembly.Content} {s : Store} {v : Value} {D : Term → Abstract → Prop}

/-- Of a value that is carried as absence or null nothing is asked. -/
theorem Holds.demands_nothing (h : Holds w D sp a) (ha : a.isBlank = true ∨ a.isNull = true) :
    Holds w (w.Demand d) sp a :=
  h.of_blank ha fun t a ha => by
    cases t <;> cases a <;> first | trivial | (rcases ha with ha | ha <;> cases ha)

theorem Carries.crosses (h : Carries w table d sp a) (ha : Holds w D sp a) (hg : w.Good sp.ty)
    (hc : w.Canon sp.ty c) (hb : w.Backs table c) (hv : Encodes (w.options.source d) s a v) :
    Crosses table ((bare (sp.wrap c)).step d) s v (Holds w (w.Demand d) sp a)
      fun s' v' => Encodes (w.options.target d) s' a v' where
  lands := h c hg hc hb s v hv
  absent := by
    rintro rfl
    have blank : a.isBlank = true := hv.isAbsent.symm
    exact ⟨ha.demands_nothing (.inl blank), fun s' _ => hv.of_blank (.inl blank)⟩
  present := fun hp s' u hu => by rw [hu.isAbsent, ← hv.isAbsent, hp]

/-- Where a value may be left out, absence passes and all else is converted. -/
theorem mapOption_lands {good : Prop}
    (h : Lands table ((bare c).step d) s v good fun s' v' => Encodes (w.options.target d) s' a v')
    (hgood : a.isBlank = true → good) (hv : Encodes (w.options.source d) s a v) :
    Lands table ((bare ((bare c).wrapped .mapOption)).step d) s v good
      fun s' v' => Encodes (w.options.target d) s' a v' := by
  rw [step_wrapped]
  split
  · next hi => exact step_of_isIdentity hi d ▸ h
  · cases hp : v.isAbsent with
    | false => exact .mapOption hp h
    | true =>
        have blank : a.isBlank = true := hv.isAbsent.symm.trans hp
        have absent : v = .absent := by cases v <;> first | rfl | cases hp
        subst absent
        exact (Lands.mapOption_absent fun s' _ => hv.of_blank (.inl blank)).imp (fun _ => trivial)
          fun _ _ _ _ h => ⟨hgood blank, h⟩

theorem absent_lands : Lands table ((bare ((bare c).wrapped .mapOption)).step d) s .absent True
    fun _ v => v = .absent := by
  rw [step_wrapped]
  split
  · exact .identity trivial fun _ _ => rfl
  · exact .mapOption_absent fun _ _ => rfl

/-! ## Layers -/

section Layers

variable {t : Term} {l : Layer} {cs : TyId → Assembly.Content}

/-- The parts of a type that was planned, before they are converted. -/
structure Planned (w : World) (table : FixTable) (l : Layer)
    (cs : TyId → Assembly.Content) : Prop where
  good : ∀ p ∈ l.parts, w.Good p.ty
  canon : ∀ p ∈ l.parts, w.Canon p.ty (cs p.ty)
  backs : ∀ p ∈ l.parts, w.Backs table (cs p.ty)

/-- A composite type that was planned was put together from its parts. -/
theorem planned_layer (hg : w.Good ty) (hc : w.Canon ty c) (hb : w.Backs table c)
    (ht : w.arena.term? ty = some t) (hl : w.layer? ty t = some l) :
    w.Answers l.before (.ok ()) ∧ ∃ cs, Planned w table l cs ∧
      w.Answers (l.assemble (l.parts.map fun p => bare (p.wrap (cs p.ty)))) (.ok c) := by
  obtain ⟨hbefore, -, cs, hcs, hassemble⟩ := hc.layer_inv ht hl
  refine ⟨hbefore, cs, ⟨fun p hp => hg.edge (.part ht hl hp), hcs, fun p hp => hb.mono ?_⟩, ?_⟩
  · exact fun u hu => (hassemble.targets hl (by simp)).mpr
      ⟨_, List.mem_map_of_mem (f := fun p : Part => cs p.ty) hp, hu⟩
  · rw [Assembles, zipWith_wrap, List.map_map] at hassemble
    exact hassemble

/-- What is known of a part of a value. -/
structure Known (w : World) (table : FixTable) (d : Direction) (D : Term → Abstract → Prop)
    (sp : Spot) (a : Abstract) : Prop where
  holds : Holds w D sp a
  carries : Carries w table d sp a

/-- The converter of a field. -/
def fieldConverter (cs : TyId → Assembly.Content) (f : Field) : Converter :=
  bare (f.spot.wrap (cs f.ty))

theorem fieldConverters (fields : List Field) :
    ((fields.map Part.ofField).map fun p => bare (p.wrap (cs p.ty))) =
      fields.map (fieldConverter cs) := by
  rw [List.map_map]
  exact List.map_congr_left fun f _ => congrArg bare (wrap_ofField f _)

/-- The fields of a record or object that was planned. -/
theorem Planned.fields {xs : List (Field × Abstract × Value)} (h : Planned w table l cs)
    (hl : l.parts = (xs.map (·.1)).map Part.ofField)
    (ha : ∀ x ∈ xs, Known w table d D x.1.spot x.2.1)
    (hv : ∀ x ∈ xs, Encodes (w.options.source d) s x.2.1 x.2.2) :
    ∀ x ∈ xs, Crosses table ((fieldConverter cs x.1).step d) s x.2.2
      (Holds w (w.Demand d) x.1.spot x.2.1)
      fun s' v' => Encodes (w.options.target d) s' x.2.1 v' := by
  intro x hx
  have hp : Part.ofField x.1 ∈ l.parts :=
    hl ▸ List.mem_map_of_mem (List.mem_map_of_mem (f := (·.1)) hx)
  exact (ha x hx).carries.crosses (ha x hx).holds (h.good _ hp) (h.canon _ hp) (h.backs _ hp)
    (hv x hx)

theorem carries_object {fs : List Field} {as : List Abstract}
    (ht : w.arena.term? ty = some (.object fs)) (hlen : as.length = fs.length)
    (hparts : ∀ x ∈ (fs.map Field.spot).zip as, Known w table d D x.1 x.2) :
    Carries w table d ⟨ty, false⟩ (.object (fs.map Field.name) as) := by
  intro c hg hc hb s v hv
  obtain ⟨hbefore, cs, hplanned, hassemble⟩ := planned_layer hg hc hb ht rfl
  rw [show (_ : List Converter) = _ from fieldConverters fs] at hassemble
  cases (Answers.pure _).unique hassemble
  have split := Splits.object (o := w.options) hlen
  cases hv with
  | @object _ _ vs entries hvlen hvs hk =>
      obtain ⟨xs, rfl, rfl, rfl⟩ := exists_triples hlen hvlen
      have cross := hplanned.fields rfl (forall_parts.mp hparts) (encodes_triples hvs)
      rw [wrap_whole, Assembly.step_keyed]
      refine (keyed_lands cross (uniqueFields_spec hbefore) hk).imp
        (fun h => forall_parts.mp (h.term_inv ht split).2) ?_
      rintro s' _ hs hg ⟨entries', us, rfl, hus, hk'⟩
      exact ⟨.term ht split trivial (forall_parts.mpr hg),
        .object hus.encodes.1 hus.encodes.2 hk'⟩

/-- What a record asks for on its way to an array, in terms of its fields. -/
theorem demand_iff {xs : List (Field × Abstract × Value)} {names : List String}
    (hsource : (w.options.source d).records = .keyed)
    (htarget : (w.options.target d).records = .positional) :
    w.Demand d (.record (xs.map (·.1))) (.record names (xs.map (·.2.1))) ↔
      ∀ x ∈ xs, x.2.1.isBlank = true → x.1.optional = true ∨ w.StandsForOption x.1.ty := by
  simp only [Demand, List.zip_map', List.forall_mem_map, hsource, htarget, forall_const]
  refine forall₂_congr fun x _ => ?_
  cases x.1.optional <;> simp

/-- Nothing is asked of a record that is an array already, or becomes an object. -/
theorem demand_trivial {fields : List Field} {a : Abstract}
    (h : (w.options.source d).records = .positional ∨ (w.options.target d).records = .keyed) :
    w.Demand d (.record fields) a := by
  cases a with
  | record names items =>
      intro hsource htarget
      rcases h with h | h
      · rw [hsource] at h; cases h
      · rw [htarget] at h; cases h
  | _ => trivial

theorem carries_record (hw : w.Ready) {fs : List Field} {as : List Abstract}
    (ht : w.arena.term? ty = some (.record fs)) (hlen : as.length = fs.length)
    (hparts : ∀ x ∈ (fs.map Field.spot).zip as, Known w table d D x.1 x.2) :
    Carries w table d ⟨ty, false⟩ (.record (fs.map Field.name) as) := by
  intro c hg hc hb s v hv
  obtain ⟨hbefore, cs, hplanned, hassemble⟩ := planned_layer hg hc hb ht rfl
  rw [show (_ : List Converter) = _ from fieldConverters fs] at hassemble
  have distinct := uniqueFields_spec hbefore
  have has : ∀ f ∈ fs, w.arena.Has f.ty := fun f hf =>
    hw.sound.has_child ht (List.mem_map_of_mem hf)
  rcases Answers.of_bind (recordSlots_looks hw.sound hw.spans has) (fun hx => .pure hx.sound _)
    hassemble with ⟨_, -, ⟨⟩⟩ | ⟨slots, hslots, hassemble⟩
  cases (Answers.pure _).unique hassemble
  cases hw.slots_eq has hslots
  have split := Splits.record (o := w.options) hlen
  rw [wrap_whole, Assembly.step_record]
  cases hv with
  | @keyed _ _ vs entries hsource hvlen hvs hk =>
      obtain ⟨xs, rfl, rfl, rfl⟩ := exists_triples hlen hvlen
      have cross := hplanned.fields rfl (forall_parts.mp hparts) (encodes_triples hvs)
      rw [hsource]
      cases htarget : (w.options.target d).records with
      | keyed =>
          refine (keyed_lands cross distinct hk).imp
            (fun h => forall_parts.mp (h.term_inv ht split).2) ?_
          rintro s' _ hs hg ⟨entries', us, rfl, hus, hk'⟩
          exact ⟨.term ht split (demand_trivial (.inr htarget)) (forall_parts.mpr hg),
            .keyed htarget hus.encodes.1 hus.encodes.2 hk'⟩
      | positional =>
          refine (toPositional_lands cross distinct hk).imp (fun h => ?_) ?_
          · obtain ⟨hD, hparts⟩ := h.term_inv ht split
            exact ⟨forall_parts.mp hparts, (demand_iff hsource htarget).mp hD⟩
          · rintro s' _ hs ⟨hg, hD⟩ ⟨us, rfl, hus⟩
            exact ⟨.term ht split ((demand_iff hsource htarget).mpr hD) (forall_parts.mpr hg),
              .positional htarget hus.encodes.1 hus.encodes.2⟩
  | @positional _ _ vs hsource hvlen hvs =>
      obtain ⟨xs, rfl, rfl, rfl⟩ := exists_triples hlen hvlen
      have cross := hplanned.fields rfl (forall_parts.mp hparts) (encodes_triples hvs)
      have trivially : w.Demand d (.record (xs.map (·.1))) (.record (names xs) (xs.map (·.2.1))) :=
        demand_trivial (.inl hsource)
      rw [hsource]
      cases htarget : (w.options.target d).records with
      | keyed =>
          refine (toKeyed_lands cross distinct).imp
            (fun h => forall_parts.mp (h.term_inv ht split).2) ?_
          rintro s' _ hs hg ⟨entries', us, rfl, hus, hk'⟩
          exact ⟨.term ht split trivially (forall_parts.mpr hg),
            .keyed htarget hus.encodes.1 hus.encodes.2 hk'⟩
      | positional =>
          refine (positional_lands fun x hx => (cross x hx).lands).imp
            (fun h => forall_parts.mp (h.term_inv ht split).2) ?_
          rintro s' _ hs hg ⟨us, rfl, hus⟩
          exact ⟨.term ht split trivially (forall_parts.mpr hg),
            .positional htarget hus.encodes.1 hus.encodes.2⟩

theorem ofElements_converters (conv : TyId → Assembly.Content) : ∀ (index : Nat) (tys : List TyId),
    ((Part.ofElements index tys).map fun p => bare (p.wrap (conv p.ty))) =
      tys.map fun ty => bare (conv ty)
  | _, [] => rfl
  | index, ty :: tys => by
      rw [Part.ofElements, List.map_cons, ofElements_converters conv (index + 1) tys]
      rfl

theorem mem_ofElements {x : TyId} {tys : List TyId} (index : Nat) (h : x ∈ tys) :
    ∃ p ∈ Part.ofElements index tys, p.ty = x :=
  List.mem_map.mp ((ofElements_ty index tys).symm ▸ h)

theorem carries_tuple {tys : List TyId} {as : List Abstract}
    (ht : w.arena.term? ty = some (.tuple tys)) (hlen : as.length = tys.length)
    (hparts : ∀ x ∈ (tys.map fun ty => (⟨ty, false⟩ : Spot)).zip as, Known w table d D x.1 x.2) :
    Carries w table d ⟨ty, false⟩ (.row as) := by
  intro c hg hc hb s v hv
  obtain ⟨-, cs, hplanned, hassemble⟩ := planned_layer hg hc hb ht rfl
  rw [show (_ : List Converter) = _ from ofElements_converters cs 0 tys] at hassemble
  cases (Answers.pure _).unique hassemble
  have split := Splits.tuple (o := w.options) hlen
  cases hv with
  | @row _ vs hvlen hvs =>
      obtain ⟨xs, rfl, rfl, rfl⟩ := exists_triples hlen hvlen
      have encoded := encodes_triples hvs
      have lands : ∀ x ∈ xs, Lands table ((bare (cs x.1)).step d) s x.2.2
          (Holds w (w.Demand d) ⟨x.1, false⟩ x.2.1)
          fun s' v => Encodes (w.options.target d) s' x.2.1 v := by
        intro x hx
        obtain ⟨p, hp, hty⟩ := mem_ofElements 0 (List.mem_map_of_mem (f := (·.1)) hx)
        have part : Known w table d D ⟨x.1, false⟩ x.2.1 := forall_parts.mp hparts x hx
        exact part.carries (cs x.1) (hty ▸ hplanned.good p hp) (hty ▸ hplanned.canon p hp)
          (hty ▸ hplanned.backs p hp) s x.2.2 (encoded x hx)
      rw [wrap_whole]
      refine (positional_lands lands).imp (fun h => forall_parts.mp (h.term_inv ht split).2) ?_
      rintro s' _ hs hg ⟨us, rfl, hus⟩
      exact ⟨.term ht split trivial (forall_parts.mpr hg), .row hus.encodes.1 hus.encodes.2⟩

/-- A type with one part, at which nothing is left out. -/
theorem planned_inner {x : TyId} (hg : w.Good ty) (hc : w.Canon ty c) (hb : w.Backs table c)
    (ht : w.arena.term? ty = some t) {m : PlanM Unit} {f : List Converter → PlanM Assembly.Content}
    (hl : w.layer? ty t = some ⟨m, [.inner x], f⟩) :
    ∃ e, w.Answers (f [bare e]) (.ok c) ∧
      ∀ {a : Abstract} {s : Store} {v : Value}, Carries w table d ⟨x, false⟩ a →
        Encodes (w.options.source d) s a v → Lands table ((bare e).step d) s v
          (Holds w (w.Demand d) ⟨x, false⟩ a) fun s' v' =>
            Encodes (w.options.target d) s' a v' := by
  obtain ⟨-, cs, hplanned, hassemble⟩ := planned_layer hg hc hb ht hl
  have hp : Part.inner x ∈ [Part.inner x] := List.mem_singleton_self _
  exact ⟨cs x, hassemble, fun ha hv => ha _ (hplanned.good _ hp) (hplanned.canon _ hp)
    (hplanned.backs _ hp) _ _ hv⟩

theorem carries_array {e : TyId} {as : List Abstract} (ht : w.arena.term? ty = some (.array e))
    (hparts : ∀ a ∈ as, Known w table d D ⟨e, false⟩ a) :
    Carries w table d ⟨ty, false⟩ (.row as) := by
  intro c hg hc hb s v hv
  obtain ⟨content, hassemble, lands⟩ := planned_inner (d := d) hg hc hb ht rfl
  cases (Answers.pure _).unique hassemble
  have split : Splits w.options (.array e) (.row as) (as.map fun a => (⟨e, false⟩, a)) := .array
  cases hv with
  | @row _ vs hvlen hvs =>
      obtain ⟨xs, -, rfl, rfl⟩ : ∃ xs : List (Abstract × Abstract × Value), as = xs.map (·.1) ∧
        as = xs.map (·.2.1) ∧ vs = xs.map (·.2.2) := exists_triples rfl hvlen
      have encoded := encodes_triples hvs
      have iff {Q : Abstract → Prop} : (∀ a ∈ xs.map (·.2.1), Q a) ↔ ∀ x ∈ xs, Q x.2.1 :=
        List.forall_mem_map
      have subs {Q : Spot → Abstract → Prop} : (∀ y ∈ (xs.map (·.2.1)).map fun a =>
          ((⟨e, false⟩, a) : Spot × Abstract), Q y.1 y.2) ↔ ∀ x ∈ xs, Q ⟨e, false⟩ x.2.1 :=
        List.forall_mem_map.trans iff
      rw [wrap_whole]
      refine (array_lands fun x hx => lands (iff.mp hparts x hx).carries (encoded x hx)).imp
        (fun h => subs.mp (h.term_inv ht split).2) ?_
      rintro s' _ hs hg ⟨us, rfl, hus⟩
      exact ⟨.term ht split trivial (subs.mpr hg),
        .row hus.encodes.1 hus.encodes.2⟩

/-- The converters of payloads. -/
theorem payloadConverters (ks : List Constructor) :
    spread ks ((ks.filterMap Part.ofConstructor).map fun p => bare (p.wrap (cs p.ty))) =
      ks.map fun k => k.payload.map fun ty => bare (cs ty) := by
  rw [← Assembly.spread_payloads]
  congr 1
  refine List.map_congr_left fun p hp => ?_
  obtain ⟨k, -, hk⟩ := List.mem_filterMap.mp hp
  obtain ⟨ty, -, rfl⟩ := Option.map_eq_some_iff.mp hk
  rfl

/-- A variant that was planned. -/
theorem planned_variant {ks : List Constructor} (hg : w.Good ty) (hc : w.Canon ty c)
    (hb : w.Backs table c) (ht : w.arena.term? ty = some (.variant ks)) :
    (ks.map Constructor.name).Nodup ∧ ∃ cs : TyId → Assembly.Content,
      c = Assembly.variant w.options.host.variants w.options.native.variants ks
        (ks.map fun k => k.payload.map fun ty => bare (cs ty)) ∧
      ∀ (i : Nat) (name : String) (x : TyId), ks[i]? = some ⟨name, some x⟩ →
        w.Good x ∧ w.Canon x (cs x) ∧ w.Backs table (cs x) := by
  obtain ⟨hbefore, cs, hplanned, hassemble⟩ := planned_layer hg hc hb ht rfl
  cases (Answers.pure _).unique hassemble
  refine ⟨uniqueConstructors_spec hbefore, cs, by rw [payloadConverters], fun i name x hk => ?_⟩
  have hp : (⟨some (.constructor name), none, true, false, x⟩ : Part) ∈
      ks.filterMap Part.ofConstructor :=
    List.mem_filterMap.mpr ⟨_, List.mem_of_getElem? hk, rfl⟩
  exact ⟨hplanned.good _ hp, hplanned.canon _ hp, hplanned.backs _ hp⟩

theorem carries_constant {ks : List Constructor} {i : Nat} {name : String}
    (ht : w.arena.term? ty = some (.variant ks)) (hk : ks[i]? = some ⟨name, none⟩)
    (hcount : w.options.Counts (2 ^ 63) (number ks i true)) :
    Carries w table d ⟨ty, false⟩ (.constant i name (number ks i true)) := by
  intro c hg hc hb s v hv
  obtain ⟨hn, cs, rfl, -⟩ := planned_variant hg hc hb ht
  rw [wrap_whole]
  exact (constant_lands (g := fun ty => bare (cs ty)) hk hn hcount hv).imp (fun _ => trivial)
    fun _ _ _ _ h => ⟨.term ht (.constant hk hcount) trivial (by simp), h⟩

theorem carries_block {ks : List Constructor} {i : Nat} {name : String} {x : TyId}
    (ht : w.arena.term? ty = some (.variant ks)) (hk : ks[i]? = some ⟨name, some x⟩)
    (hcount : w.options.Counts (2 ^ 32) (number ks i false)) (ha : Carries w table d ⟨x, false⟩ a) :
    Carries w table d ⟨ty, false⟩ (.block i name (number ks i false) a) := by
  intro c hg hc hb s v hv
  obtain ⟨hn, cs, rfl, hpayload⟩ := planned_variant hg hc hb ht
  obtain ⟨hgx, hcx, hbx⟩ := hpayload i name x hk
  have split := Splits.block (a := a) hk hcount
  rw [wrap_whole]
  exact (block_lands (g := fun ty => bare (cs ty)) hk hn hcount hv fun p hp =>
      ha (cs x) hgx hcx hbx s p hp).imp
    (fun h => (h.term_inv ht split).2 _ (List.mem_singleton_self _))
    fun _ _ _ hg h => ⟨.term ht split trivial (by simpa using hg), h⟩

theorem carries_none {x : TyId} (ht : w.arena.term? ty = some (.option x)) :
    Carries w table d ⟨ty, false⟩ .none := by
  intro c hg hc hb s v hv
  obtain ⟨content, hassemble, -⟩ := planned_inner (d := d) hg hc hb ht rfl
  cases (Answers.pure _).unique hassemble
  cases hv
  exact absent_lands.imp (fun _ => trivial) fun _ _ _ _ h =>
    ⟨.term ht .none trivial (by simp), h ▸ .none⟩

theorem carries_some {x : TyId} (ht : w.arena.term? ty = some (.option x))
    (ha : Known w table d D ⟨x, false⟩ a) : Carries w table d ⟨ty, false⟩ (.some a) := by
  intro c hg hc hb s v hv
  obtain ⟨content, hassemble, lands⟩ := planned_inner (d := d) hg hc hb ht rfl
  cases (Answers.pure _).unique hassemble
  have split := Splits.some (o := w.options) (x := x) (a := a)
  cases hv with
  | some hv =>
      refine (mapOption_lands (lands ha.carries hv)
          (fun hblank => ha.holds.demands_nothing (.inl hblank)) hv).imp
        (fun h => (h.term_inv ht split).2 _ (List.mem_singleton_self _)) fun _ _ _ hg h => ?_
      exact ⟨.term ht split trivial (by simpa using hg), .some h⟩

theorem carries_null {x : TyId} (ht : w.arena.term? ty = some (.nullable x)) :
    Carries w table d ⟨ty, false⟩ .null := by
  intro c hg hc hb s v hv
  obtain ⟨content, hassemble, -⟩ := planned_inner (d := d) hg hc hb ht rfl
  cases (Answers.pure _).unique hassemble
  cases hv
  have passes : Lands table (.mapNullable ((bare content).step d)) s .null True
      fun _ v => v = .null := .mapNullable_null (fun _ _ => rfl) (.inl rfl)
  cases d <;> exact passes.imp (fun _ => trivial) fun _ _ _ _ h =>
    ⟨.term ht .null trivial (by simp), h ▸ .null⟩

theorem carries_value {x : TyId} (ht : w.arena.term? ty = some (.nullable x))
    (ha : Known w table d D ⟨x, false⟩ a) : Carries w table d ⟨ty, false⟩ (.value a) := by
  intro c hg hc hb s v hv
  obtain ⟨content, hassemble, lands⟩ := planned_inner (d := d) hg hc hb ht rfl
  cases (Answers.pure _).unique hassemble
  have split := Splits.value (o := w.options) (x := x) (a := a)
  cases hv with
  | value hv =>
      have step : (bare (Assembly.nullable ([bare content].headD .identity))).step d =
          .mapNullable ((bare content).step d) := by cases d <;> rfl
      have whole : Lands table (.mapNullable ((bare content).step d)) s v
          (Holds w (w.Demand d) ⟨x, false⟩ a) fun s' v' =>
            Encodes (w.options.target d) s' a v' := by
        by_cases passes : a.isNull = true ∨ a.isBlank = true
        · have carried : v.isNull = true ∨ v.isAbsent = true := by rwa [hv.isNull, hv.isAbsent]
          exact (Lands.mapNullable_null (fun _ _ => hv.of_blank passes.symm) carried).imp
            (fun _ => trivial) fun _ _ _ _ h => ⟨ha.holds.demands_nothing passes.symm, h⟩
        · rw [not_or, Bool.not_eq_true, Bool.not_eq_true] at passes
          exact .mapNullable (hv.isNull.trans passes.1) (hv.isAbsent.trans passes.2)
            (lands ha.carries hv)
      rw [wrap_whole, step]
      exact whole.imp (fun h => (h.term_inv ht split).2 _ (List.mem_singleton_self _))
        fun _ _ _ hg h => ⟨.term ht split trivial (by simpa using hg), .value h⟩

theorem carries_cell {x : TyId} (ht : w.arena.term? ty = some (.ref x))
    (ha : Known w table d D ⟨x, false⟩ a) : Carries w table d ⟨ty, false⟩ (.cell a) := by
  intro c hg hc hb s v hv
  obtain ⟨content, hassemble, lands⟩ := planned_inner (d := d) hg hc hb ht rfl
  have split := Splits.cell (o := w.options) (x := x) (a := a)
  rw [wrap_whole]
  cases hv with
  | @cell _ b hlt hv =>
      have contents := lands ha.carries hv
      rcases assemble_cell (hassemble (blank w.arena) rfl) with ⟨rfl, hnone⟩ | ⟨rfl, hsome, -⟩
      · rw [List.headD_cons] at hnone
        rw [step_of_isIdentity ((isIdentity_iff _).mpr hnone)] at contents
        obtain ⟨hg, hv'⟩ := contents.identity_inv
        have passes : Lands table (.passBox .identity) s (.box b) True
            fun s' v => Encodes (w.options.target d) s' (.cell a) v :=
          .passBox fun s' hs => (Encodes.cell hlt hv').later hs
        have holds : Holds w (w.Demand d) ⟨ty, false⟩ (.cell a) :=
          .term ht split trivial (by simpa using hg)
        cases d <;> exact passes.imp (fun _ => trivial) fun _ _ _ _ h => ⟨holds, h⟩
      · rw [List.headD_cons] at hsome ⊢
        rw [step_wrapped, if_neg fun hi => hsome ((isIdentity_iff _).mp hi)]
        refine (Lands.rebuildBox hlt contents fun _ _ _ hs h => h.later hs).imp
          (fun h => (h.term_inv ht split).2 _ (List.mem_singleton_self _)) ?_
        rintro s' _ hs hg ⟨b', rfl, hlt', hv'⟩
        exact ⟨.term ht split trivial (by simpa using hg), .cell hlt' hv'⟩

theorem carries_plain {v₀ : Value} (ht : w.arena.term? ty = some t) (hleaf : t.isLeaf = true)
    (hs : Splits w.options t (.plain v₀) []) : Carries w table d ⟨ty, false⟩ (.plain v₀) := by
  intro c hg hc hb s v hv
  cases hc.leaf_inv ht hleaf
  cases hv
  rw [wrap_whole, bare_step_none]
  refine .identity (.term ht hs ?_ (by simp)) fun _ _ => .plain
  cases hs <;> trivial

end Layers

/-! ## References -/

/-- A reference does what its node does, through the fixpoint body if there is one. -/
theorem lands_node {r : Referent} (hr : w.Resolves ty (.ok r)) {good : Prop}
    {P : Store → Value → Prop}
    (h : ∀ c, w.Good r.node → w.Canon r.node c → w.Backs table c →
      Lands table ((bare c).step d) s v good P)
    (hg : w.Good ty) (hc : w.Canon ty c) (hb : w.Backs table c) :
    Lands table ((bare c).step d) s v good P := by
  have hnode : w.Good r.node := hg.edge (.node hr)
  rcases hc.reference_inv hr with ⟨-, hcanon⟩ | ⟨hrec, hreg, hc'⟩
  · exact h c hnode hcanon hb
  · obtain ⟨b, hcanon⟩ := hnode.fine.canon
    rcases hc' with ⟨rfl, hn⟩ | ⟨rfl, -⟩
    · -- What crosses unchanged does so behind the reference, too.
      cases hcanon.eq_none_iff.mpr ((converts_node hr).not.mp hn)
      exact h none hnode hcanon hb
    · have target : ty ∈ (bare (deferring ty)).targets := mem_targets_deferring.mpr rfl
      obtain ⟨b', hbody, right⟩ := hb ty target ty .refl
      cases right.unique ⟨r, hr, hcanon⟩
      obtain ⟨body, hfind, rfl⟩ := Option.map_eq_some_iff.mp hbody
      have backs : w.Backs table body.content := fun u hu v hl =>
        hb ty target v (.head ⟨_, hbody, hu⟩ hl)
      have lands := h body.content hnode hcanon backs
      rw [show bare body.content = body.strip from rfl, step_strip] at lands
      cases d <;> exact Lands.recurse hfind lands

theorem carries_node {r : Referent} (hr : w.Resolves ty (.ok r))
    (ha : Carries w table d ⟨r.node, false⟩ a) : Carries w table d ⟨ty, false⟩ a := by
  intro c hg hc hb s v hv
  have lands := lands_node hr (fun c hg hc hb => ha c hg hc hb s v hv) hg hc hb
  exact lands.imp (fun h : Holds w (w.Demand d) ⟨ty, false⟩ a => h.node_inv hr)
    fun _ _ _ hg h => ⟨.node hr hg, h⟩

/-- Every value of a type is carried by the converter of the type. By induction on the
value, whose parts are carried by the converters of their types. -/
theorem Holds.carries (hw : w.Ready) (h : Holds w D sp a) : Carries w table d sp a := by
  induction h with
  | left =>
      intro c hg hc hb s v hv
      cases hv
      exact absent_lands.imp (fun _ => trivial) fun _ _ _ _ h => ⟨.left, h ▸ .none⟩
  | given h ih =>
      intro c hg hc hb s v hv
      cases hv with
      | some hv =>
          refine (mapOption_lands (ih c hg hc hb s _ hv)
            (fun hblank => h.demands_nothing (.inl hblank)) hv).imp (fun h => ?_)
              fun _ _ _ hg h => ⟨.given hg, .some h⟩
          cases h with
          | given h => exact h
  | @term ty t a subs ht hs hD hsub ih =>
      have parts : ∀ x ∈ subs, Known w table d D x.1 x.2 := fun x hx => ⟨hsub x hx, ih x hx⟩
      have part {sp : Spot} {a : Abstract} (h : subs = [(sp, a)]) : Known w table d D sp a :=
        parts (sp, a) (h ▸ List.mem_singleton_self _)
      cases hs with
      | scalar hfit => exact carries_plain ht rfl (.scalar hfit)
      | var => exact carries_plain ht rfl .var
      | opaqueTy => exact carries_plain ht rfl .opaqueTy
      | record hlen => exact carries_record hw ht hlen parts
      | object hlen => exact carries_object ht hlen parts
      | tuple hlen => exact carries_tuple ht hlen parts
      | array =>
          exact carries_array ht fun a ha => parts (_, a) (List.mem_map_of_mem ha)
      | constant hk hcount => exact carries_constant ht hk hcount
      | block hk hcount => exact carries_block ht hk hcount (part rfl).carries
      | none => exact carries_none ht
      | some => exact carries_some ht (part rfl)
      | null => exact carries_null ht
      | value => exact carries_value ht (part rfl)
      | cell => exact carries_cell ht (part rfl)
  | node hr _ ih => exact carries_node hr ih

end Carries

/-- What is planned finds its bodies in any table that has those it needs. -/
theorem World.Calm.backs_content {w : World} {k : Bool} {m : Memory} {x : TyId}
    {c : Assembly.Content} {t table : FixTable} (hm : w.Calm k m) (hx : w.Good x)
    (hc : w.Canon x c) (hb : ∀ u ∈ (bare c).targets, m.bodies u ≠ none) (ht : t.contents = m.bodies)
    (htable : ∀ u ∈ t.needed (bare c).targets, table.find? u = t.find? u) : w.Backs table c := by
  have agree {r u : TyId} (hr : r ∈ (bare c).targets) (hl : m.bodies.Leads r u) :
      table.contents u = m.bodies u := by
    rw [← ht] at hl ⊢
    have needed : u ∈ t.needed (bare c).targets := (FixTable.mem_needed t).mpr ⟨r, hr, hl⟩
    exact congrArg (Option.map Converter.content) (htable u needed)
  intro r hr u hl
  have leads : m.bodies.Leads r u := by
    induction hl with
    | refl => exact .refl
    | tail _ hstep ih =>
        obtain ⟨body, hbody, hu⟩ := hstep
        exact ih.tail ⟨body, agree hr ih ▸ hbody, hu⟩
  rw [agree hr leads]
  exact (hm.body hx hc hb hr leads).2

/-! ## What a session plans -/

section Sessions

variable {catalog : Catalog} {options : Options} {S : Session} {p : Planner} {n i : Nat}
  {c : Converter} {s : PlanState} {table : FixTable}

/-- The arena after a call, and any later one, is fit for planning. -/
theorem Session.Comes.ready (hS : Comes catalog options S) (hp : S.planners[i]? = some p)
    (hx : S.shared.arena.Has ty)
    (hrun : planWithin catalog options n ty ⟨S.shared, p⟩ = (.ok c, s))
    {b : Arena} (hb : b.Sound) (hsb : s.shared.arena.Within b) :
    World.Ready ⟨catalog, options, b⟩ where
  sound := hb
  spans := by
    let w : World := ⟨catalog, options, b⟩
    have begins : Begins w Cache.Quiet (World.idle p.caching) (Call.type ty).types ⟨S.shared, p⟩ :=
      hS.rests.begins hp (by simpa [Call.types] using hx)
    exact hS.rests.spans.within ((rests_call hb begins (run_type hrun)).2.trans hsb)

/-- What a planner answers finds its bodies in any table that has those it needs. -/
theorem Session.Comes.backs (hS : Comes catalog options S) (hp : S.planners[i]? = some p)
    (hx : S.shared.arena.Has ty)
    (hrun : planWithin catalog options n ty ⟨S.shared, p⟩ = (.ok c, s))
    (htable : ∀ u ∈ s.planner.fixpoints.needed c.targets,
      table.find? u = s.planner.fixpoints.find? u)
    {b : Arena} (hb : b.Sound) (hsb : s.shared.arena.Within b) :
    World.Backs ⟨catalog, options, b⟩ table c.content := by
  obtain ⟨hgood, hcanon, calm, hbodies⟩ := hS.planned hp hx hrun hb hsb
  refine calm.backs_content hgood hcanon hbodies rfl ?_
  rwa [show (bare c.content).targets = c.targets from targets_strip c]

/-- Run on what carries a value on one side, a converter ends, with what carries the same
value on the other side, unless the value has a record that does not pass. -/
theorem Session.Comes.arrives (hS : Comes catalog options S) (hp : S.planners[i]? = some p)
    (hx : S.shared.arena.Has ty)
    (hrun : planWithin catalog options n ty ⟨S.shared, p⟩ = (.ok c, s))
    (htable : ∀ u ∈ s.planner.fixpoints.needed c.targets,
      table.find? u = s.planner.fixpoints.find? u)
    {b : Arena} (hb : b.Sound) (hsb : s.shared.arena.Within b)
    {a : Abstract} (ha : Holds ⟨catalog, options, b⟩ (fun _ _ => True) ⟨ty, false⟩ a)
    (d : Direction) {σ : Store} {v : Value} (hv : Encodes (options.source d) σ a v) :
    Ends (fun depth => convertWithin table depth c d v) σ
      (Holds ⟨catalog, options, b⟩ (World.Demand ⟨catalog, options, b⟩ d) ⟨ty, false⟩ a)
      fun σ' v' => Encodes (options.target d) σ' a v' := by
  obtain ⟨hgood, hcanon, -, -⟩ := hS.planned hp hx hrun hb hsb
  have backs := hS.backs hp hx hrun htable hb hsb
  have lands := ha.carries (d := d) (hS.ready hp hx hrun hb hsb) c.content hgood hcanon backs σ v hv
  rw [wrap_whole, show bare c.content = c.strip from rfl, step_strip] at lands
  exact lands σ (.refl σ)

end Sessions

/-! ## A session with chains -/

namespace Chain

def key : Key := ⟨"Chain", "chain"⟩

def chain : TyId := ⟨5⟩

def fields : List Field := [⟨"next", ⟨6⟩, false, false⟩, ⟨"mark", ⟨7⟩, false, false⟩]

/-- A chain may go on with another, and has a mark that may be null. -/
def arena : Arena :=
  (((Arena.new.push (.named key [])).push (.option chain)).push (.nullable Scalar.int.id)).push
    (.record fields)

def catalog : Catalog := .ofDecls arena [⟨key, 0, ⟨8⟩⟩]

/-- The world in which chains are planned. -/
def world : World := ⟨catalog, .standard, arena⟩

def opened : Session := ⟨⟨arena, 0, .empty⟩, [.new true]⟩

def planned : Except Halt Converter × PlanState :=
  planWithin catalog .standard 12 chain ⟨opened.shared, .new true⟩

/-- What stands for chains: they defer to their body. -/
def converter : Converter := .custom 2 (.recurse chain .forward) (.recurse chain .backward)

/-- Their body: an object on the host's side, an array on the other. -/
def body : Converter :=
  let slots : List RecordSlot := [⟨"next", true⟩, ⟨"mark", false⟩]
  .custom 4
    (.sequence [.atField "next" (.mapOption (.recurse chain .forward)),
      .atField "mark" (.mapNullable .identity), .wrapRecord slots])
    (.sequence [.unwrapRecord slots, .atField "next" (.mapOption (.recurse chain .backward)),
      .atField "mark" (.mapNullable .identity)])

def table : FixTable := ⟨[(chain, body)]⟩

theorem sound : arena.Sound := by decide +kernel

theorem comes : Session.Comes catalog .standard opened := .joins true (.opens sound (by decide))

theorem planned_spec : planned.1 = .ok converter ∧ planned.2.shared.arena = arena ∧
    planned.2.planner.fixpoints = table := by
  decide +kernel

theorem planned_eq : planWithin catalog .standard 12 chain ⟨opened.shared, .new true⟩ =
    (.ok converter, planned.2) := by
  rw [← planned_spec.1]
  exact (Prod.eta planned).symm

theorem found : ∀ u ∈ planned.2.planner.fixpoints.needed converter.targets,
    table.find? u = planned.2.planner.fixpoints.find? u :=
  fun _ _ => by rw [planned_spec.2.2]

theorem resolves : world.Resolves chain (.ok ⟨key, ⟨8⟩, true, true⟩) := by
  show @Eq (Except Fault Referent × Arena) _ _
  decide +kernel

def link (next mark : Abstract) : Abstract := .record ["next", "mark"] [next, mark]

/-- A chain whose mark is null, and goes on with one that does not go on. -/
def links : Abstract := link (.some (link .none (.value (.plain (.int 3))))) .null

/-- What carries it on the host's side. -/
def object : Value := .object [("next", .object [("mark", .int 3)]), ("mark", .null)]

theorem link_holds {D : Term → Abstract → Prop} {next mark : Abstract}
    (hnext : Holds world D ⟨⟨6⟩, false⟩ next) (hmark : Holds world D ⟨⟨7⟩, false⟩ mark)
    (hD : D (.record fields) (link next mark)) : Holds world D ⟨chain, false⟩ (link next mark) := by
  have split : Splits .standard (.record fields) (link next mark)
      ((fields.map Field.spot).zip [next, mark]) := .record rfl
  refine .node resolves (.term rfl split hD fun x hx => ?_)
  rcases List.mem_cons.mp hx with rfl | hx
  · exact hnext
  · cases List.mem_singleton.mp hx
    exact hmark

theorem links_holds {D : Term → Abstract → Prop} (hint : D (.scalar .int) (.plain (.int 3)))
    (hD : ∀ t a, (∀ fs, t ≠ .record fs) → (∀ v, a ≠ .plain v) → D t a)
    (hlink : ∀ next mark, mark.isBlank = false → D (.record fields) (link next mark)) :
    Holds world D ⟨chain, false⟩ links := by
  have int : Holds world D ⟨Scalar.int.id, false⟩ (.plain (.int 3)) :=
    .term (t := .scalar .int) rfl (.scalar trivial) hint (by simp)
  have none : Holds world D ⟨⟨6⟩, false⟩ .none :=
    .term (t := .option chain) rfl .none (hD _ _ nofun nofun) (by simp)
  have null : Holds world D ⟨⟨7⟩, false⟩ .null :=
    .term (t := .nullable Scalar.int.id) rfl .null (hD _ _ nofun nofun) (by simp)
  have mark : Holds world D ⟨⟨7⟩, false⟩ (.value (.plain (.int 3))) :=
    .term (t := .nullable Scalar.int.id) rfl .value (hD _ _ nofun nofun) (by simpa using int)
  have next : Holds world D ⟨⟨6⟩, false⟩ (.some (link .none (.value (.plain (.int 3))))) :=
    .term (t := .option chain) rfl .some (hD _ _ nofun nofun)
      (by simpa using link_holds none mark (hlink _ _ rfl))
  exact link_holds next null (hlink _ _ rfl)

/-- Of the two fields of a chain only the option is ever left out. -/
theorem links_demanded (d : Direction) : Holds world (world.Demand d) ⟨chain, false⟩ links := by
  refine links_holds trivial (fun t a ht _ => ?_) fun next mark hmark _ _ x hx _ hblank => ?_
  · cases t <;> first | exact trivial | exact absurd rfl (ht _)
  · rcases List.mem_cons.mp hx with rfl | hx
    · exact ⟨chain, .inl rfl⟩
    · cases List.mem_singleton.mp hx
      rw [hmark] at hblank
      cases hblank

theorem link_encodes {next mark : Abstract} {u v : Value} {entries : List (String × Value)}
    {s : Store} (hu : Encodes Options.standard.host s next u)
    (hv : Encodes Options.standard.host s mark v)
    (hk : Value.Keyed entries [("next", u), ("mark", v)]) :
    Encodes Options.standard.host s (link next mark) (.object entries) := by
  have items : ∀ x ∈ [next, mark].zip [u, v], Encodes Options.standard.host s x.1 x.2 := by
    intro x hx
    rcases List.mem_cons.mp hx with rfl | hx
    · exact hu
    · cases List.mem_singleton.mp hx
      exact hv
  exact .keyed rfl rfl items hk

theorem links_encodes (s : Store) : Encodes Options.standard.host s links object := by
  have last : Encodes Options.standard.host s (link .none (.value (.plain (.int 3))))
      (.object [("mark", .int 3)]) :=
    link_encodes .none (.value .plain) (.refl _)
  exact link_encodes (.some last) .null (.refl _)

end Chain

/-- A chain arrives on the other side, with the link that is left out and the mark that is null. -/
theorem Session.Comes.arrives_chain :
    Ends (fun depth => convertWithin Chain.table depth Chain.converter .forward Chain.object) .empty
      True fun s v => Encodes Options.standard.native s Chain.links v := by
  have ends := Session.Comes.arrives Chain.comes (i := 0) (p := .new true) rfl (by decide)
    Chain.planned_eq Chain.found Chain.sound (Chain.planned_spec.2.1 ▸ .refl _)
    (Chain.links_holds trivial (fun _ _ _ _ => trivial) fun _ _ _ => trivial) .forward
    (Chain.links_encodes .empty)
  exact ends.imp (fun _ => Chain.links_demanded .forward) fun _ _ _ _ h => ⟨trivial, h⟩

end Marshal
