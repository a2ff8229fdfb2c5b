import Marshal.Proofs.Equality
import Marshal.Proofs.Representation

/-!
# There and back

A value that is converted and then converted back is carried on its own side again, by
something that is equal to what carried it before (`Session.Comes.round_trips`). Both
ways end, and none of them is refused, if the records of the value pass both ways.

Carriers of one value are equal since equality forgets what an encoding leaves open: the
order of keys, the cells that are used, and entries that are absent.
-/

namespace Marshal

open Converter Planner PlanM Run World

/-! ## Carriers of one value -/

/-- What is handed over as it is, is equal to itself, as all but "not a number" are. -/
def SelfEqual : Term → Abstract → Prop
  | _, .plain v => ∀ s, v.Equal s v
  | _, _ => True

theorem Splits.child {o : Options} {t : Term} {a : Abstract} {subs : List (Spot × Abstract)}
    (h : Splits o t a subs) : t.isReference = false ∧ ∀ x ∈ subs, x.1.ty ∈ t.children := by
  cases h with
  | @record fs as hlen | @object fs as hlen =>
      refine ⟨rfl, fun x hx => ?_⟩
      obtain ⟨f, hf, hspot⟩ := List.mem_map.mp (List.of_mem_zip hx).1
      exact hspot ▸ List.mem_map_of_mem hf
  | @tuple tys as hlen =>
      refine ⟨rfl, fun x hx => ?_⟩
      obtain ⟨ty, hty, hspot⟩ := List.mem_map.mp (List.of_mem_zip hx).1
      exact hspot ▸ hty
  | array =>
      refine ⟨rfl, fun x hx => ?_⟩
      obtain ⟨a, -, rfl⟩ := List.mem_map.mp hx
      exact List.mem_singleton_self _
  | block hk =>
      refine ⟨rfl, fun x hx => ?_⟩
      cases List.mem_singleton.mp hx
      exact List.mem_filterMap.mpr ⟨_, List.mem_of_getElem? hk, rfl⟩
  | _ => simp [Term.isReference, Term.children]

/-- The names of a record or an object differ if it can be planned. -/
theorem World.Good.distinct {w : World} {ty : TyId} {t : Term} {fs : List Field} (h : w.Good ty)
    (ht : w.arena.term? ty = some t) (hfs : t = .record fs ∨ t = .object fs) :
    (fs.map Field.name).Nodup := by
  obtain ⟨c, hc⟩ := h.fine.canon
  rcases hfs with rfl | rfl
  · exact uniqueFields_spec (hc.layer_inv ht rfl).1
  · exact uniqueFields_spec (hc.layer_inv ht rfl).1

section Equal

variable {w : World} {sp : Spot} {a : Abstract} {side : Profile} {s : Store} {v v' : Value}
  {as : List Abstract} {vs vs' : List Value}

/-- The carriers of the items of a list are equal if those of each item are. -/
theorem equal_items (hlen : vs.length = as.length) (hvs : ∀ x ∈ as.zip vs, Encodes side s x.1 x.2)
    (hlen' : vs'.length = as.length) (hvs' : ∀ x ∈ as.zip vs', Encodes side s x.1 x.2)
    (h : ∀ a ∈ as, ∀ {v v'}, Encodes side s a v → Encodes side s a v' → v.Equal s v') :
    ∀ x ∈ vs.zip vs', x.1.isAbsent = x.2.isAbsent ∧ x.1.Equal s x.2 ∧ x.2.Equal s x.1 := by
  obtain ⟨ts, rfl, rfl, rfl⟩ := exists_triples hlen (hlen'.trans hlen.symm)
  rw [List.zip_map', List.forall_mem_map] at hvs hvs' ⊢
  intro t ht
  have ha : t.1 ∈ ts.map (·.1) := List.mem_map_of_mem ht
  exact ⟨(hvs t ht).isAbsent.trans (hvs' t ht).isAbsent.symm, h _ ha (hvs t ht) (hvs' t ht),
    h _ ha (hvs' t ht) (hvs t ht)⟩

theorem rows_equal (hlen : vs.length = as.length) (hvs : ∀ x ∈ as.zip vs, Encodes side s x.1 x.2)
    (hlen' : vs'.length = as.length) (hvs' : ∀ x ∈ as.zip vs', Encodes side s x.1 x.2)
    (h : ∀ a ∈ as, ∀ {v v'}, Encodes side s a v → Encodes side s a v' → v.Equal s v') :
    (Value.array vs).Equal s (.array vs') :=
  .array (hlen.trans hlen'.symm) fun x hx => (equal_items hlen hvs hlen' hvs' h x hx).2.1

theorem objects_equal {names : List String} {entries entries' : List (String × Value)}
    (distinct : names.Nodup) (hnames : as.length = names.length)
    (hlen : vs.length = as.length) (hvs : ∀ x ∈ as.zip vs, Encodes side s x.1 x.2)
    (hk : Value.Keyed entries (names.zip vs))
    (hlen' : vs'.length = as.length) (hvs' : ∀ x ∈ as.zip vs', Encodes side s x.1 x.2)
    (hk' : Value.Keyed entries' (names.zip vs'))
    (h : ∀ a ∈ as, ∀ {v v'}, Encodes side s a v → Encodes side s a v' → v.Equal s v') :
    (Value.object entries).Equal s (.object entries') := by
  have same := equal_items hlen hvs hlen' hvs' h
  exact .object distinct (hlen.trans hnames) (hlen'.trans hlen.symm) hk hk'
    (fun x hx => (same x hx).1) fun x hx => (same x hx).2.2

/-- What carries a value is equal to whatever else carries it on the same side. -/
theorem Holds.equal (h : Holds w SelfEqual sp a) : w.Good sp.ty →
    ∀ {v v' : Value}, Encodes side s a v → Encodes side s a v' → v.Equal s v' := by
  induction h with
  | left =>
      intro _ v v' hv hv'
      cases hv
      cases hv'
      exact ⟨1, rfl⟩
  | given _ ih =>
      intro hg v v' hv hv'
      cases hv with
      | some hv => cases hv' with
        | some hv' => exact ih hg hv hv'
  | node hr _ ih => exact fun hg v v' => ih (hg.edge (.node hr))
  | @term ty t a subs ht hs hD _ ih =>
      intro hg v v' hv hv'
      obtain ⟨hreference, hchild⟩ := hs.child
      have part : ∀ x ∈ subs, ∀ {v v'}, Encodes side s x.2 v → Encodes side s x.2 v' →
          v.Equal s v' := fun x hx v v' => ih x hx (hg.edge (.child ht hreference (hchild x hx)))
      have items {spots : List Spot} {as : List Abstract} (hlen : as.length = spots.length)
          (hsubs : subs = spots.zip as) : ∀ a ∈ as, ∀ {v v'}, Encodes side s a v →
            Encodes side s a v' → v.Equal s v' := by
        intro a ha v v' hv hv'
        obtain ⟨sp, hsp⟩ := Assembly.exists_zip hlen ha
        exact part (sp, a) (hsubs ▸ hsp) hv hv'
      cases hs with
      | scalar | var | opaqueTy =>
          cases hv
          cases hv'
          exact hD s
      | none | null =>
          cases hv
          cases hv'
          exact ⟨1, rfl⟩
      | @record fs as hlen =>
          have distinct := hg.distinct ht (.inl rfl)
          have fields := items (by simpa using hlen) rfl
          cases hv with
          | keyed hc hvlen hvs hk => cases hv' with
            | positional hc' => rw [hc] at hc'; cases hc'
            | keyed _ hvlen' hvs' hk' =>
              exact objects_equal distinct (by simpa using hlen) hvlen hvs hk hvlen' hvs' hk' fields
          | positional hc hvlen hvs => cases hv' with
            | keyed hc' => rw [hc] at hc'; cases hc'
            | positional _ hvlen' hvs' => exact rows_equal hvlen hvs hvlen' hvs' fields
      | @object fs as hlen =>
          have distinct := hg.distinct ht (.inr rfl)
          cases hv with
          | object hvlen hvs hk => cases hv' with
            | object hvlen' hvs' hk' =>
              exact objects_equal distinct (by simpa using hlen) hvlen hvs hk hvlen' hvs' hk'
                (items (by simpa using hlen) rfl)
      | @tuple tys as hlen =>
          cases hv with
          | row hvlen hvs => cases hv' with
            | row hvlen' hvs' =>
              exact rows_equal hvlen hvs hvlen' hvs' (items (by simpa using hlen) rfl)
      | array =>
          cases hv with
          | row hvlen hvs => cases hv' with
            | row hvlen' hvs' =>
              exact rows_equal hvlen hvs hvlen' hvs' fun a ha =>
                part (_, a) (List.mem_map_of_mem ha)
      | constant =>
          cases hv with
          | name hc => cases hv' with
            | name => exact ⟨1, by simp [Value.equalWithin]⟩
            | number hc' => rw [hc] at hc'; cases hc'
          | number hc hn => cases hv' with
            | name hc' => rw [hc] at hc'; cases hc'
            | number _ hn' =>
              rw [← hn', Int64.toInt_inj] at hn
              exact ⟨1, by simp [Value.equalWithin, hn]⟩
      | block =>
          cases hv with
          | tagged hc hu hk => cases hv' with
            | numbered hc' => rw [hc] at hc'; cases hc'
            | tagged _ hu' hk' =>
              exact .tagged hk hk' (hu.isAbsent.trans hu'.isAbsent.symm)
                (part _ (List.mem_singleton_self _) hu' hu)
          | numbered hc hu htag => cases hv' with
            | tagged hc' => rw [hc] at hc'; cases hc'
            | numbered _ hu' htag' =>
              rw [← htag', UInt32.toNat_inj] at htag
              exact htag ▸ .block rfl fun x hx => by
                cases List.mem_singleton.mp hx
                exact part _ (List.mem_singleton_self _) hu hu'
      | some =>
          cases hv with
          | some hv => cases hv' with
            | some hv' => exact part _ (List.mem_singleton_self _) hv hv'
      | value =>
          cases hv with
          | value hv => cases hv' with
            | value hv' => exact part _ (List.mem_singleton_self _) hv hv'
      | cell =>
          cases hv with
          | cell _ hv => cases hv' with
            | cell _ hv' => exact .box (part _ (List.mem_singleton_self _) hv hv')

end Equal

/-! ## There and back -/

section Sessions

variable {catalog : Catalog} {options : Options} {S : Session} {p : Planner} {n i : Nat} {ty : TyId}
  {c : Converter} {s : PlanState} {table : FixTable}

def Direction.opposite : Direction → Direction
  | .forward => .backward
  | .backward => .forward

theorem source_opposite (o : Options) (d : Direction) : o.source d.opposite = o.target d := by
  cases d <;> rfl

theorem target_opposite (o : Options) (d : Direction) : o.target d.opposite = o.source d := by
  cases d <;> rfl

/-- There and back, a value comes to what carries the same value, unless it has a record
that does not pass one of the ways. -/
theorem Session.Comes.round_trips (hS : Comes catalog options S) (hp : S.planners[i]? = some p)
    (hx : S.shared.arena.Has ty)
    (hrun : planWithin catalog options n ty ⟨S.shared, p⟩ = (.ok c, s))
    (htable : ∀ u ∈ s.planner.fixpoints.needed c.targets,
      table.find? u = s.planner.fixpoints.find? u)
    {b : Arena} (hb : b.Sound) (hsb : s.shared.arena.Within b)
    {a : Abstract} (ha : Holds ⟨catalog, options, b⟩ (fun _ _ => True) ⟨ty, false⟩ a)
    (d : Direction) {σ : Store} {v : Value} (hv : Encodes (options.source d) σ a v) :
    Ends (fun depth => convertWithin table depth c d v >>= convertWithin table depth c d.opposite) σ
      (Holds ⟨catalog, options, b⟩ (World.Demand ⟨catalog, options, b⟩ d) ⟨ty, false⟩ a ∧
        Holds ⟨catalog, options, b⟩ (World.Demand ⟨catalog, options, b⟩ d.opposite) ⟨ty, false⟩ a)
      fun σ' v' => Encodes (options.source d) σ' a v' ∧
        (Holds ⟨catalog, options, b⟩ SelfEqual ⟨ty, false⟩ a → v'.Equal σ' v) := by
  obtain ⟨hgood, -, -, -⟩ := hS.planned hp hx hrun hb hsb
  refine (hS.arrives hp hx hrun htable hb hsb ha d hv).bind fun σ₁ u hσ₁ _ hu => ?_
  rw [← source_opposite] at hu
  refine (hS.arrives hp hx hrun htable hb hsb ha d.opposite hu).imp id fun σ₂ v' hσ₂ hg hv' =>
    ⟨hg, ?_⟩
  rw [target_opposite] at hv'
  exact ⟨hv', fun hself => hself.equal hgood hv' (hv.later (hσ₁.trans hσ₂))⟩

/-- A chain comes back as it was, with the link that is left out and the mark that is null. -/
theorem Session.Comes.round_trips_chain :
    Ends (fun depth => convertWithin Chain.table depth Chain.converter .forward Chain.object >>=
        convertWithin Chain.table depth Chain.converter .backward) .empty True
      fun s v => Encodes Options.standard.host s Chain.links v ∧ v.Equal s Chain.object := by
  have ends := Session.Comes.round_trips Chain.comes (i := 0) (p := .new true) rfl (by decide)
    Chain.planned_eq Chain.found Chain.sound (Chain.planned_spec.2.1 ▸ .refl _)
    (Chain.links_holds trivial (fun _ _ _ _ => trivial) fun _ _ _ => trivial) .forward
    (Chain.links_encodes .empty)
  have selfEqual : Holds Chain.world SelfEqual ⟨Chain.chain, false⟩ Chain.links := by
    refine Chain.links_holds (fun s => ⟨1, ?_⟩) (fun t a _ ha => ?_) fun _ _ _ => trivial
    · simp [Value.equalWithin]
    · cases a <;> first | exact trivial | exact absurd rfl (ha _)
  exact ends.imp (fun _ => ⟨Chain.links_demanded .forward, Chain.links_demanded .backward⟩)
    fun _ _ _ _ h => ⟨trivial, h.1, h.2 selfEqual⟩

end Sessions

end Marshal
