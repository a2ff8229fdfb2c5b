import Marshal.Proofs.Representation
import Marshal.Proofs.Shims
import Marshal.Proofs.Verdicts

/-!
# Defaults that are accepted convert

The check of a default and the converter of its type are two judgements of what a host
value of a type is. The converter asks for nothing that the check has not asked for: a
literal that fits is handed over as it is where the type is a scalar, a parameter or opaque,
it is the name or the number of a constructor where the type is a variant
(`fitsVariant_encodes`), and it passes by what is nullable. So a call in which the argument
is left out does not fail at its default (`Session.Comes.defaults_convert`).
-/

namespace Marshal

open Converter Planner PlanM Run World Value

/-! ## Literals of a variant -/

section Variants

variable {ks : List Constructor} {carrier : VariantCarrier} {lit : Literal} {side : Profile}
  {o : Options} {g : TyId → Converter} {d : Direction} {table : FixTable} {s : Store} {i : Nat}
  {name : String} {v : Value}

theorem present_ofLiteral (lit : Literal) : (Value.ofLiteral lit).Present := by
  cases lit <;> exact ⟨nofun, nofun⟩

/-- Each number below the count of nullary constructors is that of one of them. -/
theorem exists_number : ∀ {ks : List Constructor} {n : Nat},
    n < (ks.filter fun k => k.payload.isNone).length →
      ∃ (i : Nat) (name : String), ks[i]? = some ⟨name, none⟩ ∧ number ks i true = n
  | [], _, h => nomatch h
  | ⟨name, some ty⟩ :: ks, n, h => by
      obtain ⟨i, name', hk, hn⟩ := exists_number (by simpa using h)
      exact ⟨i + 1, name', hk, by simpa [number] using hn⟩
  | ⟨name, none⟩ :: ks, 0, _ => ⟨0, name, rfl, rfl⟩
  | ⟨name, none⟩ :: ks, n + 1, h => by
      obtain ⟨i, name', hk, hn⟩ := exists_number (by simpa using h)
      exact ⟨i + 1, name', hk, by simpa [number] using hn⟩

/-- A literal that fits a variant carries one of its nullary constructors. -/
theorem fitsVariant_encodes (h : fitsVariant side.variants ks lit = true) :
    ∃ (i : Nat) (name : String), ks[i]? = some ⟨name, none⟩ ∧
      ∀ s, Encodes side s (.constant i name (number ks i true)) (.ofLiteral lit) := by
  unfold fitsVariant at h
  cases hc : side.variants with
  | tagged =>
      rw [hc] at h
      cases lit with
      | string tag =>
          obtain ⟨⟨name, payload⟩, hk, hname⟩ := List.any_eq_true.mp h
          obtain ⟨hk, hnone⟩ := List.mem_filter.mp hk
          obtain ⟨i, hi⟩ := List.mem_iff_getElem?.mp hk
          cases Option.isNone_iff_eq_none.mp hnone
          cases of_decide_eq_true hname
          exact ⟨i, name, hi, fun s => .name hc⟩
      | _ => cases h
  | indexed =>
      rw [hc] at h
      cases lit with
      | int n =>
          simp only [Bool.and_eq_true, decide_eq_true_eq] at h
          have below : n.toInt.toNat < (ks.filter fun k => k.payload.isNone).length := by omega
          obtain ⟨i, name, hk, hn⟩ := exists_number below
          exact ⟨i, name, hk, fun s => .number hc (by omega)⟩
      | _ => cases h

/-- A nullary constructor is converted whatever its number is on the other side. -/
theorem constant_present (hk : ks[i]? = some ⟨name, none⟩)
    (hn : (ks.map Constructor.name).Nodup)
    (hv : Encodes (o.source d) s (.constant i name (number ks i true)) v) :
    Lands table ((bare (Assembly.variant o.host.variants o.native.variants ks
        (ks.map fun k => k.payload.map g))).step d) s v True fun _ v => v.Present := by
  rw [Assembly.step_variant]
  split
  · refine .identity trivial fun s' _ => ?_
    cases hv <;> exact ⟨nofun, nofun⟩
  · refine .of_layer fun s' _ => ?_
    have case := getElem?_caseOf (g := g) (d := d) hk
    simp only [applyLayer, decode_constant hk hn hv, Run.ofExcept, pure_bind, case]
    exact Ends.pure (Variant.encode_present (List.getElem?_eq_some_iff.mp case).1)

end Variants

/-! ## Literals that fit -/

section Literals

variable {w : World} {table : FixTable} {x y : TyId} {t : Term} {lit : Literal} {s : Store}
  {c : Assembly.Content} {r : Except Fault Unit}

theorem fits_lands (ht : w.arena.term? x = some t) (hfits : fits w.options t lit = true)
    (hg : w.Good x) (hc : w.Canon x c) (hb : w.Backs table c) :
    Lands table ((bare c).step .forward) s (.ofLiteral lit) True fun _ v => v.Present := by
  have plain (hleaf : t.isLeaf = true) :
      Lands table ((bare c).step .forward) s (.ofLiteral lit) True fun _ v => v.Present := by
    cases hc.leaf_inv ht hleaf
    exact .identity trivial fun _ _ => present_ofLiteral lit
  cases t with
  | scalar | var | opaqueTy => exact plain rfl
  | variant ks =>
      obtain ⟨hn, cs, rfl, -⟩ := planned_variant hg hc hb ht
      obtain ⟨i, name, hk, hv⟩ := fitsVariant_encodes hfits
      exact constant_present (d := .forward) hk hn (hv s)
  | _ => cases hfits

theorem nullable_lands (ht : w.arena.term? x = some (.nullable y))
    (h : ∀ c, w.Good y → w.Canon y c → w.Backs table c →
      Lands table ((bare c).step .forward) s (.ofLiteral lit) True fun _ v => v.Present)
    (hg : w.Good x) (hc : w.Canon x c) (hb : w.Backs table c) :
    Lands table ((bare c).step .forward) s (.ofLiteral lit) True fun _ v => v.Present := by
  obtain ⟨-, cs, hplanned, hassemble⟩ := planned_layer hg hc hb ht rfl
  cases (Answers.pure _).unique hassemble
  have hp : Part.inner y ∈ [Part.inner y] := List.mem_singleton_self _
  have inner := h (cs y) (hplanned.good _ hp) (hplanned.canon _ hp) (hplanned.backs _ hp)
  refine Lands.mapNullable ?_ ?_ inner
  · cases lit <;> rfl
  · cases lit <;> rfl

/-- A literal that the check accepts is converted to something. By induction on the types
that the check has passed. -/
theorem World.Judges.lands (h : w.Judges lit x r) : r = .ok () → ∀ c, w.Good x → w.Canon x c →
    w.Backs table c →
      Lands table ((bare c).step .forward) s (.ofLiteral lit) True fun _ v => v.Present := by
  induction h with
  | @last x t ht hlast =>
      intro hok c hg hc hb
      have hfits : fits w.options t lit = true := by
        unfold World.verdict at hok
        split at hok
        · assumption
        · cases hok
      cases ht with
      | own ht => exact fits_lands ht hfits hg hc hb
      | node hr ht => exact lands_node hr (fun c hg hc hb => fits_lands ht hfits hg hc hb) hg hc hb
  | inner hxy _ ih =>
      intro hok c hg hc hb
      have inner := ih hok
      cases hxy with
      | own ht => exact nullable_lands ht inner hg hc hb
      | node hr ht =>
          exact lands_node hr (fun c hg hc hb => nullable_lands ht inner hg hc hb) hg hc hb

end Literals

/-! ## Parameters that are left out -/

section Parameters

variable {w : World} {table : FixTable} {part : Part} {lit : Literal} {s : Store} {v : Value}
  {c : Assembly.Content} {d : Direction} {good : Prop} {P : Store → Value → Prop}

/-- Absence passing by makes no difference to what is there. -/
theorem wrap_lands (hv : v.isAbsent = false) (h : Lands table ((bare c).step d) s v good P) :
    Lands table ((bare (part.wrap c)).step d) s v good P := by
  rcases Part.bare_wrap part c with hwrap | hwrap
  · rwa [hwrap]
  · rw [hwrap, step_wrapped]
    split
    · next hi => exact step_of_isIdentity hi d ▸ h
    · exact .mapOption hv h

/-- The default of a part that was planned has passed its check. -/
theorem World.Admits.judges (h : w.Admits part (.ok ())) (hw : w.Ready)
    (hx : w.arena.Has part.ty) (hg : w.Good part.ty) (hlit : part.default = some lit) :
    w.Judges lit part.ty (.ok ()) := by
  rcases h.cases hw hx with ⟨_, _, -, ⟨⟩⟩ | ⟨_, hok, -⟩
  unfold Part.checkDefault at hok
  rw [hlit] at hok
  exact hg.judged hok

theorem getElem?_ofParams (convention : Convention) :
    ∀ (index : Nat) (ps : List Parameter) (j : Nat), (Part.ofParams convention index ps)[j]? =
      ps[j]?.map (Part.ofParam convention (index + j))
  | _, [], _ => rfl
  | _, _ :: _, 0 => rfl
  | index, _ :: ps, j + 1 => by
      rw [Part.ofParams, List.getElem?_cons_succ, List.getElem?_cons_succ,
        getElem?_ofParams convention (index + 1) ps j, Nat.add_assoc, Nat.add_comm 1 j]

/-- The converter of a parameter that the shim has a default for. -/
theorem Tells.argument {sig : Signature} {plan : SignaturePlan} {cs : List Assembly.Content}
    {j : Nat} (h : Tells (.signature sig) cs (.signature plan))
    (hargs : plan.args.length = plan.convention.arity)
    (hlit : plan.convention.shimDefault j = some lit) :
    ∃ c part content, plan.args[j]? = some c ∧
      (part, content) ∈ (Part.ofSignature plan.convention sig).zip cs ∧ part.default = some lit ∧
        c.content = part.wrap content := by
  obtain ⟨convention, _, hconv, ⟨⟩, rfl, htold, -⟩ := h
  obtain ⟨horder, -, harity, -⟩ := Convention.ofSignature_spec hconv
  have hj : j < plan.convention.arity := by
    rw [Convention.shimDefault, horder] at hlit
    by_contra hge
    rw [List.getElem?_eq_none (by simpa using hge)] at hlit
    cases hlit
  obtain ⟨param, hparam⟩ : ∃ param, sig.params[j]? = some param :=
    ⟨_, List.getElem?_eq_getElem (harity ▸ hj)⟩
  have harg : plan.args[j]? = some plan.args[j] := List.getElem?_eq_getElem (hargs ▸ hj)
  have hpart : (Part.ofSignature plan.convention sig)[j]? =
      some (Part.ofParam plan.convention j param) := by
    have here := getElem?_ofParams plan.convention 0 sig.params j
    rw [hparam, Nat.zero_add] at here
    exact List.getElem?_append_left (List.getElem?_eq_some_iff.mp here).1 ▸ here
  have told := congrArg (·[j]?) htold
  simp only [List.getElem?_map, List.getElem?_append_left (hargs ▸ hj), harg,
    List.getElem?_zipWith, hpart, Option.map_some] at told
  cases hcontent : cs[j]? with
  | none => simp [hcontent] at told
  | some content =>
      rw [hcontent] at told
      exact ⟨_, _, content, harg, List.mem_of_getElem? (List.getElem?_zip_eq_some.mpr
        ⟨hpart, hcontent⟩), hlit, Option.some.inj told⟩

/-- A default that was accepted is taken by what the planner made of its parameter. -/
theorem World.Calm.default_lands {k : Bool} {m m' : Memory} {sig : Signature}
    {plan : SignaturePlan} {cs : List Assembly.Content} {U : Set TyId} {t : FixTable} {j : Nat}
    (hm : w.Calm k m) (hw : w.Ready) (hx : ∀ x ∈ (Call.signature sig).types, w.arena.Has x)
    (hj : (Call.signature sig).job = .ok (.parts (Part.ofSignature plan.convention sig)))
    (hplans : w.Plans Eq (idle k) (.parts (Part.ofSignature plan.convention sig)) m
      (.ok (cs, U)) m')
    (htold : Tells (.signature sig) cs (.signature plan)) (ht : t.contents = m'.bodies)
    (htable : ∀ u ∈ t.needed (Answer.signature plan).targets, table.find? u = t.find? u)
    (hlit : plan.convention.shimDefault j = some lit) :
    ∃ c, plan.args[j]? = some c ∧
      ∀ s, Lands table (c.step .forward) s (.ofLiteral lit) True fun _ v => v.Present := by
  have asked := asked_of_job hj
  have hback := hm.backed fair_eq hj hplans htold
  obtain ⟨c, part, content, harg, hmem, hdefault, hcontent⟩ :=
    htold.argument hback.signature.2.1 hlit
  have hpart : part ∈ Part.ofSignature plan.convention sig := (List.of_mem_zip hmem).1
  have admits : w.Admits part (.ok ()) :=
    SpeaksAll.admits (((hm.stands _).speaks fair_eq hplans).2 _ _ rfl) part hpart
  obtain ⟨hgood, hcanon⟩ : w.Good part.ty ∧ w.Canon part.ty content := by
    obtain ⟨-, all⟩ := hm.result fair_eq asked hplans
    exact (List.forall₂_iff_zip.mp (List.forall₂_map_left_iff.mp all)).2 hmem
  have hcs : content ∈ cs := (List.of_mem_zip hmem).2
  have backs : w.Backs table content := by
    refine (hm.plans fair_eq asked hplans).backs_content hgood hcanon
      (hm.covered fair_eq asked hplans content hcs) ht fun u hu => htable u ?_
    obtain ⟨r, hr, hl⟩ := (FixTable.mem_needed t).mp hu
    exact (FixTable.mem_needed t).mpr ⟨r, (htold.mem_targets (length_of_plans hj hplans)).mpr
      ⟨content, hcs, hr⟩, hl⟩
  have hty : part.ty ∈ (Call.signature sig).types :=
    types_of_job hj ▸ List.mem_map_of_mem (f := Part.ty) hpart
  have judged := admits.judges hw (hx _ hty) hgood hdefault
  refine ⟨c, harg, fun s => ?_⟩
  have lands : Lands table ((bare (part.wrap content)).step .forward) s (.ofLiteral lit) True
      fun _ v => v.Present :=
    wrap_lands (by cases lit <;> rfl) (judged.lands rfl content hgood hcanon backs)
  rwa [← hcontent, show bare c.content = c.strip from rfl, step_strip] at lands

end Parameters

/-! ## What a session plans -/

/-- In every signature that a planner accepts, a default that the shim fills in is converted,
by the table of the planner and by any that has the bodies that are needed, to something that
is neither absent nor null. The argument step of the shim comes to the same where the argument
is left out. -/
theorem Session.Comes.defaults_convert {catalog : Catalog} {options : Options} {S : Session}
    {p : Planner} {i d j : Nat} {sig : Signature} {plan : SignaturePlan} {s : PlanState}
    {table : FixTable} {lit : Literal}
    (hS : Comes catalog options S) (hp : S.planners[i]? = some p)
    (hx : ∀ x ∈ (Call.signature sig).types, S.shared.arena.Has x)
    (hrun : planSignatureWithin catalog options d sig ⟨S.shared, p⟩ = (.ok plan, s))
    (htable : ∀ u ∈ s.planner.fixpoints.needed (Answer.signature plan).targets,
      table.find? u = s.planner.fixpoints.find? u)
    (hlit : plan.convention.shimDefault j = some lit) :
    ∃ c, plan.args[j]? = some c ∧ ∀ σ, ∃ v σ', v.Present ∧
      Settles (fun depth => convertWithin table depth c .forward (.ofLiteral lit)) σ (.ok v) σ' ∧
      Settles (fun depth => applyWithin table depth (argStep (some lit) c) .absent) σ
        (.ok v) σ' := by
  have called := run_signature hrun
  obtain ⟨begins, hwithin⟩ := rests_call (w := ⟨catalog, options, S.shared.arena⟩) hS.rests.sound
    (hS.rests.begins hp hx) called
  obtain ⟨hbegins, hw, hm⟩ := hS.begins hp hx called begins.sound (.refl _)
  obtain ⟨-, -, ⟨f, -, hr⟩ | ⟨job, out, hj, hplans, told⟩⟩ :=
    World.Calm.called hbegins hw hm called (by simp) (.refl _)
  · cases hr
  cases out with
  | error f => cases told
  | ok result =>
      obtain ⟨cs, U⟩ := result
      obtain ⟨_, ⟨⟩, htold⟩ := told
      obtain ⟨_, _, hconv, ⟨⟩, rfl, -⟩ := id htold
      have hjob : (Call.signature sig).job =
          .ok (.parts (Part.ofSignature plan.convention sig)) := by
        simp [Call.job, hconv]
      cases hj.symm.trans hjob
      obtain ⟨c, harg, lands⟩ := hm.default_lands hw (fun x hmem => hwithin.has (hx x hmem)) hjob
        hplans htold rfl htable hlit
      refine ⟨c, harg, fun σ => ?_⟩
      obtain ⟨r, σ', hsettles, -, hr⟩ := lands σ σ (.refl σ)
      cases r with
      | error h => exact absurd trivial hr.1
      | ok v =>
          have filled := (alike_argStep (some lit) c .absent σ (.ok v) σ').mpr hsettles
          exact ⟨v, σ', hr.2, hsettles, filled⟩

/-! ## A level that is low unless said otherwise -/

namespace Level

def key : Key := ⟨"Light", "level"⟩

/-- A level is low, or mixed of levels. -/
def arena : Arena :=
  (((Arena.new.push (.named key [])).push (.array ⟨5⟩)).push
    (.variant [⟨"low", none⟩, ⟨"mixed", some ⟨6⟩⟩])).push (.nullable ⟨5⟩)

def ty : TyId := ⟨5⟩

def catalog : Catalog := .ofDecls arena [⟨key, 0, ⟨7⟩⟩]

/-- Takes a level that may be null. -/
def dim : Signature := ⟨[⟨.optional "to" (some (.string "low")), ⟨8⟩, none⟩], Scalar.unit.id⟩

def opened : Session := ⟨⟨arena, 0, .empty⟩, [.new false]⟩

def call : Except Halt SignaturePlan × PlanState :=
  planSignatureWithin catalog .standard 9 dim ⟨opened.shared, .new false⟩

/-- The level passes by absence and by null, and defers to its body. -/
def arg : Converter :=
  .custom 5 (.mapOption (.mapNullable (.recurse ty .forward)))
    (.mapOption (.mapNullable (.recurse ty .backward)))

def dimmed : SignaturePlan where
  convention := ⟨[⟨0, some "to", true, .shim (.string "low")⟩], [0]⟩
  args := [arg]
  ret := .identity
  shim := .custom 6
    (.sequence [.wrapFunction [arg.backward] .identity, .adaptArity ⟨1, [none]⟩])
    (.sequence [.wrapFunction [.sequence [.substituteDefault (.string "low"), arg.forward]]
      .identity, .adaptArity ⟨1, [none]⟩])

theorem comes_opened : Session.Comes catalog .standard opened :=
  .joins false (.opens (by decide +kernel) (by decide))

theorem call_spec : call.1 = .ok dimmed := by decide +kernel

end Level

/-- The level that is filled in is a name on the host's side, a number on the other. -/
theorem Session.Comes.defaults_convert_level : ∃ c, Level.dimmed.args[0]? = some c ∧
    ∀ σ, ∃ v σ', v.Present ∧
      Settles (fun depth => convertWithin Level.call.2.planner.fixpoints depth c .forward
        (.ofLiteral (.string "low"))) σ (.ok v) σ' ∧
      Settles (fun depth => applyWithin Level.call.2.planner.fixpoints depth
        (argStep (some (.string "low")) c) .absent) σ (.ok v) σ' := by
  have ends : Level.call = (.ok Level.dimmed, Level.call.2) := by
    rw [← Level.call_spec, Prod.mk.eta]
  exact Session.Comes.defaults_convert Level.comes_opened (i := 0) (p := .new false) rfl
    (by decide +kernel) ends (fun _ _ => rfl) rfl

end Marshal
