import Marshal.Proofs.Conduct
import Marshal.Proofs.Identity

/-!
# Guarded recursion

A recursive type must not hold itself at once: on its way back to itself there has to be a
position whose values are converted when they are met. A cycle without one is a knot
(`World.Knotted`). A type that leads to a knot has no converter, and the planner says of a
type that it contains itself directly only if there is a knot.

The planner does not look for cycles. It compares the number of lazy positions around a
reference with the number around the place where the type was opened. That the comparison is
exact is an invariant of the open types (`Taut`): around each of them were at most as many,
and if there were as many, it holds at once what is planned now. Remembering has no part in
this, since a new planner without a cache fails in the same way.
-/

namespace Marshal

open Relation Planner PlanM

/-- The types that a value of this term holds at once. -/
def Term.held : Term → List TyId
  | .record fields | .object fields => (fields.filter fun f => !f.optional).map Field.ty
  | .tuple elements => elements
  | _ => []

namespace World

/-- A type holds another at once: in a position that is not lazy, or behind a reference. -/
inductive Holds (w : World) : TyId → TyId → Prop
  | part {x y : TyId} {t : Term} : w.arena.term? x = some t → y ∈ t.held → Holds w x y
  | node {x : TyId} {r : Referent} : w.Resolves x (.ok r) → Holds w x r.node

/-- A reference is reached that holds itself at once, by way of others perhaps. -/
def Knotted (w : World) (x : TyId) : Prop :=
  ∃ y, w.Reach x y ∧ w.Refers y ∧ TransGen w.Holds y y

variable {w : World} {x y : TyId} {t : Term} {l : Layer}

/-! ## Positions that are not lazy -/

theorem lazy_ofElements : ∀ {index : Nat} {tys : List TyId} {p : Part},
    p ∈ Part.ofElements index tys → p.lazy = false
  | _, [], _, h => nomatch h
  | index, ty :: tys, p, h => by
      rcases List.mem_cons.mp h with rfl | h
      · rfl
      · exact lazy_ofElements h

theorem lazy_ofParams {convention : Convention} : ∀ {index : Nat} {ps : List Parameter} {p : Part},
    p ∈ Part.ofParams convention index ps → p.lazy = true
  | _, [], _, h => nomatch h
  | index, q :: ps, p, h => by
      rcases List.mem_cons.mp h with rfl | h
      · rfl
      · exact lazy_ofParams h

/-- What a term holds at once are its parts that are not lazy. -/
theorem mem_held (hl : w.layer? x t = some l) :
    y ∈ t.held ↔ ∃ p ∈ l.parts, p.lazy = false ∧ p.ty = y := by
  cases t with
  | scalar | var | opaqueTy | named => cases hl
  | record fs | object fs =>
      cases hl
      simp [Term.held, Part.ofField, and_assoc]
  | variant ks =>
      cases hl
      simp [Term.held, Part.ofConstructor]
  | tuple tys =>
      cases hl
      rw [Term.held, ← ofElements_ty 0 tys, List.mem_map, ofElements_ty]
      exact exists_congr fun p => and_congr_right fun hp =>
        (and_iff_right (lazy_ofElements hp)).symm
  | array | option | nullable | ref => cases hl; simp [Term.held, Part.inner]
  | function sig =>
      rcases layer_function hl with ⟨_, -, rfl⟩ | ⟨convention, -, rfl⟩
      · simp [Term.held]
      · have none_held : ∀ p ∈ Part.ofSignature convention sig, p.lazy = true := by
          intro p hp
          rcases List.mem_append.mp hp with hp | hp
          · exact lazy_ofParams hp
          · cases List.mem_singleton.mp hp
            rfl
        simp only [Term.held, List.not_mem_nil, false_iff]
        rintro ⟨p, hp, hlazy, -⟩
        rw [none_held p hp] at hlazy
        cases hlazy

theorem holds_iff : w.Holds x y ↔ w.Direct x y := by
  constructor
  · rintro (⟨ht, hy⟩ | hr)
    · rename_i t
      have composite : ∃ l, w.layer? x t = some l := by
        cases t with
        | record | object | tuple => exact ⟨_, rfl⟩
        | _ => cases hy
      obtain ⟨l, hl⟩ := composite
      obtain ⟨p, hp, hlazy, rfl⟩ := (mem_held hl).mp hy
      exact .part ht hl hp hlazy
    · exact .node hr
  · rintro (⟨ht, hl, hp, hlazy⟩ | hr)
    · exact .part ht ((mem_held hl).mpr ⟨_, hp, hlazy, rfl⟩)
    · exact .node hr

theorem holds_eq : w.Holds = w.Direct := by
  funext x y
  exact propext holds_iff

/-! ## Knots have no converter -/

theorem Grounded.not_cycle (h : w.Grounded x) : ¬TransGen w.Direct x x := by
  induction h with
  | intro x _ ih =>
      intro hcycle
      obtain ⟨y, hxy, hyx⟩ := TransGen.head'_iff.mp hcycle
      exact ih y hxy (.tail' hyx hxy)

theorem Good.not_knotted (h : w.Good x) : ¬w.Knotted x := by
  rintro ⟨y, hxy, -, hcycle⟩
  rw [holds_eq] at hcycle
  exact (h y hxy).grounded.not_cycle hcycle

end World

/-! ## Only knots are refused -/

/-- Work that only looks does not come to a type that contains itself. -/
theorem PlanM.Answers.plain {α : Type} {b : Arena} {m : PlanM α} {f : Fault}
    (h : Answers b m (.error (.fault f))) (hm : Peeks m) : f.Plain :=
  (hm (blank b)).2 f (by rw [h (blank b) rfl])

namespace World

variable {w : World} {x y : TyId}

theorem Admits.plain {p : Part} {f : Fault} (h : w.Admits p (.error (.fault f))) : f.Plain := by
  obtain ⟨n, h⟩ := h
  exact (h n le_rfl).plain (check_peeks _ _ n p).2.2

theorem Resolves.plain {f : Fault} (h : w.Resolves x (.error f)) : f.Plain :=
  Catalog.resolve_plain x w.arena f (congrArg Prod.fst h)

end World

/-- The types that are held at once where a job stands. -/
def Job.heldTypes : Job → List TyId
  | .visit x | .layer x => [x]
  | .parts ps => (ps.filter fun p => !p.lazy).map Part.ty

namespace World

variable {w : World} {x y : TyId} {e : Env} {tys : List TyId}

/-- Around each open type were at most as many lazy positions as there are now, and if there
were as many, it holds these types at once. -/
def Taut (w : World) (e : Env) (tys : List TyId) : Prop :=
  ∀ o ∈ e.stack, o.depth ≤ e.depth ∧ (o.depth = e.depth → ∀ x ∈ tys, TransGen w.Direct o.ty x)

/-- Before anything is opened. -/
theorem taut_idle {k : Bool} : w.Taut (idle k) tys := fun _ ho => absurd ho List.not_mem_nil

theorem Taut.below (h : w.Taut e [x]) (hx : ∀ y ∈ tys, w.Direct x y) : w.Taut e tys := fun o ho =>
  ⟨(h o ho).1, fun hd y hy => ((h o ho).2 hd x (List.mem_singleton_self x)).tail (hx y hy)⟩

theorem Taut.step (h : w.Taut e [x]) (hxy : w.Direct x y) : w.Taut e [y] :=
  h.below fun z hz => by cases List.mem_singleton.mp hz; exact hxy

theorem Taut.enter {g : Assembly.Content} (h : w.Taut e [x]) (hxy : w.Direct x y) :
    w.Taut (e.enter x g) [y] := by
  intro o ho
  rcases List.mem_cons.mp ho with rfl | ho
  · exact ⟨le_rfl, fun _ z hz => by cases List.mem_singleton.mp hz; exact .single hxy⟩
  · exact h.step hxy o ho

/-- A lazy position is deeper than all open types. -/
theorem Taut.inside {p : Part} {ps : List Part} (h : w.Taut e (Job.parts (p :: ps)).heldTypes) :
    w.Taut (e.inside p.lazy) [p.ty] := by
  intro o ho
  obtain ⟨hle, hheld⟩ := h o ho
  cases hp : p.lazy with
  | true =>
      have deeper : o.depth < (e.inside true).depth := Nat.lt_succ_of_le hle
      exact ⟨deeper.le, fun hd => absurd hd deeper.ne⟩
  | false =>
      refine ⟨hle, fun hd x hx => hheld hd x ?_⟩
      cases List.mem_singleton.mp hx
      exact List.mem_map_of_mem (List.mem_filter.mpr ⟨List.mem_cons_self .., by rw [hp]; rfl⟩)

theorem Taut.rest {p : Part} {ps : List Part} (h : w.Taut e (Job.parts (p :: ps)).heldTypes) :
    w.Taut e (Job.parts ps).heldTypes := fun o ho =>
  ⟨(h o ho).1, fun hd x hx => (h o ho).2 hd x <|
    List.map_subset _ (List.Sublist.subset ((List.sublist_cons_self ..).filter _)) hx⟩

theorem Taut.parts {t : Term} {l : Layer} (h : w.Taut e [x]) (ht : w.arena.term? x = some t)
    (hl : w.layer? x t = some l) : w.Taut e (Job.parts l.parts).heldTypes := by
  refine h.below fun y hy => ?_
  obtain ⟨p, hp, rfl⟩ := List.mem_map.mp hy
  obtain ⟨hp, hlazy⟩ := List.mem_filter.mp hp
  exact .part ht hl hp (by simpa using hlazy)

theorem Knotted.of_edge (h : w.Knotted y) (hxy : w.Edge x y) : w.Knotted x := by
  obtain ⟨z, hyz, hz⟩ := h
  exact ⟨z, .head hxy hyz, hz⟩

/-- Without a cache, a type is found to contain itself only where a knot is reached. -/
theorem Plans.knotted {rivals : Stock → Stock → Prop} {job : Job} {m m' : Memory} {out : Verdict}
    (h : w.Plans rivals e job m out m') (hcache : e.caching = false)
    (htaut : w.Taut e job.heldTypes) :
    ∀ f, out = .error f → f.fault.Circular → ∃ x ∈ job.types, w.Knotted x := by
  have single {x y : TyId} (hxy : w.Edge x y) (h : ∃ z ∈ [y], w.Knotted z) :
      ∃ z ∈ [x], w.Knotted z := by
    simp only [List.mem_singleton, exists_eq_left] at h ⊢
    exact h.of_edge hxy
  induction h with
  | remembered | adopted | settles | hangs | leaf | assembled | guessed | inline | idle | defers
  | noParts | someParts => nofun
  | bodyless _ hcaching => rw [hcache] at hcaching; cases hcaching
  | fails _ _ _ ih => exact ih hcache htaut
  | refused _ hl hb =>
      rintro _ ⟨⟩ hf
      exact absurd hf (hb.plain (layer_peeks hl).1).2
  | unassembled _ hl _ _ ha =>
      rintro _ ⟨⟩ hf
      exact absurd hf (PlanM.Answers.plain ha ((layer_peeks hl).2 _)).2
  | partsFail ht hl _ _ ih =>
      rintro _ ⟨⟩ hf
      obtain ⟨y, hy, hknot⟩ := ih hcache (htaut.parts ht hl) _ rfl hf
      obtain ⟨p, hp, rfl⟩ := List.mem_map.mp hy
      exact ⟨_, List.mem_singleton_self _, hknot.of_edge (.part ht hl hp)⟩
  | @circles e m x o hx ho hd =>
      rintro _ ⟨⟩ -
      have cycle := (htaut o (Env.find?_mem ho)).2 hd x (List.mem_singleton_self x)
      rw [Env.find?_ty ho, ← holds_eq] at cycle
      exact ⟨x, List.mem_singleton_self x, x, .refl, hx, cycle⟩
  | unresolved _ _ hr =>
      rintro _ ⟨⟩ hf
      exact absurd hf hr.plain.2
  | inlineFails _ hr _ _ ih =>
      rintro _ ⟨⟩ hf
      exact single (.node hr) (ih hcache (htaut.step (.node hr)) _ rfl hf)
  | grows =>
      rintro _ ⟨⟩ hf
      exact absurd hf (Fault.plain_cyclic (by decide)).2
  | firstFails _ hr _ _ _ ih =>
      rintro _ ⟨⟩ hf
      exact single (.node hr) (ih hcache (htaut.enter (.node hr)) _ rfl hf)
  | secondFails _ hr _ _ _ _ _ _ ih =>
      rintro _ ⟨⟩ hf
      exact single (.node hr) (ih hcache (htaut.enter (.node hr)) _ rfl hf)
  | partRefused hp =>
      rintro _ ⟨⟩ hf
      exact absurd hf hp.plain.2
  | partFails _ _ ih =>
      rintro _ ⟨⟩ hf
      obtain ⟨y, hy, hknot⟩ := ih hcache htaut.inside _ rfl hf
      cases List.mem_singleton.mp hy
      exact ⟨_, List.mem_cons_self .., hknot⟩
  | restFails _ _ _ _ ih =>
      rintro _ ⟨⟩ hf
      obtain ⟨y, hy, hknot⟩ := ih hcache htaut.rest _ rfl hf
      exact ⟨y, List.mem_cons_of_mem _ hy, hknot⟩

end World

/-! ## In a session -/

/-- Whatever was planned before, a type that leads to a knot is given no converter, and one that is
said to contain itself directly leads to a knot. -/
theorem Session.Comes.guarded {catalog : Catalog} {options : Options} {S : Session} {p : Planner}
    {d i : Nat} {ty : TyId} {r : Except Halt Converter} {s : PlanState}
    (hS : Comes catalog options S) (hp : S.planners[i]? = some p) (hx : S.shared.arena.Has ty)
    (hrun : planWithin catalog options d ty ⟨S.shared, p⟩ = (r, s)) {b : Arena} (hb : b.Sound)
    (hsb : s.shared.arena.Within b) :
    (World.Knotted ⟨catalog, options, b⟩ ty → ∀ c, r ≠ .ok c) ∧
      ∀ name, r = .error (.fault (.cyclic name containsItself)) →
        World.Knotted ⟨catalog, options, b⟩ ty := by
  constructor
  · rintro hknot c rfl
    exact (hS.planned hp hx hrun hb hsb).1.not_knotted hknot
  · rintro name rfl
    have hx' : ∀ x ∈ (Call.type ty).types, S.shared.arena.Has x := by simpa [Call.types] using hx
    have hcall : (Call.type ty).run catalog options d ⟨S.shared, p⟩ =
        (.error (.fault (.cyclic name containsItself)), s) := bind_error hrun
    obtain ⟨begins, hw, calm⟩ := hS.begins hp hx' hcall hb hsb
    obtain ⟨-, -, ⟨f, hj, -⟩ | ⟨job, out, hj, hplans, told⟩⟩ :=
      World.Calm.called begins hw calm hcall (by simp) hsb
    · cases hj
    cases hj
    cases out with
    | ok result =>
        obtain ⟨a, ha, -⟩ := told
        cases ha
    | error f =>
        -- A planner without a cache, which has no part in what other planners did, fails alike.
        have asked : World.Calm.Asked (.visit ty) := trivial
        obtain ⟨m, hplans₀⟩ := calm.agrees calm_blank hw World.fair_eq asked hplans
        have fault : .cyclic name containsItself = f.fault := Halt.fault.inj (Except.error.inj told)
        obtain ⟨x, hmem, hknot⟩ := hplans₀.knotted rfl World.taut_idle f rfl ⟨name, fault.symm⟩
        cases List.mem_singleton.mp hmem
        exact hknot

/-! ### Two types that hold each other -/

namespace Mutual

def left : Key := ⟨"Mutual", "left"⟩

def right : Key := ⟨"Mutual", "right"⟩

/-- The left one holds the right one, which holds the left one twice, at first as an option. -/
def arena : Arena :=
  (((((Arena.new.push (.named left [])).push (.named right [])).push (.option ⟨5⟩)).push
    (.tuple [⟨6⟩])).push (.record [⟨"later", ⟨7⟩, false, false⟩, ⟨"now", ⟨5⟩, false, false⟩])).push
      (.array ⟨5⟩)

def catalog : Catalog := .ofDecls arena [⟨left, 0, ⟨8⟩⟩, ⟨right, 0, ⟨9⟩⟩]

theorem sound : arena.Sound := by decide +kernel

/-- A planner that is asked for an array of left ones. -/
def call (S : Session) (p : Planner) : Except Halt Converter × PlanState :=
  planWithin catalog .standard 9 ⟨10⟩ ⟨S.shared, p⟩

theorem call_eq (S : Session) (p : Planner) :
    planWithin catalog .standard 9 ⟨10⟩ ⟨S.shared, p⟩ = ((call S p).1, (call S p).2) :=
  (Prod.eta (call S p)).symm

def opened : Session := ⟨⟨arena, 0, .empty⟩, [.new true]⟩

/-- The planner was asked once before. -/
def asked : Session := opened.after 0 (call opened (.new true)).2

def planner : Planner := (call opened (.new true)).2.planner

def refusal : Except Halt Converter := .error (.fault (.cyclic "Mutual.left" containsItself))

theorem refuses : (call opened (.new true)).1 = refusal := by decide +kernel

theorem refuses_again : (call asked planner).1 = refusal := by decide +kernel

theorem comes_asked : Session.Comes catalog .standard asked := by
  have started : Session.Comes catalog .standard opened := .joins true (.opens sound (by decide))
  have ends := call_eq opened (.new true)
  rw [refuses] at ends
  have refused : (Call.type ⟨10⟩).run catalog .standard 9 ⟨opened.shared, .new true⟩ = _ :=
    bind_error ends
  exact .calls started rfl (by decide +kernel) refused nofun

end Mutual

/-- The left one is open below an option when it is met again, and then once more below nothing. -/
theorem Session.Comes.guarded_mutual :
    (Mutual.call Mutual.asked Mutual.planner).1 = Mutual.refusal ∧
      World.Knotted ⟨Mutual.catalog, .standard, Mutual.arena⟩ ⟨10⟩ := by
  have ends := Mutual.call_eq Mutual.asked Mutual.planner
  have arena : (Mutual.call Mutual.asked Mutual.planner).2.shared.arena = Mutual.arena := by
    decide +kernel
  rw [Mutual.refuses_again] at ends
  have guarded := Session.Comes.guarded Mutual.comes_asked (i := 0) rfl (by decide +kernel) ends
    Mutual.sound (arena ▸ .refl _)
  exact ⟨Mutual.refuses_again, guarded.2 _ rfl⟩

end Marshal
