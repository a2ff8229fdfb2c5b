import Marshal.Batch
import Marshal.Proofs.SelfContained

/-!
# Which plans make new cells

A cell whose contents are converted has to be rebuilt, and then the other side gets
another cell. `World.Rebuilds` says of a type that it reaches such a cell. Whether a
cell is handed over is decided from a converter of its contents that may rest on a
guess, but no wrong guess survives: the canonical content of a type and the right
bodies that it leads to have a `rebuildBox` exactly if the type reaches a cell of
contents that convert (`World.Canon.inside_iff`). So this can be read off a plan
(`Plan.rebuildsBoxes_iff`).

A plan without a `rebuildBox` leaves all cells alone, and hands on no others than those
that the value holds (`Plan.keeps_cells`).
-/

namespace Marshal

open Converter Planner Relation

/-- A new cell is made by this step. -/
abbrev Rebuild (s : Step) : Prop := s.isRebuild = true

/-! ## Cells that are reached -/

namespace World

variable {w : World} {x y t u contents : TyId} {c : Assembly.Content}

/-- The type reaches a cell whose contents are converted. -/
def Rebuilds (w : World) (x : TyId) : Prop :=
  ∃ y contents, w.Reach x y ∧ w.arena.term? y = some (.ref contents) ∧ w.Converts contents

/-- A step of which `P` holds is inside the content, or inside a body that it leads to. -/
def Inside (w : World) (P : Step → Prop) (c : Assembly.Content) : Prop :=
  (bare c).Has P ∨ ∃ t ∈ (bare c).targets, ∃ u body, ReflTransGen w.Below t u ∧ w.Body u body ∧
    (bare body).Has P

theorem Rebuilds.of_reach (h : w.Reach x y) (hy : w.Rebuilds y) : w.Rebuilds x := by
  obtain ⟨z, contents, hz, hcell⟩ := hy
  exact ⟨z, contents, h.trans hz, hcell⟩

/-- The contents of a cell are planned as its only part. -/
theorem Assembles.cell {l : Layer} {cs : TyId → Assembly.Content}
    (hl : w.layer? x (.ref contents) = some l)
    (h : w.Assembles l (l.parts.map fun p => cs p.ty) (.ok c)) :
    l.parts = [.inner contents] ∧ (cs contents ≠ none → w.options.refs = .allowRebuild) := by
  cases hl
  refine ⟨rfl, fun hn => ?_⟩
  rcases assemble_cell (h (PlanM.blank w.arena) rfl) with ⟨-, hc⟩ | ⟨-, -, hrefs⟩
  · refine absurd ?_ hn
    simpa [Part.inner, Part.wrap] using hc
  · exact hrefs

/-- A content with a `rebuildBox` is that of a type which reaches a cell to rebuild. -/
theorem Canon.rebuilds (h : w.Canon x c) (hc : (bare c).Has Rebuild) : w.Rebuilds x := by
  induction h with
  | leaf | idle => exact absurd hc not_has_bare_none
  | @layer x t l cs content ht hl hb ha hcs has ih =>
      rcases (has.has Step.marks_rebuild hl (by simp)).mp hc with ⟨_, hmem, hc⟩ | hcell
      · obtain ⟨p, hp, rfl⟩ := List.mem_map.mp hmem
        exact (ih p hp hc).of_reach (.single (.part ht hl hp))
      · obtain ⟨-, ⟨contents, rfl⟩, _, hmem, hn⟩ := hcell
        obtain ⟨p, hp, rfl⟩ := List.mem_map.mp hmem
        have inner : p.ty = contents := by
          rw [(has.cell hl).1] at hp
          exact congrArg Part.ty (List.mem_singleton.mp hp)
        refine ⟨x, contents, .refl, ht, ?_⟩
        rw [← inner]
        exact not_not.mp fun h => hn ((hcs p hp).eq_none_iff.mpr h)
  | inline hr _ _ ih => exact (ih hc).of_reach (.single (.node hr))
  | deferring =>
      rw [Planner.deferring, has_bare, Step.has_iff, Step.has_iff] at hc
      simp [Rebuild, Step.isRebuild, Step.children] at hc

theorem Below.reach (h : ReflTransGen w.Below t u) : w.Reach t u := by
  induction h with
  | refl => exact .refl
  | tail _ hstep ih =>
      obtain ⟨c, ⟨r, hr, hc⟩, hu⟩ := hstep
      exact ih.trans (.head (.node hr) (hc.targets hu).1)

/-- The contents of a cell that is reached are converted, so there is a `rebuildBox` for it. -/
theorem Canon.inside_of_cell (hcell : w.arena.term? y = some (.ref contents))
    (hconv : w.Converts contents) (h : w.Reach x y) :
    ∀ {c}, w.Good x → w.Canon x c → w.Inside Rebuild c := by
  have hy : w.Converts y := hconv.of_reach (.single (.child hcell rfl (by simp [Term.children])))
  induction h using ReflTransGen.head_induction_on with
  | refl =>
      intro c _ hc
      obtain ⟨l, hl⟩ : ∃ l, w.layer? y (.ref contents) = some l := ⟨_, rfl⟩
      obtain ⟨-, -, cs, hcs, has⟩ := hc.layer_inv hcell hl
      have part : Part.inner contents ∈ l.parts := (has.cell hl).1 ▸ List.mem_singleton_self _
      refine .inl ((has.has Step.marks_rebuild hl (by simp)).mpr (.inr ⟨trivial, ⟨_, rfl⟩, _,
        List.mem_map_of_mem part, fun hn => ?_⟩))
      exact (hcs _ part).eq_none_iff.mp hn hconv
  | @head x z hxz hzy ih =>
      intro c hx hc
      obtain ⟨d, hd⟩ := (hx.edge hxz).fine.canon
      have inside := ih (hx.edge hxz) hd
      cases hc with
      | leaf ht hl => exact absurd hxz (not_edge_of_leaf ht hl)
      | @layer _ t' l cs _ ht hl hb ha hcs has =>
          obtain ⟨p, hp, rfl⟩ := (edge_iff_part ht hl hb).mp hxz
          have part : d ∈ l.parts.map fun p => cs p.ty :=
            List.mem_map.mpr ⟨p, hp, (hcs p hp).unique hd⟩
          rcases inside with hin | ⟨t, ht', below⟩
          · exact .inl ((has.has Step.marks_rebuild hl (by simp)).mpr (.inl ⟨d, part, hin⟩))
          · exact .inr ⟨t, (has.targets hl (by simp)).mpr ⟨d, part, ht'⟩, below⟩
      | inline hr _ hc' =>
          cases (edge_iff_node hr).mp hxz
          cases hc'.unique hd
          exact inside
      | idle _ hn => exact absurd (hy.of_reach (.head hxz hzy)) hn
      | deferring hx' _ =>
          obtain ⟨r, hr, -⟩ := hx'
          cases (edge_iff_node hr).mp hxz
          refine .inr ⟨x, mem_targets_deferring.mpr rfl, ?_⟩
          rcases inside with hin | ⟨t, ht', u, body, hbelow, hbody⟩
          · exact ⟨x, d, .refl, ⟨r, hr, hd⟩, hin⟩
          · exact ⟨u, body, .head ⟨d, ⟨r, hr, hd⟩, ht'⟩ hbelow, hbody⟩

/-- The canonical content of a good type, with its bodies, has a `rebuildBox` exactly if a cell
of contents that convert is reached. -/
theorem Canon.inside_iff (h : w.Canon x c) (hx : w.Good x) :
    w.Inside Rebuild c ↔ w.Rebuilds x := by
  constructor
  · rintro (hin | ⟨t, ht, u, body, hbelow, ⟨r, hr, hbody⟩, hin⟩)
    · exact h.rebuilds hin
    · refine (hbody.rebuilds hin).of_reach ?_
      exact (h.targets ht).1.trans ((Below.reach hbelow).tail (.node hr))
  · rintro ⟨y, contents, hxy, hcell, hconv⟩
    exact inside_of_cell hcell hconv hxy hx h

/-- Where such a cell can be planned, it may be rebuilt. -/
theorem Rebuilds.allowed (h : w.Rebuilds x) (hx : w.Good x) : w.options.refs = .allowRebuild := by
  obtain ⟨y, contents, hxy, hcell, hconv⟩ := h
  obtain ⟨c, hc⟩ := (hx.reach hxy).fine.canon
  obtain ⟨l, hl⟩ : ∃ l, w.layer? y (.ref contents) = some l := ⟨_, rfl⟩
  obtain ⟨-, -, cs, hcs, has⟩ := hc.layer_inv hcell hl
  obtain ⟨parts, allowed⟩ := has.cell hl
  have part : Part.inner contents ∈ l.parts := parts ▸ List.mem_singleton_self _
  exact allowed fun hn => (hcs _ part).eq_none_iff.mp hn hconv

/-- What a new planner without a cache makes of a good type. -/
theorem Good.planned_blank (hw : w.Ready) (hx : w.Good x) (hhas : w.arena.Has x) :
    ∃ n, ∀ depth ≥ n, ∃ c s', planWithin w.catalog w.options depth x (PlanM.blank w.arena) =
      (.ok c, s') ∧ (c ≠ .identity ↔ w.Converts x) := by
  have calm : w.Calm false (PlanM.blank w.arena).memory := calm_blank
  obtain ⟨c, hc⟩ := hx.fine.canon
  obtain ⟨out, m', hplans⟩ : ∃ out m',
      w.Plans Eq (idle false) (.visit x) (PlanM.blank w.arena).memory out m' :=
    Good.planned hw _ hc hx _ _ (le_refl _) rfl
  obtain ⟨d, hd, rfl⟩ := hx.outcome fair_eq (fun _ ho => absurd ho notMem_idle)
    (calm.stands (.visit x)) hplans
  obtain ⟨n, hgoes⟩ := hplans.executes hw false rfl honestEnv_idle calm.honest
    (fun y hy => List.mem_singleton.mp hy ▸ hhas)
  refine ⟨n, fun depth hdepth => ?_⟩
  obtain ⟨r, s', used, hrun, -, made, rfl, hmade, -⟩ := hgoes depth hdepth _ (at_blank w)
  cases hmade
  refine ⟨made, s', hrun, ?_⟩
  rw [← not_iff_not, ← hd.eq_none_iff, not_not]
  cases made <;> simp [content]

end World

/-! ## Plans -/

namespace World

variable {w : World} {call : Call} {a : Answer} {k : Bool} {m : Memory} {t : FixTable}

/-- An answer and the bodies that it leads to have a `rebuildBox` exactly if the call's types
reach a cell to rebuild. -/
theorem Calm.rebuilds (hm : w.Calm k m) (h : w.Backed call a m.bodies)
    (ht : t.contents = m.bodies) :
    ((∃ c ∈ a.converters, c.Has Rebuild) ∨
        ∃ u ∈ t.needed a.targets, ∃ body, t.find? u = some body ∧ body.Has Rebuild) ↔
      ∃ x ∈ call.types, w.Rebuilds x := by
  obtain ⟨cs, htells, hcs, hbacked⟩ := id h
  have length := length_of_types hcs
  have target {u : TyId} : u ∈ a.targets ↔ ∃ c ∈ cs, u ∈ (bare c).targets :=
    htells.mem_targets length
  have right {u : TyId} (hu : u ∈ t.needed a.targets) :
      ∃ body, t.find? u = some body ∧ w.Body u body.content := (hm.backs h ht hu).2
  rw [htells.has Step.marks_rebuild length]
  constructor
  · rintro (⟨c, hc, hin⟩ | ⟨u, hu, body, hbody, hin⟩)
    · obtain ⟨x, hx, -, hcanon⟩ := exists_of_mem_right hcs hc
      exact ⟨x, hx, hcanon.rebuilds hin⟩
    · obtain ⟨body', hbody', ⟨r, hr, hcanon⟩⟩ := right hu
      cases hbody.symm.trans hbody'
      obtain ⟨root, hroot, hl⟩ := (FixTable.mem_needed t).mp hu
      obtain ⟨c, hc, hrc⟩ := target.mp hroot
      obtain ⟨x, hx, -, hxc⟩ := exists_of_mem_right hcs hc
      have reach : w.Reach root u := by
        clear hu hbody hbody' hr
        induction hl with
        | refl => exact .refl
        | tail _ hstep ih =>
            obtain ⟨b, hb, hv⟩ := hstep
            exact ih.trans (hm.sane.aims _ b (ht ▸ hb) _ hv).1
      refine ⟨x, hx, (hcanon.rebuilds (has_strip.mpr hin)).of_reach ?_⟩
      exact (hxc.targets hrc).1.trans (reach.tail (.node hr))
  · rintro ⟨x, hx, hrebuilds⟩
    obtain ⟨c, hc, hgood, hcanon⟩ := exists_of_mem_right hcs.flip hx
    rcases (hcanon.inside_iff hgood).mpr hrebuilds with hin | ⟨root, hroot, u, body, hbelow, hbody, hin⟩
    · exact .inl ⟨c, hc, hin⟩
    · have needed {v : TyId} (hbelow : ReflTransGen w.Below root v) : v ∈ t.needed a.targets := by
        induction hbelow with
        | refl => exact (FixTable.mem_needed t).mpr ⟨root, target.mpr ⟨c, hc, hroot⟩, .refl⟩
        | tail _ hstep ih =>
            obtain ⟨b, hb, hv⟩ := hstep
            obtain ⟨b', hb', hbody'⟩ := right ih
            cases hb.unique hbody'
            obtain ⟨r, hr, hl⟩ := (FixTable.mem_needed t).mp ih
            refine (FixTable.mem_needed t).mpr ⟨r, hr, hl.tail ⟨b'.content, ?_, hv⟩⟩
            rw [FixTable.contents, hb']
            rfl
      obtain ⟨b, hb, hright⟩ := right (needed hbelow)
      cases hbody.unique hright
      exact .inr ⟨u, needed hbelow, b, hb, has_strip.mp hin⟩

end World

namespace Plan

variable {available : FixTable} {key : Key} {found : Finding} {convention : Option Convention}
  {plan : Plan} {c : Converter}

theorem rebuildsBoxes_iff (h : make key found convention available = .ok plan) :
    plan.rebuildsBoxes = true ↔ (∃ c ∈ plan.converters, c.Has Rebuild) ∨
      ∃ u ∈ available.needed (plan.converters.flatMap targets), ∃ body,
        available.find? u = some body ∧ body.Has Rebuild := by
  obtain ⟨-, -, sorted, hfind, -⟩ := make_spec h
  have bodies : (∃ c ∈ plan.fixpoints.entries.map Prod.snd, c.Has Rebuild) ↔
      ∃ u ∈ available.needed (plan.converters.flatMap targets), ∃ body,
        available.find? u = some body ∧ body.Has Rebuild := by
    simp only [List.mem_map, Prod.exists, exists_eq_right, ← sorted.find?_eq_some, hfind]
    constructor
    · rintro ⟨c, ⟨u, hu⟩, hin⟩
      split at hu
      · next hn => exact ⟨u, hn, c, hu, hin⟩
      · cases hu
    · rintro ⟨u, hn, c, hu, hin⟩
      exact ⟨c, ⟨u, by rw [if_pos hn, hu]⟩, hin⟩
  rw [← bodies, rebuildsBoxes, List.any_eq_true]
  simp only [List.any_eq_true, List.mem_append, or_and_right, exists_or]
  rfl

/-- The cell is one that the value holds, if the atom is a cell. -/
def HeldCell (v : Value) : Atom → Prop
  | .box b => v.Holds (.box b)
  | .wrapper .. => True

/-- A plan that rebuilds nothing makes no cell and writes to none, and each cell in a result was
in the value. -/
theorem keeps_cells (h : make key found convention available = .ok plan)
    (hkeeps : plan.rebuildsBoxes = false)
    (hc : c ∈ plan.converters ++ plan.fixpoints.entries.map Prod.snd) (d : Direction)
    (depth : Nat) (v : Value) (st : Store) :
    (Run.convertWithin plan.fixpoints depth c d v st).2.boxes = st.boxes ∧
      ∀ r, (Run.convertWithin plan.fixpoints depth c d v st).1 = .ok r →
        ∀ b, r.Holds (.box b) → v.Holds (.box b) := by
  have none : ∀ c ∈ plan.converters ++ plan.fixpoints.entries.map Prod.snd, ¬c.Has Rebuild := by
    rintro c hc ⟨s, hs, hrebuild⟩
    rw [rebuildsBoxes, List.any_eq_false] at hkeeps
    exact hkeeps c hc (List.any_eq_true.mpr ⟨s, hs, hrebuild⟩)
  have apart {c : Converter} (hc : ¬c.Has Rebuild) (d : Direction) : ¬(c.step d).Has Rebuild := by
    rw [Converter.has_iff Step.marks_rebuild, not_or] at hc
    cases d
    · exact hc.1
    · exact hc.2
  have guard : Run.Guard (HeldCell v) (fun boxes => boxes = st.boxes) plan.fixpoints
      fun s => plan.fixpoints.Covers s ∧ ¬s.Has Rebuild := by
    refine ⟨fun s t hI hst => ⟨hI.1.hands hst, fun ht => ?_⟩, fun _ _ hI => hI.1.recurse .refl,
      fun _ _ _ => trivial, fun s hI => absurd (Step.has_iff (P := Rebuild).mpr (.inl rfl)) hI.2⟩
    have child (h : t ∈ s.children) : False := hI.2 (Step.has_iff.mpr (.inr ⟨t, h, ht⟩))
    cases hst with
    | mapOption | mapNullable | atField | rebuildBox | mapArray =>
        exact child (List.mem_singleton_self _)
    | sequence h | mapElements h | retag h => exact child h
    | recurse hbody =>
        refine apart (none _ (List.mem_append_right _ ?_)) _ ht
        exact List.mem_map_of_mem (f := Prod.snd) ((make_spec h).2.2.1.find?_eq_some.mp hbody)
  obtain ⟨cells, result⟩ := guard.applyWithin depth ⟨make_covers h hc d, apart (none c hc) d⟩
    (v := v) (fun a ha => by cases a with
      | box b => exact ha
      | wrapper => trivial) st rfl
  refine ⟨cells, fun r hr b hb => ?_⟩
  rw [show (Run.applyWithin plan.fixpoints depth (c.step d) v st).1 = _ from hr] at result
  exact result _ hb

end Plan

/-! ## The warning of a batch -/

/-- Whatever the outcome of an export, it comes with the warning exactly if it has a plan that
rebuilds cells. -/
theorem Batch.warnings_of_outcome {planning : Planning} {m : Module} {e : Export}
    {s s' : PlanState} {o : Outcome} (h : outcomeOf planning m e s = (.ok o, s')) :
    o.warnings = if o.plan.any Plan.rebuildsBoxes then
      [.warning (some (m.keyOf e)) rebuiltWarning (some rebuiltHelp)] else [] := by
  unfold outcomeOf at h
  dsimp only at h
  split at h
  · next plan _ _ =>
      cases h
      unfold accepted Outcome.warnings
      cases hr : plan.rebuildsBoxes <;> simp [hr, Diagnostic.warning, Diagnostic.isError]
  · cases h
    simp [refused, Outcome.warnings, Diagnostic.ofFault, Diagnostic.isError]
  · cases h

/-! ## In a session -/

/-- Whether a plan of an answer rebuilds cells can be told from the types of the call: they reach
a cell whose contents are converted. That needs leave, and the batch warns of it. A plan that
rebuilds nothing leaves all cells alone. -/
theorem Session.Comes.rebuilding {catalog : Catalog} {options : Options} {S : Session}
    {p : Planner} {call : Call} {d i : Nat} {a : Answer} {s : PlanState} {key : Key}
    {convention : Option Convention} {plan : Plan} (hS : Comes catalog options S)
    (hp : S.planners[i]? = some p) (hx : ∀ x ∈ call.types, S.shared.arena.Has x)
    (hrun : call.run catalog options d ⟨S.shared, p⟩ = (.ok a, s))
    (hplan : Plan.make key a.finding convention s.planner.fixpoints = .ok plan)
    {b : Arena} (hb : b.Sound) (hsb : s.shared.arena.Within b) :
    (plan.rebuildsBoxes = true ↔ ∃ x ∈ call.types, ∃ y contents,
      World.Reach ⟨catalog, options, b⟩ x y ∧ b.term? y = some (.ref contents) ∧
        ∃ n, ∀ depth ≥ n, ∃ c s', planWithin catalog options depth contents (PlanM.blank b) =
          (.ok c, s') ∧ c ≠ .identity) ∧
      (options.refs = .preserve →
        ∀ c ∈ plan.converters ++ plan.fixpoints.entries.map Prod.snd, ¬c.Has Rebuild) ∧
      (∀ planning m e (s s' : PlanState) o, Batch.outcomeOf planning m e s = (.ok o, s') →
        o.warnings = if o.plan.any Plan.rebuildsBoxes then
          [.warning (some (m.keyOf e)) Batch.rebuiltWarning (some Batch.rebuiltHelp)] else []) ∧
      (plan.rebuildsBoxes = false →
        ∀ c ∈ plan.converters ++ plan.fixpoints.entries.map Prod.snd, ∀ d depth v st,
          (Run.convertWithin plan.fixpoints depth c d v st).2.boxes = st.boxes ∧
            ∀ r, (Run.convertWithin plan.fixpoints depth c d v st).1 = .ok r →
              ∀ b, r.Holds (.box b) → v.Holds (.box b)) := by
  let w : World := ⟨catalog, options, b⟩
  obtain ⟨calm, hback⟩ := hS.answered hp hx hrun hb hsb
  have same : plan.converters = a.converters :=
    Answer.converters_of_kind (Plan.make_spec hplan).2.1
  have rebuilds : plan.rebuildsBoxes = true ↔ ∃ x ∈ call.types, w.Rebuilds x := by
    rw [Plan.rebuildsBoxes_iff hplan, same]
    exact calm.rebuilds hback rfl
  have good : ∀ x ∈ call.types, w.Good x := by
    obtain ⟨cs, -, hcs, -⟩ := hback
    intro x hx
    obtain ⟨c, -, hgood, -⟩ := exists_of_mem_right hcs.flip hx
    exact hgood
  have ran := rests_call (w := w) hb (hS.rests.begins hp hx) hrun
  have hw : w.Ready := ⟨hb, ran.1.spans.within hsb⟩
  refine ⟨rebuilds.trans ?_, fun hpreserve c hc => ?_, fun _ _ _ _ _ _ => Batch.warnings_of_outcome,
    fun hkeeps c hc => Plan.keeps_cells hplan hkeeps hc⟩
  · refine exists_congr fun x => and_congr_right fun hmem => exists₂_congr fun y contents =>
      and_congr_right fun hxy => and_congr_right fun hcell => ?_
    have edge : w.Edge y contents := .child hcell rfl (by simp [Term.children])
    have hhas : b.Has contents := hb.has_child hcell (by simp [Term.children])
    obtain ⟨n, hn⟩ := (((good x hmem).reach hxy).edge edge).planned_blank hw hhas
    constructor
    · intro hconv
      refine ⟨n, fun depth hdepth => ?_⟩
      obtain ⟨c, s', hrun', hc⟩ := hn depth hdepth
      exact ⟨c, s', hrun', hc.mpr hconv⟩
    · rintro ⟨n', hn'⟩
      obtain ⟨c, s', hrun', hc⟩ := hn (max n n') (le_max_left n n')
      obtain ⟨c', s'', hrun'', hc'⟩ := hn' (max n n') (le_max_right n n')
      cases hrun'.symm.trans hrun''
      exact hc.mp hc'
  · intro hin
    have hr : plan.rebuildsBoxes = true := by
      obtain ⟨s, hs, hrebuild⟩ := hin
      exact List.any_eq_true.mpr ⟨c, hc, List.any_eq_true.mpr ⟨s, hs, hrebuild⟩⟩
    obtain ⟨x, hmem, hrebuilds⟩ := rebuilds.mp hr
    cases (hrebuilds.allowed (good x hmem)).symm.trans hpreserve

namespace Tree

/-- The arena with a cell that holds a tree. -/
def shelf : Arena := arena.push (.ref ty)

def cell : TyId := ⟨8⟩

def callCell : Except Halt Answer × PlanState :=
  (Call.type cell).run catalog .standard 9 ⟨⟨shelf, 0, .empty⟩, .new true⟩

/-- Trees are converted, so the cell is rebuilt. -/
def rebuilt : Converter :=
  .custom 4 (.rebuildBox (.recurse ty .forward)) (.rebuildBox (.recurse ty .backward))

set_option maxRecDepth 2000 in
theorem sound_shelf : shelf.Sound := by decide

end Tree

/-- A cell with a tree. -/
theorem Session.Comes.rebuilding_cell :
    (∃ y contents, World.Reach ⟨Tree.catalog, .standard, Tree.shelf⟩ Tree.cell y ∧
        Tree.shelf.term? y = some (.ref contents) ∧ ∃ n, ∀ depth ≥ n, ∃ c s',
          planWithin Tree.catalog .standard depth contents (PlanM.blank Tree.shelf) = (.ok c, s') ∧
            c ≠ .identity) ∧
      ∃ plan, Plan.make Tree.key (.value Tree.rebuilt) none
        Tree.callCell.2.planner.fixpoints = .ok plan ∧ plan.rebuildsBoxes = true := by
  have comes : Session.Comes Tree.catalog .standard ⟨⟨Tree.shelf, 0, .empty⟩, [.new true]⟩ :=
    .joins true (.opens Tree.sound_shelf (by decide))
  have ends : (Call.type Tree.cell).run Tree.catalog .standard 9
      ⟨⟨Tree.shelf, 0, .empty⟩, .new true⟩ =
        (.ok (.converter Tree.rebuilt), Tree.callCell.2) :=
    Prod.ext (by decide +kernel) (by decide +kernel)
  have made : Plan.make Tree.key (.value Tree.rebuilt) none Tree.callCell.2.planner.fixpoints =
      .ok ⟨Tree.key, .value Tree.rebuilt, ⟨[(Tree.ty, Tree.body)]⟩⟩ := by decide +kernel
  have same : Tree.callCell.2.shared.arena = Tree.shelf := by decide +kernel
  have rebuilds : Plan.rebuildsBoxes ⟨Tree.key, .value Tree.rebuilt, ⟨[(Tree.ty, Tree.body)]⟩⟩ =
      true := by decide
  obtain ⟨told, -⟩ := Session.Comes.rebuilding comes (i := 0) (p := .new true) rfl (by decide) ends
    made Tree.sound_shelf (same ▸ .refl _)
  obtain ⟨x, hx, reached⟩ := told.mp rebuilds
  cases List.mem_singleton.mp hx
  exact ⟨reached, _, made, rebuilds⟩

end Marshal
