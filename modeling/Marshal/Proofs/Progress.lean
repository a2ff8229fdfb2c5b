import Mathlib.Data.Finset.Card
import Marshal.Proofs.Execution

/-!
# Planning ends

A planner that does not use the cache comes to an end on every good type
(`Good.planned`). Planning goes down the canonical derivation of the type, until at
a recursive type it starts anew at the node; but then one more type is open, and
only types of the arena are ever open.
-/

namespace Marshal

open Converter

namespace World

open Planner Assembly

variable {w : World} {rivals : Stock → Stock → Prop} {e : Env} {m m' : Memory} {x : TyId}
  {c g : Content}

/-! ## Shapes of outcomes -/

theorem Plans.length {job : Job} {out : Verdict} (h : w.Plans rivals e job m out m') :
    ∀ {cs U}, out = .ok (cs, U) → cs.length = job.types.length := by
  induction h with
  | noParts => rintro _ _ ⟨⟩; rfl
  | inline _ _ _ _ ih => exact ih
  | someParts _ _ _ _ ih => rintro _ _ ⟨⟩; simpa [Job.types] using ih rfl
  | _ => rintro _ _ ⟨⟩ <;> rfl

theorem Plans.single {cs : List Content} {U : Set TyId}
    (h : w.Plans rivals e (.visit x) m (.ok (cs, U)) m') : ∃ c, cs = [c] :=
  List.length_eq_one_iff.mp (h.length rfl)

/-- Whether a layer is put together or refused, there is an answer. -/
theorem exists_assembles (hw : w.Ready) {t : Term} {l : Layer} (ht : w.arena.term? x = some t)
    (hl : w.layer? x t = some l) {ds : List Content} (hd : w.Assembles l ds (.ok c))
    (cs : List Content) :
    ∃ r : Except Fault Content, w.Assembles l cs (r.mapError .fault) := by
  cases t with
  | scalar | var | opaqueTy | named => cases hl
  | object | variant | tuple | array | option | nullable => cases hl; exact ⟨.ok _, .pure _⟩
  | record fields =>
      cases hl
      have slots : PlanM.Looks (fields.mapM (recordSlot w.catalog)) w.arena :=
        recordSlots_looks hw.sound hw.spans fun f hf =>
          hw.sound.has_child ht (List.mem_map_of_mem hf)
      rcases PlanM.Answers.of_bind slots (fun h => .pure h.sound _) hd with ⟨_, -, ⟨⟩⟩ | ⟨v, hv, -⟩
      exact ⟨.ok (Assembly.record _ _ fields v _), fun s hs => PlanM.bind_ok (hv s hs)⟩
  | ref =>
      cases hl
      have cell (d : Converter) : ∃ r : Except Fault Content,
          PlanM.Answers w.arena (assembleCell w.options x d) (r.mapError .fault) := by
        unfold assembleCell
        split
        · exact ⟨.ok _, .pure _⟩
        · cases w.options.refs with
          | preserve =>
              exact ⟨.error (.unsupported (w.arena.text x) refRefused),
                fun s hs => (PlanM.bind_ok (shown_run x s)).trans (by rw [hs]; rfl)⟩
          | allowRebuild => exact ⟨.ok _, .pure _⟩
      exact cell _
  | function sig =>
      rcases layer_function hl with ⟨f, -, rfl⟩ | ⟨_, -, rfl⟩
      · exact ⟨.error f, .fail f⟩
      · exact ⟨.ok _, .pure _⟩

/-! ## Going on -/

theorem exists_visit (hc : e.caching = false) (h : ∃ out m', w.Plans rivals e (.layer x) m out m') :
    ∃ out m', w.Plans rivals e (.visit x) m out m' := by
  obtain ⟨out, m', h⟩ := h
  cases hs : m.settled x with
  | some c => exact ⟨_, _, .remembered hs⟩
  | none =>
      cases out with
      | error f => exact ⟨_, _, .fails hs (.alone hc) h⟩
      | ok result =>
          obtain ⟨cs, U⟩ := result
          obtain ⟨c, rfl⟩ := List.length_eq_one_iff.mp (h.length rfl)
          rcases U.eq_empty_or_nonempty with rfl | hU
          · exact ⟨_, _, .settles hs (.alone hc) h (.alone hc)⟩
          · exact ⟨_, _, .hangs hs (.alone hc) hU h⟩

theorem exists_parts : ∀ {ps : List Part}, (∀ p ∈ ps, w.Admits p (.ok ())) →
    (∀ p ∈ ps, ∀ m, ∃ out m', w.Plans rivals (e.inside p.lazy) (.visit p.ty) m out m') →
    ∀ m, ∃ out m', w.Plans rivals e (.parts ps) m out m'
  | [], _, _, _ => ⟨_, _, .noParts⟩
  | p :: ps, ha, h, m => by
      have admits := ha p (List.mem_cons_self ..)
      obtain ⟨out, m₁, hp⟩ := h p (List.mem_cons_self ..) m
      cases out with
      | error f => exact ⟨_, _, .partFails admits hp⟩
      | ok result =>
          obtain ⟨cs, U⟩ := result
          obtain ⟨c, rfl⟩ := hp.single
          obtain ⟨out, m', hps⟩ := exists_parts (fun q hq => ha q (List.mem_cons_of_mem _ hq))
            (fun q hq => h q (List.mem_cons_of_mem _ hq)) m₁
          cases out with
          | error f => exact ⟨_, _, .restFails admits hp hps⟩
          | ok result => exact ⟨_, _, .someParts admits hp hps⟩

/-- The two turns of a recursive type, if its node can be planned with it open. -/
theorem exists_turns {r : Referent} (hopen : e.find? x = none) (hr : w.Resolves x (.ok r))
    (hrec : r.recursive = true) (hreg : r.regular = true)
    (h : ∀ g m, ∃ out m', w.Plans rivals (e.enter x g) (.visit r.node) m out m') :
    ∃ out m', w.Plans rivals e (.layer x) m out m' := by
  obtain ⟨out, m₁, h₁⟩ := h none m
  cases out with
  | error f => exact ⟨_, _, .firstFails hopen hr hrec hreg h₁⟩
  | ok result =>
      obtain ⟨cs, U⟩ := result
      obtain ⟨c, rfl⟩ := h₁.single
      by_cases hc : c = none
      · subst hc
        exact ⟨_, _, .idle hopen hr hrec hreg h₁⟩
      obtain ⟨out, m₂, h₂⟩ := h (deferring x) m₁
      cases out with
      | error f => exact ⟨_, _, .secondFails hopen hr hrec hreg h₁ hc h₂⟩
      | ok result =>
          obtain ⟨ds, V⟩ := result
          obtain ⟨d, rfl⟩ := h₂.single
          exact ⟨_, _, .defers hopen hr hrec hreg h₁ hc h₂⟩

theorem exists_open {o : Open} (hx : w.Refers x) (ho : e.find? x = some o) :
    ∃ out m', w.Plans rivals e (.layer x) m out m' := by
  by_cases hd : o.depth = e.depth
  · exact ⟨_, _, .circles hx ho hd⟩
  · exact ⟨_, _, .guessed hx ho hd⟩

/-! ## The end -/

/-- How many types may still be opened. -/
def closed (w : World) (e : Env) : Nat :=
  ((Finset.range w.arena.size).filter fun i => (e.find? ⟨i⟩).isNone).card

theorem closed_enter (hx : w.arena.Has x) (hopen : e.find? x = none) :
    w.closed (e.enter x g) < w.closed e := by
  refine Finset.card_lt_card (Finset.ssubset_iff_of_subset ?_ |>.mpr ⟨x.index, ?_, ?_⟩)
  · intro i hi
    rw [Finset.mem_filter] at hi ⊢
    refine ⟨hi.1, ?_⟩
    have hne : (⟨i⟩ : TyId) ≠ x := by
      rintro rfl
      simp at hi
    rw [← Env.enter_find?_of_ne hne]
    exact hi.2
  · rw [Finset.mem_filter, Finset.mem_range]
    exact ⟨hx, by rw [hopen]; rfl⟩
  · simp

/-- A planner without a cache ends on a good type, wherever it stands. -/
theorem Good.planned (hw : w.Ready) : ∀ n, ∀ {x c}, w.Canon x c → w.Good x → ∀ e m,
    w.closed e ≤ n → e.caching = false → ∃ out m', w.Plans rivals e (.visit x) m out m' := by
  intro n
  induction n using Nat.strong_induction_on with
  | _ n closer =>
      intro x c hc
      induction hc with
      | leaf ht hl => exact fun _ e m _ hc => exists_visit hc ⟨_, _, .leaf ht hl⟩
      | @layer x t l cs content ht hl hb ha _ hcs ih =>
          intro hx e m hn hc
          refine exists_visit hc ?_
          obtain ⟨out, m', hps⟩ := exists_parts (e := e) ha
            (fun p hp m => ih p hp (hx.edge (.part ht hl hp)) (e.inside p.lazy) m hn hc) m
          cases out with
          | error f => exact ⟨_, _, .partsFail ht hl hb hps⟩
          | ok result =>
              obtain ⟨ds, U⟩ := result
              obtain ⟨r, hr⟩ := exists_assembles hw ht hl hcs ds
              cases r with
              | error f => exact ⟨_, _, .unassembled ht hl hb hps hr⟩
              | ok d => exact ⟨_, _, .assembled ht hl hb hps hr⟩
      | @inline x r content hr hn _ ih =>
          intro hx e m hle hc
          refine exists_visit hc ?_
          cases ho : e.find? x with
          | some o => exact exists_open hr.refers ho
          | none =>
              obtain ⟨out, m', h⟩ := ih (hx.edge (.node hr)) e m hle hc
              cases out with
              | error f => exact ⟨_, _, .inlineFails ho hr hn h⟩
              | ok result => exact ⟨_, _, .inline ho hr hn h⟩
      | idle hrec | deferring hrec =>
          intro hx e m hle hc
          refine exists_visit hc ?_
          obtain ⟨r, hr, hrec, hreg⟩ := hrec
          cases ho : e.find? _ with
          | some o => exact exists_open hr.refers ho
          | none =>
              obtain ⟨t, ht, -⟩ := hr.refers
              have fewer {g : Content} := closed_enter (w := w) (g := g) (Arena.has_of_term? ht) ho
              have hnode := hx.edge (.node hr)
              obtain ⟨d, hd⟩ := hnode.fine.canon
              exact exists_turns ho hr hrec hreg fun g m =>
                closer (w.closed (e.enter _ g)) (lt_of_lt_of_le fewer hle) hd hnode _ m
                  (le_refl _) hc

end World

end Marshal
