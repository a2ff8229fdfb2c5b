import Marshal.Proofs.Bodies
import Marshal.Proofs.Progress

/-!
# Agreement with a planner that knows nothing

Whatever a planner has in memory and takes from the cache, a planner that starts
with nothing and uses no cache comes to the same outcome (`Plans.agrees`).

At a good type both give its canonical content, as soon as nothing that is open can
be met, and the one that knows nothing comes to an end by `Good.planned`. A type
that is not good is neither settled nor in the cache, so both planners walk
through the same types that are not good, in the same order and with the same
guesses, up to the same fault. On the way only types are open that are not good
either, and those are not met from the good types by the way.
-/

namespace Marshal

open Converter

/-- The same surroundings of a planner without a cache. -/
def Env.alone (e : Env) : Env := { e with caching := false }

namespace World

open Planner Assembly

variable {w : World} {C : Set TyId} {e : Env} {m m₁ m' m₀ : Memory} {x : TyId} {c d g : Content}
  {cs : List Content} {U V : Set TyId} {rivals : Stock → Stock → Prop} {r : Referent}

/-- Other planners that do nothing are fair. -/
theorem fair_eq : w.Fair Eq where
  vouching := by rintro _ _ rfl h; exact h
  acyclic := ⟨by rintro _ _ rfl x h; exact h, by rintro _ _ rfl x h; exact .inl h⟩
  supplies := by rintro _ _ rfl h; exact h
  bodies := by rintro _ _ rfl u h; exact h

/-! ## From one stand to the next -/

theorem Stands.next (hq : w.Fair rivals) {p : Part} {ps : List Part}
    (st : w.Stands C e (.parts (p :: ps)) m) {out : Verdict}
    (h : w.Plans rivals (e.inside p.lazy) (.visit p.ty) m out m₁) :
    w.Stands C e (.parts ps) m₁ :=
  st.after_head hq h (h.keeps hq st.head trivial).sane

theorem Stands.turn (hq : w.Fair rivals) (st : w.Stands C e (.layer x) m) (hx : x ∉ Fixed C m)
    (hopen : e.find? x = none) (hr : w.Resolves x (.ok r)) (hrec : w.Recursive x)
    (h : w.Plans rivals (e.enter x none) (.visit r.node) m (.ok ([c], U)) m₁) (hc : c ≠ none) :
    w.Stands C (e.enter x (deferring x)) (.visit r.node) m₁ :=
  (st.after_first hq hx hopen hr hrec h hc
    (h.keeps hq (st.first hx hopen hr hrec) trivial).sane).2

/-! ## Good types -/

/-- Only types that are not good are open. -/
def Doomed (w : World) (e : Env) : Prop := ∀ o ∈ e.opened, ¬w.Good o

theorem Good.outcome (hq : w.Fair rivals) (hx : w.Good x) (he : w.Doomed e)
    (st : w.Stands C e (.visit x) m) {out : Verdict} (h : w.Plans rivals e (.visit x) m out m') :
    ∃ c, w.Canon x c ∧ out = .ok ([c], ∅) := by
  cases out with
  | error f => exact absurd hx ((h.keeps hq st trivial).hopeless f rfl)
  | ok result =>
      obtain ⟨cs, U⟩ := result
      obtain ⟨c, rfl⟩ := h.single
      have speaks : w.Speaks e x c U := (st.speaks hq h).2 _ _ rfl
      have empty : U = ∅ := Set.eq_empty_of_forall_notMem fun o ho =>
        he o (speaks.used o ho).1 (hx.reach (speaks.used o ho).2)
      subst empty
      exact ⟨c, speaks.good.2, rfl⟩

/-- At a good type the planner that knows nothing comes to the same outcome. -/
theorem Good.agrees (hw : w.Ready) (hq : w.Fair rivals) (hx : w.Good x) (he : w.Doomed e)
    (st : w.Stands C e (.visit x) m) (st₀ : w.Stands ∅ e.alone (.visit x) m₀) {out : Verdict}
    (h : w.Plans rivals e (.visit x) m out m') :
    ∃ m₀', w.Plans Eq e.alone (.visit x) m₀ out m₀' := by
  obtain ⟨c, hc⟩ := hx.fine.canon
  obtain ⟨out₀, m₀', h₀⟩ := Good.planned hw _ hc hx e.alone m₀ (le_refl _) rfl
  obtain ⟨d, hd, rfl⟩ := hx.outcome hq he st h
  obtain ⟨d₀, hd₀, rfl⟩ := Good.outcome (e := e.alone) fair_eq hx he st₀ h₀
  cases hd.unique hd₀
  exact ⟨m₀', h₀⟩

/-! ## Types that are not good -/

/-- A reference is good if its node is, unless it can be refused. -/
theorem good_of_node (hr : w.Resolves x (.ok r)) (h : w.Good r.node)
    (hfine : r.recursive = false ∨ w.Recursive x) : w.Good x := by
  obtain ⟨c, hc⟩ := h.fine.canon
  have canon : ∃ c, w.Canon x c := by
    rcases hfine with hn | hrec
    · exact ⟨c, .inline hr hn hc⟩
    · by_cases hconv : w.Converts x
      · exact ⟨_, .deferring hrec hconv⟩
      · exact ⟨_, .idle hrec hconv⟩
  intro y hy
  rcases Relation.ReflTransGen.cases_head hy with rfl | ⟨z, edge, hy⟩
  · exact ⟨canon, .of_node hr h.fine.grounded⟩
  · cases (edge_iff_node hr).mp edge
    exact h y hy

/-- A type that is not good is planned anew. -/
theorem Honest.unsettled (hm : w.Honest m) (hx : ¬w.Good x) : m.settled x = none :=
  Option.eq_none_iff_forall_ne_some.mpr fun c hc => hx (hm.settled x c hc).1

theorem Doomed.enter (he : w.Doomed e) (hx : ¬w.Good x) : w.Doomed (e.enter x g) := by
  intro o ho
  rw [Env.enter_opened] at ho
  rcases ho with rfl | ho
  · exact hx
  · exact he o ho

theorem Doomed.inside (he : w.Doomed e) (l : Bool) : w.Doomed (e.inside l) := he

/-- A job at a type that is not good, or at any parts. -/
def Bad (w : World) : Job → Prop
  | .visit x | .layer x => ¬w.Good x
  | .parts _ => True

theorem visit_agrees (hw : w.Ready) (hq : w.Fair rivals) (he : w.Doomed e)
    (st : w.Stands C e (.visit x) m) (st₀ : w.Stands ∅ e.alone (.visit x) m₀) {out : Verdict}
    (h : w.Plans rivals e (.visit x) m out m')
    (hbad : ¬w.Good x → ∃ m₀', w.Plans Eq e.alone (.visit x) m₀ out m₀') :
    ∃ m₀', w.Plans Eq e.alone (.visit x) m₀ out m₀' := by
  by_cases hx : w.Good x
  · exact hx.agrees hw hq he st st₀ h
  · exact hbad hx

/-- Walking through types that are not good, the planner that knows nothing does
the same. -/
theorem Plans.follows (hw : w.Ready) (hq : w.Fair rivals) {job : Job} {out : Verdict}
    (h : w.Plans rivals e job m out m') : w.Stands C e job m → Due C m job → w.Doomed e →
      w.Bad job → ∀ m₀, w.Stands ∅ e.alone job m₀ → Due ∅ m₀ job →
        ∃ m₀', w.Plans Eq e.alone job m₀ out m₀' := by
  induction h with
  | remembered hs => exact fun st _ _ hx => absurd (st.honest.settled _ _ hs).1 hx
  | adopted _ _ hk hkx | bodyless _ _ hk hkx =>
      exact fun st _ _ hx => absurd (hq.vouching _ _ hk st.honest.cached _ _ hkx).1 hx
  | settles hs hm h =>
      intro st _ _ hx
      obtain ⟨st₁, -, -⟩ := st.missed hq hs hm
      have speaks := (st₁.speaks hq h).2 _ _ rfl
      exact absurd (Speaks.good speaks).1 hx
  | hangs hs hm hU _ ih =>
      intro st _ he hx m₀ st₀ _
      obtain ⟨st₁, hdue, -⟩ := st.missed hq hs hm
      have hs₀ := st₀.honest.unsettled hx
      obtain ⟨st₁₀, hdue₀, -⟩ := st₀.missed fair_eq hs₀ (.alone rfl)
      obtain ⟨m₀', h₀⟩ := ih st₁ hdue he hx m₀ st₁₀ hdue₀
      exact ⟨m₀', .hangs hs₀ (.alone rfl) hU h₀⟩
  | fails hs hm _ ih =>
      intro st _ he hx m₀ st₀ _
      obtain ⟨st₁, hdue, -⟩ := st.missed hq hs hm
      have hs₀ := st₀.honest.unsettled hx
      obtain ⟨st₁₀, hdue₀, -⟩ := st₀.missed fair_eq hs₀ (.alone rfl)
      obtain ⟨m₀', h₀⟩ := ih st₁ hdue he hx m₀ st₁₀ hdue₀
      exact ⟨m₀', .fails hs₀ (.alone rfl) h₀⟩
  | leaf ht hl => exact fun _ _ _ hx => absurd (good_of_leaf ht hl) hx
  | refused ht hl hb => exact fun _ _ _ _ m₀ _ _ => ⟨m₀, .refused ht hl hb⟩
  | partsFail ht hl hb _ ih =>
      intro st _ he _ m₀ st₀ _
      obtain ⟨m₀', h₀⟩ := ih (st.parts ht hl) trivial he trivial m₀ (st₀.parts ht hl) trivial
      exact ⟨m₀', .partsFail ht hl hb h₀⟩
  | unassembled ht hl hb _ ha ih =>
      intro st _ he _ m₀ st₀ _
      obtain ⟨m₀', h₀⟩ := ih (st.parts ht hl) trivial he trivial m₀ (st₀.parts ht hl) trivial
      exact ⟨m₀', .unassembled ht hl hb h₀ ha⟩
  | assembled ht hl hb _ ha ih =>
      intro st _ he _ m₀ st₀ _
      obtain ⟨m₀', h₀⟩ := ih (st.parts ht hl) trivial he trivial m₀ (st₀.parts ht hl) trivial
      exact ⟨m₀', .assembled ht hl hb h₀ ha⟩
  | circles hx ho hd => exact fun _ _ _ _ m₀ _ _ => ⟨m₀, .circles (e := Env.alone _) hx ho hd⟩
  | guessed hx ho hd => exact fun _ _ _ _ m₀ _ _ => ⟨m₀, .guessed (e := Env.alone _) hx ho hd⟩
  | unresolved hx ho hr => exact fun _ _ _ _ m₀ _ _ => ⟨m₀, .unresolved hx ho hr⟩
  | inline ho hr hn _ ih =>
      intro st _ he hx m₀ st₀ _
      obtain ⟨m₀', h₀⟩ := ih (st.inline hr) trivial he
        (fun hgood => hx (good_of_node hr hgood (.inl hn))) m₀ (st₀.inline hr) trivial
      exact ⟨m₀', .inline ho hr hn h₀⟩
  | inlineFails ho hr hn _ ih =>
      intro st _ he hx m₀ st₀ _
      obtain ⟨m₀', h₀⟩ := ih (st.inline hr) trivial he
        (fun hgood => hx (good_of_node hr hgood (.inl hn))) m₀ (st₀.inline hr) trivial
      exact ⟨m₀', .inlineFails ho hr hn h₀⟩
  | grows ho hr hrec hreg => exact fun _ _ _ _ m₀ _ _ => ⟨m₀, .grows ho hr hrec hreg⟩
  | firstFails ho hr hrec hreg _ ih =>
      intro st hdue he hx m₀ st₀ hdue₀
      have hrecx := recursive_of_resolves hr hrec hreg
      have hnode : ¬w.Good _ := fun hgood => hx (good_of_node hr hgood (.inr hrecx))
      obtain ⟨m₀', h₀⟩ := ih (st.first hdue ho hr hrecx) trivial (he.enter hx) hnode m₀
        (st₀.first hdue₀ ho hr hrecx) trivial
      exact ⟨m₀', .firstFails ho hr hrec hreg h₀⟩
  | idle ho hr hrec hreg _ ih =>
      intro st hdue he hx m₀ st₀ hdue₀
      have hrecx := recursive_of_resolves hr hrec hreg
      have hnode : ¬w.Good _ := fun hgood => hx (good_of_node hr hgood (.inr hrecx))
      obtain ⟨m₀', h₀⟩ := ih (st.first hdue ho hr hrecx) trivial (he.enter hx) hnode m₀
        (st₀.first hdue₀ ho hr hrecx) trivial
      exact ⟨m₀', .idle ho hr hrec hreg h₀⟩
  | secondFails ho hr hrec hreg h hc _ ih ih' =>
      intro st hdue he hx m₀ st₀ hdue₀
      have hrecx := recursive_of_resolves hr hrec hreg
      have hnode : ¬w.Good _ := fun hgood => hx (good_of_node hr hgood (.inr hrecx))
      obtain ⟨m₁₀, h₀⟩ := ih (st.first hdue ho hr hrecx) trivial (he.enter hx) hnode m₀
        (st₀.first hdue₀ ho hr hrecx) trivial
      obtain ⟨m₀', h₀'⟩ := ih' (st.turn hq hdue ho hr hrecx h hc) trivial (he.enter hx) hnode m₁₀
        (st₀.turn fair_eq hdue₀ ho hr hrecx h₀ hc) trivial
      exact ⟨m₀', .secondFails ho hr hrec hreg h₀ hc h₀'⟩
  | defers ho hr hrec hreg h hc _ ih ih' =>
      intro st hdue he hx m₀ st₀ hdue₀
      have hrecx := recursive_of_resolves hr hrec hreg
      have hnode : ¬w.Good _ := fun hgood => hx (good_of_node hr hgood (.inr hrecx))
      obtain ⟨m₁₀, h₀⟩ := ih (st.first hdue ho hr hrecx) trivial (he.enter hx) hnode m₀
        (st₀.first hdue₀ ho hr hrecx) trivial
      obtain ⟨m₀', h₀'⟩ := ih' (st.turn hq hdue ho hr hrecx h hc) trivial (he.enter hx) hnode m₁₀
        (st₀.turn fair_eq hdue₀ ho hr hrecx h₀ hc) trivial
      exact ⟨_, .defers ho hr hrec hreg h₀ hc h₀'⟩
  | noParts => exact fun _ _ _ _ m₀ _ _ => ⟨m₀, .noParts⟩
  | partRefused ha => exact fun _ _ _ _ m₀ _ _ => ⟨m₀, .partRefused ha⟩
  | partFails ha h ih =>
      intro st _ he _ m₀ st₀ _
      obtain ⟨m₀', h₀⟩ := visit_agrees hw hq (he.inside _) st.head st₀.head h fun hx =>
        ih st.head trivial he hx m₀ st₀.head trivial
      exact ⟨m₀', .partFails ha h₀⟩
  | restFails ha h _ ih ih' =>
      intro st _ he _ m₀ st₀ _
      obtain ⟨m₁₀, h₀⟩ := visit_agrees hw hq (he.inside _) st.head st₀.head h fun hx =>
        ih st.head trivial he hx m₀ st₀.head trivial
      obtain ⟨m₀', h₀'⟩ := ih' (st.next hq h) trivial he trivial m₁₀ (st₀.next fair_eq h₀) trivial
      exact ⟨m₀', .restFails ha h₀ h₀'⟩
  | someParts ha h _ ih ih' =>
      intro st _ he _ m₀ st₀ _
      obtain ⟨m₁₀, h₀⟩ := visit_agrees hw hq (he.inside _) st.head st₀.head h fun hx =>
        ih st.head trivial he hx m₀ st₀.head trivial
      obtain ⟨m₀', h₀'⟩ := ih' (st.next hq h) trivial he trivial m₁₀ (st₀.next fair_eq h₀) trivial
      exact ⟨m₀', .someParts ha h₀ h₀'⟩

theorem SpeaksAll.good {ps : List Part} (h : w.SpeaksAll e ps cs U) :
    (∀ o, o ∉ U) → List.Forall₂ (fun x c => w.Good x ∧ w.Canon x c) (ps.map Part.ty) cs := by
  induction h with
  | nil => exact fun _ => .nil
  | @cons p ps c cs U V _ hp _ ih =>
      intro hU
      have empty : U = ∅ := Set.eq_empty_of_forall_notMem fun o ho => hU o (.inl ho)
      subst empty
      exact .cons hp.good (ih fun o ho => hU o (.inr ho))

/-! ## Between calls -/

/-- The surroundings of a planner that is not at work. -/
def idle (caching : Bool) : Env := ⟨caching, [], 0⟩

theorem honestEnv_idle {k : Bool} : w.HonestEnv (idle k) := ⟨nofun, nofun, nofun⟩

theorem notMem_idle {k : Bool} : x ∉ (idle k).opened := Env.notMem_opened.mpr rfl

/-- What is true of the memory of a planner that is not at work. -/
structure Calm (w : World) (k : Bool) (m : Memory) : Prop where
  honest : w.Honest m
  sane : w.Sane (idle k) m
  right : ∀ u, ¬w.Wrong m u

/-- What the cache holds, if it is used. -/
def Held (k : Bool) (m : Memory) : Set TyId := {x | k = true ∧ m.cache.converters x ≠ none}

namespace Calm

variable {k : Bool} {job : Job} {out : Verdict}

theorem stands (h : w.Calm k m) (job : Job) : w.Stands (Held k m) (idle k) job m where
  env := honestEnv_idle
  honest := h.honest
  above := ⟨fun _ ho => absurd ho notMem_idle, fun _ ho => absurd ho notMem_idle⟩
  apart := ⟨fun _ ho => absurd ho notMem_idle, fun hk _ hx => .inl (.inr ⟨hk, hx⟩),
    fun _ hx => hx⟩
  sane := h.sane
  near := by
    cases job with
    | visit | layer => exact fun _ _ ho => nomatch ho
    | parts => exact fun _ _ _ _ ho => nomatch ho

/-- A job that is given to a planner from outside. -/
def Asked : Job → Prop
  | .layer _ => False
  | _ => True

theorem due (hj : Asked job) : Due C m job := by
  cases job with
  | layer => exact hj.elim
  | visit | parts => trivial

theorem plans (h : w.Calm k m) (hq : w.Fair rivals) (hj : Asked job)
    (hp : w.Plans rivals (idle k) job m out m') : w.Calm k m' := by
  have st := h.stands job
  have keeps := hp.keeps hq st (due hj)
  refine ⟨(st.speaks hq hp).1, keeps.sane, fun u hu => ?_⟩
  cases out with
  | error f =>
      rcases keeps.failed f rfl u hu with hu | ⟨o, ho, -⟩
      · exact h.right u hu
      · exact absurd ho notMem_idle
  | ok result =>
      obtain ⟨explained, old⟩ := keeps.leaves _ _ rfl u hu
      by_cases hx : ∃ x ∈ job.types, w.Away (Bound (Held k m) (idle k) m') x u
      · obtain ⟨o, ho, -⟩ := explained hx
        exact absurd ho notMem_idle
      · exact h.right u (old fun x hxt ha => hx ⟨x, hxt, ha⟩)

/-- A result hangs on nothing and is canonical. -/
theorem result (h : w.Calm k m) (hq : w.Fair rivals) (hj : Asked job)
    (hp : w.Plans rivals (idle k) job m (.ok (cs, U)) m') :
    U = ∅ ∧ List.Forall₂ (fun x c => w.Good x ∧ w.Canon x c) job.types cs := by
  have st := h.stands job
  have said := (st.speaks hq hp).2 _ _ rfl
  cases job with
  | layer => exact hj.elim
  | visit x =>
      obtain ⟨c, rfl⟩ := hp.single
      have speaks : w.Speaks (idle k) x c U := said
      have empty : U = ∅ := Set.eq_empty_of_forall_notMem fun o ho =>
        notMem_idle (speaks.used o ho).1
      subst empty
      exact ⟨rfl, .cons speaks.good .nil⟩
  | parts ps =>
      have speaks : w.SpeaksAll (idle k) ps cs U := said
      have empty : U = ∅ := Set.eq_empty_of_forall_notMem fun o ho =>
        notMem_idle (speaks.used ho).1
      exact ⟨empty, speaks.good (Set.eq_empty_iff_forall_notMem.mp empty)⟩

/-- What a result defers to has its right body, and so has all that these defer to. -/
theorem body (h : w.Calm k m) (hx : w.Good x) (hc : w.Canon x c)
    (hb : ∀ t ∈ (bare c).targets, m.bodies t ≠ none) {t u : TyId} (ht : t ∈ (bare c).targets)
    (hl : m.bodies.Leads t u) : w.Good u ∧ ∃ b, m.bodies u = some b ∧ w.Body u b := by
  suffices all : w.Good u ∧ w.Recursive u ∧ w.Converts u ∧ ∃ b, m.bodies u = some b ∧
      w.Body u b from
    ⟨all.1, all.2.2.2⟩
  have right {v : TyId} (hv : w.Good v) (hrec : w.Recursive v) (hconv : w.Converts v)
      (hn : m.bodies v ≠ none) : ∃ b, m.bodies v = some b ∧ w.Body v b := by
    obtain ⟨b, hb⟩ := Option.ne_none_iff_exists'.mp hn
    exact ⟨b, hb, not_not.mp fun hnot => h.right v ⟨hv, hrec, hconv, b, hb, hnot⟩⟩
  induction hl with
  | refl =>
      obtain ⟨hreach, hrec, hconv⟩ := hc.targets ht
      exact ⟨hx.reach hreach, hrec, hconv, right (hx.reach hreach) hrec hconv (hb t ht)⟩
  | tail _ hstep ih =>
      obtain ⟨hgood, -, -, -⟩ := ih
      obtain ⟨b, hb', hu⟩ := hstep
      obtain ⟨hreach, hrec, hconv⟩ := h.sane.aims _ _ hb' _ hu
      have present := (h.sane.closed _ _ hb' hgood _ hu).resolve_right nofun
      exact ⟨hgood.reach hreach, hrec, hconv, right (hgood.reach hreach) hrec hconv present⟩

/-- From the targets of a result, the tables of any two planners hold the same bodies. -/
theorem same_bodies {k₀ : Bool} (h : w.Calm k m) (h₀ : w.Calm k₀ m₀) (hx : w.Good x)
    (hc : w.Canon x c) (hb : ∀ t ∈ (bare c).targets, m.bodies t ≠ none)
    (hb₀ : ∀ t ∈ (bare c).targets, m₀.bodies t ≠ none) {t u : TyId} (ht : t ∈ (bare c).targets)
    (hl : m.bodies.Leads t u) :
    m₀.bodies.Leads t u ∧ m₀.bodies u = m.bodies u := by
  have same {v : TyId} (hv : m.bodies.Leads t v) (hv₀ : m₀.bodies.Leads t v) :
      m₀.bodies v = m.bodies v := by
    obtain ⟨-, b, hb, hbody⟩ := h.body hx hc hb ht hv
    obtain ⟨-, b₀, hb₀, hbody₀⟩ := h₀.body hx hc hb₀ ht hv₀
    rw [hb, hb₀, hbody.unique hbody₀]
  suffices leads : m₀.bodies.Leads t u from ⟨leads, same hl leads⟩
  induction hl with
  | refl => exact .refl
  | tail hv hstep ih =>
      obtain ⟨b, hb, hu⟩ := hstep
      exact .tail ih ⟨b, (same hv ih).trans hb, hu⟩

theorem covered (h : w.Calm k m) (hq : w.Fair rivals) (hj : Asked job)
    (hp : w.Plans rivals (idle k) job m (.ok (cs, U)) m') :
    ∀ c ∈ cs, ∀ t ∈ (bare c).targets, m'.bodies t ≠ none := by
  intro c hc t ht
  rcases (hp.keeps hq (h.stands job) (due hj)).covered cs U rfl c hc t ht with h | ⟨-, o, ho, -⟩
  · exact h
  · exact nomatch ho

/-- The cache may be found with more in it. -/
theorem found (h : w.Calm k m) {c : Stock} (hv : w.Vouched c.converters) (hs : w.Supplies c)
    (hg : ∀ x, m.cache.converters x ≠ none → c.converters x ≠ none) : w.Calm k (m.found c) :=
  ⟨⟨h.honest.settled, hv⟩, ⟨hs, h.sane.aims, h.sane.closed, h.sane.settled,
    fun hk x hx => hg x (h.sane.shared hk x hx)⟩, h.right⟩

/-- Whatever a planner knows, one that uses no cache comes to the same outcome. -/
theorem agrees (h : w.Calm k m) (h₀ : w.Calm false m₀) (hw : w.Ready) (hq : w.Fair rivals)
    (hj : Asked job) (hp : w.Plans rivals (idle k) job m out m') :
    ∃ m₀', w.Plans Eq (idle false) job m₀ out m₀' := by
  have st := h.stands job
  have st₀ : w.Stands ∅ (idle k).alone job m₀ := by
    rw [show (∅ : Set TyId) = Held false m₀ by simp [Held]]
    exact h₀.stands job
  have doomed : w.Doomed (idle k) := fun _ ho => absurd ho notMem_idle
  cases job with
  | layer => exact hj.elim
  | visit x =>
      exact visit_agrees hw hq doomed st st₀ hp fun hx =>
        hp.follows hw hq st trivial doomed hx m₀ st₀ trivial
  | parts ps => exact hp.follows hw hq st trivial doomed trivial m₀ st₀ trivial

end Calm

end World

end Marshal
