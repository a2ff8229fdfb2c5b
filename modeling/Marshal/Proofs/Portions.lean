import Marshal.Proofs.Agreement

/-!
# Looking at some types only

A planner that was asked for some types only looks up types that these lead to. What
it remembers and finds in the cache of other types can be left out (`Memory.on`), and
with that what other planners share of them (`Plans.on`).
-/

namespace Marshal

open Converter

/-! ## Leaving types out -/

open Classical in
/-- The entries of these types. -/
noncomputable def Contents.on (R : Set TyId) (f : Contents) : Contents :=
  fun u => if u ∈ R then f u else none

/-- The converters of these types, and all bodies. -/
noncomputable def Stock.on (R : Set TyId) (k : Stock) : Stock :=
  { k with converters := k.converters.on R }

noncomputable def Memory.on (R : Set TyId) (m : Memory) : Memory :=
  { m with settled := m.settled.on R, cache := m.cache.on R }

/-- What other planners do, seen with these types only. -/
def Seen (R : Set TyId) (rivals : Stock → Stock → Prop) (k k' : Stock) : Prop :=
  ∃ l l', rivals l l' ∧ l.on R = k ∧ l'.on R = k'

section On

variable {R : Set TyId} {f : Contents} {k : Stock} {m : Memory} {x u : TyId}
  {c : Assembly.Content}

theorem Contents.on_mem (hx : x ∈ R) : f.on R x = f x := if_pos hx

theorem Contents.on_notMem (hx : x ∉ R) : f.on R x = none := if_neg hx

theorem Contents.on_eq_some : f.on R x = some c ↔ x ∈ R ∧ f x = some c := by
  by_cases hx : x ∈ R
  · simp [on_mem, hx]
  · simp [on_notMem, hx]

theorem Contents.on_ne_none : f.on R x ≠ none ↔ x ∈ R ∧ f x ≠ none := by
  by_cases hx : x ∈ R
  · simp [on_mem, hx]
  · simp [on_notMem, hx]

theorem Contents.on_put (hx : x ∈ R) : (f.put x c).on R = (f.on R).put x c := by
  funext u
  by_cases hu : u = x
  · subst hu
    rw [on_mem hx, put_self, put_self]
  · rw [put_of_ne hu, on, on, put_of_ne hu]

theorem Contents.on_keep (hx : x ∈ R) : (f.keep x c).on R = (f.on R).keep x c := by
  funext u
  by_cases hu : u = x
  · subst hu
    rw [on_mem hx, keep_self, keep_self, on_mem hx]
  · rw [keep_of_ne hu, on, on, keep_of_ne hu]

theorem Memory.on_remember (hx : x ∈ R) : (m.remember x c).on R = (m.on R).remember x c := by
  rw [on, remember, Contents.on_put hx]
  rfl

theorem Stock.on_keep (hx : x ∈ R) : Stock.on R { k with converters := k.converters.keep x c } =
    { k.on R with converters := (k.on R).converters.keep x c } :=
  congrArg (Stock.mk · k.bodies) (Contents.on_keep hx)

theorem Memory.on_found : (m.found k).on R = (m.on R).found (k.on R) := rfl

end On

namespace World

variable {w : World} {R : Set TyId} {rivals : Stock → Stock → Prop} {e : Env} {m m' : Memory}
  {k k' : Stock} {x : TyId} {c d : Assembly.Content}

theorem Takes.on {stack : List TyId} {ok : Bool} (h : Takes rivals m stack m' ok) :
    Takes (Seen R rivals) (m.on R) stack (m'.on R) ok := by
  induction h with
  | done => exact .done
  | skip hn _ ih => exact .skip hn ih
  | take hn hk hc _ ih => exact .take hn ⟨_, _, hk, rfl, rfl⟩ hc ih
  | missing hn hk hc => exact .missing hn ⟨_, _, hk, rfl, rfl⟩ hc

theorem Publishes.on {bodies : Contents} {tys : List TyId}
    (h : Publishes rivals bodies k tys k') :
    Publishes (Seen R rivals) bodies (k.on R) tys (k'.on R) := by
  induction h with
  | done => exact .done
  | skip hn _ ih => exact .skip hn ih
  | offer hb hk _ ih => exact .offer hb ⟨_, _, hk, rfl, rfl⟩ ih

theorem Misses.on (hx : x ∈ R) (h : Misses rivals e m x m') :
    Misses (Seen R rivals) e (m.on R) x (m'.on R) := by
  cases h with
  | alone hc => exact .alone hc
  | shared hc hk hn => exact .shared hc ⟨_, _, hk, rfl, rfl⟩ ((Contents.on_mem hx).trans hn)

theorem Settles.on (hx : x ∈ R) (h : Settles rivals e m x c d m') :
    Settles (Seen R rivals) e (m.on R) x c d (m'.on R) := by
  cases h with
  | alone hc =>
      rw [Memory.on_remember hx]
      exact .alone hc
  | @shared tys k k₁ hc hn hp hk =>
      have same : (k₁.on R).converters x = k₁.converters x := Contents.on_mem hx
      rw [Memory.on_found, Memory.on_remember hx, Stock.on_keep hx, ← same]
      exact .shared hc hn hp.on ⟨_, _, hk, rfl, rfl⟩

/-- Whatever the types lead to is among them. -/
def Closed (w : World) (R : Set TyId) : Prop := ∀ x ∈ R, ∀ y, w.Edge x y → y ∈ R

section Closed

variable {t : Term} {l : Planner.Layer} {r : Referent} {p : Planner.Part} {ps : List Planner.Part}

/-- The job is about these types. -/
def About (R : Set TyId) (job : Job) : Prop := ∀ x ∈ job.types, x ∈ R

theorem About.visited (h : About R (.visit x)) : x ∈ R := h x (List.mem_singleton_self x)

theorem About.one (hx : x ∈ R) : About R (.visit x) := fun y hy => by
  cases List.mem_singleton.mp hy
  exact hx

theorem About.node (hR : w.Closed R) (hr : w.Resolves x (.ok r)) (h : About R (.layer x)) :
    About R (.visit r.node) :=
  .one (hR x (h x (List.mem_singleton_self x)) _ (.node hr))

theorem About.parts (hR : w.Closed R) (ht : w.arena.term? x = some t)
    (hl : w.layer? x t = some l) (h : About R (.layer x)) : About R (.parts l.parts) := by
  intro y hy
  obtain ⟨p, hp, rfl⟩ := List.mem_map.mp hy
  exact hR x (h x (List.mem_singleton_self x)) _ (.part ht hl hp)

theorem About.head (h : About R (.parts (p :: ps))) : About R (.visit p.ty) :=
  .one (h _ (List.mem_cons_self ..))

theorem About.tail (h : About R (.parts (p :: ps))) : About R (.parts ps) :=
  fun y hy => h y (List.mem_cons_of_mem _ hy)

end Closed

/-- Planning these types goes on as before if all others are left out. -/
theorem Plans.on (hR : w.Closed R) {job : Job} {out : Verdict}
    (h : w.Plans rivals e job m out m') :
    About R job → w.Plans (Seen R rivals) e job (m.on R) out (m'.on R) := by
  induction h with
  | remembered hs => exact fun h => .remembered ((Contents.on_mem h.visited).trans hs)
  | adopted hs hc hk hkx ht =>
      intro h
      rw [Memory.on_remember h.visited]
      exact .adopted ((Contents.on_mem h.visited).trans hs) hc ⟨_, _, hk, rfl, rfl⟩
        ((Contents.on_mem h.visited).trans hkx) ht.on
  | bodyless hs hc hk hkx ht =>
      intro h
      exact .bodyless ((Contents.on_mem h.visited).trans hs) hc ⟨_, _, hk, rfl, rfl⟩
        ((Contents.on_mem h.visited).trans hkx) ht.on
  | settles hs hm _ hset ih =>
      intro h
      exact .settles ((Contents.on_mem h.visited).trans hs) (hm.on h.visited) (ih h)
        (hset.on h.visited)
  | hangs hs hm hU _ ih =>
      exact fun h => .hangs ((Contents.on_mem h.visited).trans hs) (hm.on h.visited) hU (ih h)
  | fails hs hm _ ih =>
      exact fun h => .fails ((Contents.on_mem h.visited).trans hs) (hm.on h.visited) (ih h)
  | leaf ht hl => exact fun _ => .leaf ht hl
  | refused ht hl hb => exact fun _ => .refused ht hl hb
  | partsFail ht hl hb _ ih => exact fun h => .partsFail ht hl hb (ih (h.parts hR ht hl))
  | unassembled ht hl hb _ ha ih => exact fun h => .unassembled ht hl hb (ih (h.parts hR ht hl)) ha
  | assembled ht hl hb _ ha ih => exact fun h => .assembled ht hl hb (ih (h.parts hR ht hl)) ha
  | circles hx ho hd => exact fun _ => .circles hx ho hd
  | guessed hx ho hd => exact fun _ => .guessed hx ho hd
  | unresolved hx ho hr => exact fun _ => .unresolved hx ho hr
  | inline ho hr hn _ ih => exact fun h => .inline ho hr hn (ih (h.node hR hr))
  | inlineFails ho hr hn _ ih => exact fun h => .inlineFails ho hr hn (ih (h.node hR hr))
  | grows ho hr hrec hreg => exact fun _ => .grows ho hr hrec hreg
  | firstFails ho hr hrec hreg _ ih => exact fun h => .firstFails ho hr hrec hreg (ih (h.node hR hr))
  | idle ho hr hrec hreg _ ih => exact fun h => .idle ho hr hrec hreg (ih (h.node hR hr))
  | secondFails ho hr hrec hreg _ hc _ ih ih' =>
      exact fun h => .secondFails ho hr hrec hreg (ih (h.node hR hr)) hc (ih' (h.node hR hr))
  | defers ho hr hrec hreg _ hc _ ih ih' =>
      exact fun h => .defers ho hr hrec hreg (ih (h.node hR hr)) hc (ih' (h.node hR hr))
  | noParts => exact fun _ => .noParts
  | partRefused ha => exact fun _ => .partRefused ha
  | partFails ha _ ih => exact fun h => .partFails ha (ih h.head)
  | restFails ha _ _ ih ih' => exact fun h => .restFails ha (ih h.head) (ih' h.tail)
  | someParts ha _ _ ih ih' => exact fun h => .someParts ha (ih h.head) (ih' h.tail)

/-- A calm memory is calm with some types left out. -/
theorem Calm.on {b : Bool} (h : w.Calm b m) : w.Calm b (m.on R) where
  honest := ⟨fun x c hx => h.honest.settled x c (Contents.on_eq_some.mp hx).2,
    fun x c hx => h.honest.cached x c (Contents.on_eq_some.mp hx).2⟩
  sane := {
    supplies := ⟨h.sane.supplies.bodies,
      fun x hx => h.sane.supplies.closed x (Contents.on_ne_none.mp hx).2⟩
    aims := h.sane.aims
    closed := h.sane.closed
    settled := fun x c hx => h.sane.settled x c (Contents.on_eq_some.mp hx).2
    shared := fun hb x hx => Contents.on_ne_none.mpr
      ⟨(Contents.on_ne_none.mp hx).1, h.sane.shared hb x (Contents.on_ne_none.mp hx).2⟩ }
  right := h.right

/-! ## What stays true of the cache -/

/-- True of the cache whatever others do, whatever bodies are offered, and whatever converters
of these types. -/
structure Persists (R : Set TyId) (rivals : Stock → Stock → Prop) (P : Stock → Prop) : Prop where
  rivals : ∀ {k k'}, rivals k k' → P k → P k'
  body : ∀ {k : Stock} u c, P k → P { k with bodies := k.bodies.keep u c }
  converter : ∀ {k : Stock} {x} c, x ∈ R → P k →
    P { k with converters := k.converters.keep x c }

section Persists

variable {P : Stock → Prop} (hP : Persists R rivals P)
include hP

theorem Takes.persists {stack : List TyId} {ok : Bool} (h : Takes rivals m stack m' ok) :
    P m.cache → P m'.cache := by
  induction h with
  | done => exact id
  | skip _ _ ih => exact ih
  | take _ hk _ _ ih => exact fun h => ih (hP.rivals hk h)
  | missing _ hk _ => exact hP.rivals hk

theorem Publishes.persists {bodies : Contents} {tys : List TyId}
    (h : Publishes rivals bodies k tys k') : P k → P k' := by
  induction h with
  | done => exact id
  | skip _ _ ih => exact ih
  | offer _ hk _ ih => exact fun h => ih (hP.body _ _ (hP.rivals hk h))

theorem Misses.persists (h : Misses rivals e m x m') : P m.cache → P m'.cache := by
  cases h with
  | alone => exact id
  | shared _ hk _ => exact hP.rivals hk

theorem Settles.persists (hx : x ∈ R) (h : Settles rivals e m x c d m') : P m.cache → P m'.cache := by
  cases h with
  | alone => exact id
  | shared _ _ hp hk => exact fun h => hP.converter c hx (hP.rivals hk (hp.persists hP h))

/-- What is planned, and what others do meanwhile, leaves true what stays true of the cache. -/
theorem Plans.persists (hR : w.Closed R) {job : Job} {out : Verdict}
    (h : w.Plans rivals e job m out m') : About R job → P m.cache → P m'.cache := by
  induction h with
  | remembered | leaf | refused | circles | guessed | unresolved | grows | noParts | partRefused =>
      exact fun _ => id
  | adopted _ _ hk _ ht | bodyless _ _ hk _ ht =>
      intro _ h
      have kept := ht.persists hP (hP.rivals hk h)
      exact kept
  | settles _ hm _ hset ih =>
      exact fun about h => hset.persists hP about.visited (ih about (hm.persists hP h))
  | hangs _ hm _ _ ih | fails _ hm _ ih => exact fun about h => ih about (hm.persists hP h)
  | partsFail ht hl _ _ ih | unassembled ht hl _ _ _ ih | assembled ht hl _ _ _ ih =>
      exact fun about => ih (about.parts hR ht hl)
  | inline _ hr _ _ ih | inlineFails _ hr _ _ ih | firstFails _ hr _ _ _ ih
  | idle _ hr _ _ _ ih => exact fun about => ih (about.node hR hr)
  | secondFails _ hr _ _ _ _ _ ih ih' | defers _ hr _ _ _ _ _ ih ih' =>
      exact fun about h => ih' (about.node hR hr) (ih (about.node hR hr) h)
  | partFails _ _ ih => exact fun about => ih about.head
  | restFails _ _ _ ih ih' | someParts _ _ _ ih ih' =>
      exact fun about h => ih' about.tail (ih about.head h)

end Persists

/-- Nothing is taken out of the cache. -/
theorem Plans.cache_grows (hq : w.Fair rivals) {job : Job} {out : Verdict}
    (h : w.Plans rivals e job m out m') (y : TyId) (hy : m.cache.converters y ≠ none) :
    m'.cache.converters y ≠ none := by
  have stays : Persists Set.univ rivals fun k => k.converters y ≠ none :=
    ⟨fun hk => hq.acyclic.grows hk y, fun _ _ => id, fun _ _ => Contents.extends_keep.ne_none⟩
  exact h.persists stays (fun _ _ _ _ => Set.mem_univ _) (fun _ _ => Set.mem_univ _) hy

end World

end Marshal
