import Marshal.Proofs.Declarations

/-!
# Interning

However an arena is filled, by single calls, by rewriting or by instantiating generic
bodies, what reaches it is a run of calls, each with a term over types that are there
already. `Interns` is such a run. `Consed` says what it comes to: a type is one term and a
term one type, and a node never changes.

Nothing has to be said of a new arena apart, since its scalars are themselves interned,
into an arena with nothing in it (`interns_scalars`).
-/

namespace Marshal

namespace Arena

open Relation

/-- Calls made one after another, each with its term and the id that it handed out. -/
inductive Interns : Arena → List (Term × TyId) → Arena → Prop
  | done {a : Arena} : Interns a [] a
  | call {a b c : Arena} {t : Term} {x : TyId} {calls : List (Term × TyId)} :
      (∀ c ∈ t.children, a.Has c) → intern t a = (x, b) → Interns b calls c →
      Interns a ((t, x) :: calls) c

/-- What calls leave behind that began with nothing. -/
structure Consed (calls : List (Term × TyId)) (a : Arena) : Prop where
  /-- The ids handed out are the places up to the size, with no gap. -/
  handed : ∀ x : TyId, x ∈ calls.map Prod.snd ↔ x.index < a.size
  /-- Two calls have one id exactly if they have one term. -/
  shared : ∀ p ∈ calls, ∀ q ∈ calls, p.2 = q.2 ↔ p.1 = q.1
  /-- Under the id of a call stands its term. -/
  stored : ∀ p ∈ calls, a.term? p.2 = some p.1
  /-- A stored term has its id already. -/
  again : ∀ x t, a.term? x = some t → intern t a = (x, a)
  below : ∀ x t, a.term? x = some t → ∀ c ∈ t.children, c.index < x.index
  hasVar : ∀ x, a.Has x →
    ((a.flags x).hasVar = true ↔ ∃ y i, a.Contains x y ∧ a.term? y = some (.var i))
  hasReference : ∀ x, a.Has x →
    ((a.flags x).hasReference = true ↔
      ∃ y key args, a.Contains x y ∧ a.term? y = some (.named key args))

variable {a b c : Arena} {x y : TyId} {t u : Term} {calls more : List (Term × TyId)}

/-! ## One call -/

/-- A call gives its term a place and disturbs nothing. -/
theorem intern_spec (ha : a.Sound) (ht : ∀ c ∈ t.children, a.Has c) (h : intern t a = (x, b)) :
    b.Sound ∧ a.Within b ∧ b.term? x = some t ∧ ∀ y, b.Has y → a.Has y ∨ y = x := by
  obtain ⟨y, c, hy, hty, hnew⟩ := intern_settles ha ht
  obtain ⟨rfl, rfl⟩ := Prod.mk.inj (hy.run.symm.trans h)
  exact ⟨hy.sound, hy.within, hty, hnew⟩

theorem intern_term? (ha : a.Sound) (ht : a.term? x = some t) : intern t a = (x, a) := by
  rw [intern, (find?_eq_some_iff ha).mpr ht]

/-! ## A run of calls -/

namespace Interns

theorem append (h : Interns a calls b) (h' : Interns b more c) : Interns a (calls ++ more) c := by
  induction h with
  | done => exact h'
  | call ht hx _ ih => exact .call ht hx (ih h')

theorem single (ht : ∀ c ∈ t.children, a.Has c) (h : intern t a = (x, b)) :
    Interns a [(t, x)] b :=
  .call ht h .done

theorem sound (h : Interns a calls b) (ha : a.Sound) : b.Sound := by
  induction h with
  | done => exact ha
  | call ht hx _ ih => exact ih (intern_spec ha ht hx).1

theorem within (h : Interns a calls b) (ha : a.Sound) : a.Within b := by
  induction h with
  | done => exact .refl _
  | call ht hx _ ih =>
      obtain ⟨hb, hab, -⟩ := intern_spec ha ht hx
      exact hab.trans (ih hb)

theorem marked (h : Interns a calls b) (ha : a.Sound) (hm : a.Marked) : b.Marked := by
  induction h with
  | done => exact hm
  | call ht hx _ ih =>
      refine ih (intern_spec ha ht hx).1 ?_
      have := hm.intern ha ht
      rwa [hx] at this

theorem stored (h : Interns a calls b) (ha : a.Sound) : ∀ p ∈ calls, b.term? p.2 = some p.1 := by
  induction h with
  | done => simp
  | call ht hx hrest ih =>
      obtain ⟨hb, -, htx, -⟩ := intern_spec ha ht hx
      intro p hp
      rcases List.mem_cons.mp hp with rfl | hp
      · exact (within hrest hb).term? htx
      · exact ih hb p hp

/-- What is there was there before or has been handed out. -/
theorem has_iff (h : Interns a calls b) (ha : a.Sound) :
    b.Has y ↔ a.Has y ∨ y ∈ calls.map Prod.snd := by
  induction h with
  | done => simp
  | call ht hx _ ih =>
      obtain ⟨hb, hab, htx, hnew⟩ := intern_spec ha ht hx
      rw [ih hb, List.map_cons, List.mem_cons]
      constructor
      · rintro (hy | hy)
        · exact (hnew y hy).imp_right .inl
        · exact .inr (.inr hy)
      · rintro (hy | rfl | hy)
        · exact .inl (hab.has hy)
        · exact .inl (has_of_term? htx)
        · exact .inr hy

theorem nil_iff : Interns a [] b ↔ a = b :=
  ⟨fun h => by cases h; rfl, fun h => h ▸ .done⟩

theorem cons_iff : Interns a ((t, x) :: calls) c ↔
    (∀ c ∈ t.children, a.Has c) ∧ (intern t a).1 = x ∧ Interns (intern t a).2 calls c := by
  constructor
  · intro h
    cases h with
    | call ht hx hrest => exact ⟨ht, by rw [hx], by rwa [hx]⟩
  · rintro ⟨ht, rfl, hrest⟩
    exact .call ht rfl hrest

/-- A run is checked by making its calls. -/
instance decidable : ∀ (a : Arena) (calls : List (Term × TyId)) (b : Arena),
    Decidable (Interns a calls b)
  | _, [], _ => decidable_of_iff _ nil_iff.symm
  | a, (t, _) :: calls, c =>
      have := decidable (intern t a).2 calls c
      decidable_of_iff _ cons_iff.symm

end Interns

/-! ## From nothing -/

/-- An arena with nothing in it, not even the scalars. -/
def empty : Arena := ⟨#[]⟩

theorem empty_sound : empty.Sound := by decide

theorem empty_marked : empty.Marked := by decide

/-- The calls that make a new arena. -/
def scalarCalls : List (Term × TyId) := Scalar.all.map fun s => (.scalar s, s.id)

theorem interns_scalars : Interns empty scalarCalls .new := by decide

theorem Interns.consed (h : Interns empty calls a) : Consed calls a := by
  have ha := h.sound empty_sound
  have hm := h.marked empty_sound empty_marked
  have stored := h.stored empty_sound
  refine ⟨fun x => ?_, fun p hp q hq => ⟨fun hpq => ?_, fun hpq => ?_⟩, stored,
    fun x t ht => intern_term? ha ht, fun x t ht => ha.below ht, fun x hx => ?_, fun x hx => ?_⟩
  · have nothing : ¬empty.Has x := Nat.not_lt_zero _
    exact ((h.has_iff empty_sound).trans (or_iff_right nothing)).symm
  · exact Option.some.inj ((stored p hp).symm.trans (hpq ▸ stored q hq))
  · exact ha.unique (stored p hp) (hpq ▸ stored q hq)
  · constructor
    · intro hflag
      obtain ⟨y, t, hy, ht, hvar⟩ := occurs_of_flag hm.hasVar ha hx hflag
      cases t with
      | var i => exact ⟨y, i, hy, ht⟩
      | _ => cases hvar
    · rintro ⟨y, i, hy, ht⟩
      exact flag_of_occurs hm.hasVar hy ht rfl
  · constructor
    · intro hflag
      obtain ⟨y, t, hy, ht, href⟩ := occurs_of_flag hm.hasReference ha hx hflag
      cases t with
      | named key args => exact ⟨y, key, args, hy, ht⟩
      | _ => cases href
    · rintro ⟨y, key, args, hy, ht⟩
      exact flag_of_occurs hm.hasReference hy ht rfl

/-! ## Rewriting is interning -/

/-- The computation interns terms and hands out what is stored. -/
def Fills (f : StateM Arena TyId) (a : Arena) : Prop :=
  ∃ calls, Interns a calls (f a).2 ∧ (f a).2.Has (f a).1

/-- A rewrite that answers with stored types, in all arenas grown from `a`. -/
def Stores (rewrite : Rewrite) (a : Arena) : Prop :=
  ∀ {b x y}, a.Within b → b.Has x → rewrite b x = some y → b.Has y

variable {rewrite : Rewrite}

theorem mapM_interns {f : TyId → StateM Arena TyId} :
    ∀ {l : List TyId} {b : Arena}, b.Sound →
      (∀ x ∈ l, ∀ {c}, b.Within c → c.Sound → Fills (f x) c) →
      ∃ ids c calls, l.mapM f b = (ids, c) ∧ Interns b calls c ∧ ids.length = l.length ∧
        ∀ y ∈ ids, c.Has y
  | [], b, _, _ => ⟨[], b, [], rfl, .done, rfl, fun _ hy => nomatch hy⟩
  | x :: l, b, hb, hf => by
      obtain ⟨calls, hx, hy⟩ := hf x (List.mem_cons_self ..) (.refl b) hb
      have hbc := hx.within hb
      obtain ⟨ids, d, more, hrun, hl, hlen, hids⟩ :=
        mapM_interns (l := l) (hx.sound hb) fun u hu {d} hcd hd =>
          hf u (List.mem_cons_of_mem _ hu) (hbc.trans hcd) hd
      refine ⟨(f x b).1 :: ids, d, calls ++ more, ?_, hx.append hl, congrArg Nat.succ hlen, ?_⟩
      · rw [List.mapM_cons, bind_of_run (rfl : f x b = ((f x b).1, (f x b).2)), bind_of_run hrun]
        rfl
      · intro z hz
        rcases List.mem_cons.mp hz with rfl | hz
        · exact (hl.within (hx.sound hb)).has hy
        · exact hids z hz

theorem foldUpTo_fills (hr : Stores rewrite a) :
    ∀ (depth : Nat) {x : TyId} {b : Arena}, a.Within b → b.Sound → b.Has x →
      Fills (foldUpTo rewrite depth x) b
  | 0, x, b, _, _, hx => ⟨[], .done, hx⟩
  | depth + 1, x, b, hab, hb, hx => by
      unfold Fills
      rw [foldUpTo_run]
      cases hrw : rewrite b x with
      | some out => exact ⟨[], .done, hr hab hx hrw⟩
      | none =>
          obtain ⟨t, ht⟩ := Arena.has_iff.mp hx
          rw [ht]
          dsimp only
          split
          · exact ⟨[], .done, hx⟩
          · obtain ⟨ids, c, calls, hrun, hids, hlen, hstored⟩ :=
              mapM_interns (f := foldUpTo rewrite depth) hb fun u hu {c} hbc hc =>
                foldUpTo_fills hr depth (hab.trans hbc) hc (hbc.has (hb.has_child ht hu))
            have hchildren : ∀ u ∈ (t.rebuild ids).children, c.Has u := by
              rw [Term.children_rebuild t ids hlen]
              exact hstored
            obtain ⟨-, -, hy, -⟩ := intern_spec (hids.sound hb) hchildren rfl
            rw [bind_of_run hrun]
            exact ⟨_, hids.append (.single hchildren rfl), has_of_term? hy⟩

theorem fold_fills (ha : a.Sound) (hr : Stores rewrite a) (hx : a.Has x) :
    Fills (fold rewrite x) a :=
  foldUpTo_fills hr _ (.refl a) ha hx

theorem instantiate_fills (ha : a.Sound) (hx : a.Has x) {args : List TyId}
    (hargs : ∀ v ∈ args, a.Has v) : Fills (instantiate x args) a := by
  unfold instantiate
  split
  · exact ⟨[], .done, hx⟩
  · exact fold_fills ha (fun hab hy h => (steady_substitute hargs).stored hab hy h) hx

/-! ## A new arena -/

/-- Whatever is interned in a new arena, directly, by a fold or by instantiating a generic
body, the scalars come first, every further type is one term, no node changes, and the
flags tell what occurs in a type. -/
theorem Interns.hash_consed (h : Interns .new calls a) :
    Consed (scalarCalls ++ calls) a ∧
      (scalarCalls.map Prod.snd = [⟨0⟩, ⟨1⟩, ⟨2⟩, ⟨3⟩, ⟨4⟩] ∧
        ∀ s : Scalar, (.scalar s, s.id) ∈ scalarCalls) ∧
      (∀ more b, Interns a more b → ∀ x n, a.node? x = some n → b.node? x = some n) ∧
      (∀ rewrite x, Stores rewrite a → a.Has x → Fills (fold rewrite x) a) ∧
      ∀ x args, a.Has x → (∀ v ∈ args, a.Has v) → Fills (instantiate x args) a := by
  have whole := interns_scalars.append h
  have ha := whole.sound empty_sound
  refine ⟨whole.consed, ⟨rfl, fun s => ?_⟩, fun more b h' => h'.within ha,
    fun rewrite x hr hx => fold_fills ha hr hx,
    fun x args hx hargs => instantiate_fills ha hx hargs⟩
  cases s <;> decide

/-! ### Types that are almost the same -/

namespace Twins

/-- A generic pair in three forms, its first form once more, and functions whose defaults
are the two zeros. -/
def made : List (Term × TyId) :=
  let declared : TyId := ⟨6⟩
  let pair (mutable : Bool) : Term :=
    .record [⟨"left", declared, false, mutable⟩, ⟨"right", declared, true, false⟩]
  let scaled (bits : UInt64) : Term :=
    .function ⟨[⟨.optional "by" (some (.float ⟨bits⟩)), Scalar.float.id, none⟩], ⟨7⟩⟩
  [(.var 0, ⟨5⟩), (.named ⟨"Box", "box"⟩ [⟨5⟩], declared), (pair false, ⟨7⟩), (pair true, ⟨8⟩),
    (.record [⟨"right", declared, true, false⟩, ⟨"left", declared, false, false⟩], ⟨9⟩),
    (pair false, ⟨7⟩), (scaled 0, ⟨10⟩), (scaled 0x8000000000000000, ⟨11⟩)]

def arena : Arena := ((made.eraseIdx 5).map Prod.fst).foldl push .new

end Twins

theorem Interns.hash_consed_twins :
    Interns .new Twins.made Twins.arena ∧ Consed (scalarCalls ++ Twins.made) Twins.arena ∧
      Fills (instantiate ⟨11⟩ [Scalar.int.id]) Twins.arena := by
  have interned : Interns .new Twins.made Twins.arena := by decide +kernel
  obtain ⟨consed, -, -, -, instantiates⟩ := interned.hash_consed
  exact ⟨interned, consed, instantiates _ _ (by decide) (by decide)⟩

end Arena

end Marshal
