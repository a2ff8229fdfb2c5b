import Marshal.Proofs.Declarations
import Marshal.Proofs.Resolution

/-!
# Instances

A generic body with arguments for its parameters, as a relation that does not look at
flags (`Inst`). Instantiating a body gives an instance, and all that it adds to the
arena are instances of parts of the body (`instantiate_inst`).
-/

namespace Marshal

namespace Arena

variable {a b c : Arena} {args : List TyId} {x y : TyId} {t : Term}

/-- The second type is the first one with arguments for its parameters; a parameter
beyond them stays. -/
inductive Inst (a : Arena) (args : List TyId) : TyId → TyId → Prop
  | var {x : TyId} {i : Nat} : a.term? x = some (.var i) → Inst a args x (args[i]?.getD x)
  | term {x y : TyId} {t : Term} {ids : List TyId} : a.term? x = some t → t.isVar = false →
      ids.length = t.children.length → (∀ p ∈ t.children.zip ids, Inst a args p.1 p.2) →
      a.term? y = some (t.rebuild ids) → Inst a args x y

theorem Inst.within (hab : a.Within b) (h : a.Inst args x y) : b.Inst args x y := by
  induction h with
  | var ht => exact .var (hab.term? ht)
  | term ht hvar hlen _ hy ih => exact .term (hab.term? ht) hvar hlen ih (hab.term? hy)

theorem Inst.of_var {i : Nat} (h : a.Inst args x y) (hx : a.term? x = some (.var i)) :
    y = args[i]?.getD x := by
  cases h with
  | var ht => cases hx.symm.trans ht; rfl
  | term ht hvar => cases hx.symm.trans ht; cases hvar

theorem mem_zip_self {l : List TyId} {p : TyId × TyId} (h : p ∈ l.zip l) : p.1 ∈ l ∧ p.1 = p.2 := by
  have diagonal : l.zip l = l.map fun c => (c, c) := by
    simpa using List.zip_map' (f := id) (g := id) (l := l)
  rw [diagonal, List.mem_map] at h
  obtain ⟨c, hc, rfl⟩ := h
  exact ⟨hc, rfl⟩

/-- A type whose parameters stay what they are is its own instance. -/
theorem inst_of_fixed (ha : a.Sound) (hx : a.Has x)
    (h : ∀ y i, a.Contains x y → a.term? y = some (.var i) → args[i]?.getD y = y) :
    a.Inst args x x := by
  induction hn : x.index using Nat.strong_induction_on generalizing x with
  | _ n ih =>
    subst hn
    obtain ⟨t, ht⟩ := has_iff.mp hx
    by_cases hvar : t.isVar = true
    · cases t with
      | var i =>
          have here : a.Inst args x (args[i]?.getD x) := .var ht
          rwa [h x i .refl ht] at here
      | _ => cases hvar
    · refine .term ht (Bool.not_eq_true _ ▸ hvar) rfl (fun p hp => ?_)
        (t.rebuild_children.symm ▸ ht)
      obtain ⟨hc, heq⟩ := mem_zip_self hp
      rw [← heq]
      exact ih _ (ha.below ht _ hc) (ha.has_child ht hc)
        (fun y i hy => h y i (.child ht hc hy)) rfl

/-- A type with no parameter in it, or without arguments, is its own instance. -/
theorem inst_self (ha : a.Sound) (hm : a.Marked) (hargs : args = [] ∨ (a.flags x).hasVar = false)
    (hx : a.Has x) : a.Inst args x x := by
  refine inst_of_fixed ha hx fun y i hy ht => ?_
  rcases hargs with rfl | hflag
  · rfl
  · rw [flag_of_occurs hm.hasVar hy ht rfl] at hflag
    cases hflag

/-- What substitution rewrites a part of `a` to, in a later arena, is an instance. -/
theorem inst_of_rewrites (ha : a.Sound) (hm : a.Marked) (hab : a.Within b)
    (h : Rewrites (substitute args) b x y) (hx : a.Has x) : b.Inst args x y := by
  have notVar {x : TyId} {t : Term} (h : substitute args b x = none) (ht : b.term? x = some t) :
      t.isVar = false := by
    cases t with
    | var i =>
        rw [substitute, ht] at h
        split at h <;> cases h
    | _ => rfl
  induction h with
  | @put x y _ _ h =>
      rw [substitute] at h
      split at h
      · split at h
        · next i hi => cases h; exact .var hi
        · cases h
      · next hflag =>
          cases h
          rw [hab.flags_eq hx] at hflag
          exact (inst_self ha hm (.inr (Bool.not_eq_true _ ▸ hflag)) hx).within hab
  | @leaf x t h ht hleaf =>
      have none : t.children = [] := by cases t <;> first | rfl | cases hleaf
      have kept := t.rebuild_children
      rw [none] at kept
      exact .term ht (notVar h ht) (by rw [none]) (by simp [none]) (kept.symm ▸ ht)
  | @node x y t ids h ht hlen _ hy ih =>
      have ht' := hab.term?_eq hx ▸ ht
      refine .term ht (notVar h ht) hlen (fun p hp => ih p hp ?_) hy
      exact ha.has_child ht' (List.of_mem_zip hp).1

/-- Instantiating a body of `a` in a later arena gives its instance. All that is new are
instances of parts of the body. -/
theorem instantiate_inst (ha : a.Sound) (hm : a.Marked) (hab : a.Within b) (hb : b.Sound)
    {body : TyId} (hbody : a.Has body) (hargs : ∀ v ∈ args, b.Has v) :
    ∃ v b', Settles (instantiate body args) b v b' ∧ b'.Inst args body v ∧
      ∀ y, b'.Has y → b.Has y ∨ ∃ x, a.Contains body x ∧ b'.Inst args x y := by
  unfold instantiate
  split
  · next hnil =>
      have self := inst_self ha hm (.inl (List.isEmpty_iff.mp hnil)) hbody
      exact ⟨body, b, .pure hb body, self.within hab, fun y hy => .inl hy⟩
  · obtain ⟨v, b', hv, hr, hadds⟩ := foldUpTo_settles (steady_substitute hargs) (body.index + 1)
      (Nat.lt_succ_self _) (.refl b) hb (hab.has hbody)
    have within := hab.trans hv.within
    refine ⟨v, b', hv, inst_of_rewrites ha hm within hr hbody, fun y hy => ?_⟩
    refine (hadds y hy).imp_right ?_
    rintro ⟨x, hx, hxy⟩
    have hx := hx.of_within ha hab hbody
    exact ⟨x, hx, inst_of_rewrites ha hm within hxy (hx.has ha hbody)⟩

end Arena

end Marshal
