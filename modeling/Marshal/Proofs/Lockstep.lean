import Marshal.Proofs.Ending

/-!
# Runs in lockstep

An orderly step that wraps no function is run on two values that match. Then the two runs do the
same, layer by layer: they come to values that match again, or they halt, with the same fault or
since they may not go deeper. Where one run looks a key up, so does the other, and neither the
order of the entries nor an absent entry has a part in what is found. Cells are only added.
-/

namespace Marshal

/-- Both are values between which `R` holds, or both are the same error. -/
inductive Concur {ε α β : Type} (R : α → β → Prop) : Except ε α → Except ε β → Prop
  | ok {a : α} {b : β} : R a b → Concur R (.ok a) (.ok b)
  | error (e : ε) : Concur R (.error e) (.error e)

namespace Concur

variable {ε α β γ δ : Type} {R : α → β → Prop} {R' : γ → δ → Prop} {x : Except ε α} {y : Except ε β}

theorem imp {R' : α → β → Prop} (h : Concur R x y) (hR : ∀ a b, R a b → R' a b) :
    Concur R' x y := by
  cases h with
  | ok h => exact .ok (hR _ _ h)
  | error e => exact .error e

theorem bind {f : α → Except ε γ} {g : β → Except ε δ} (h : Concur R x y)
    (hfg : ∀ a b, R a b → Concur R' (f a) (g b)) : Concur R' (x >>= f) (y >>= g) := by
  cases h with
  | ok h => exact hfg _ _ h
  | error e => exact .error e

theorem mapM {ι : Type} {f : ι → Except ε α} {g : ι → Except ε β} :
    ∀ {xs : List ι}, (∀ x ∈ xs, Concur R (f x) (g x)) →
      Concur (List.Forall₂ R) (xs.mapM f) (xs.mapM g)
  | [], _ => .ok .nil
  | x :: xs, h => by
      rw [List.mapM_cons, List.mapM_cons]
      exact (h x (List.mem_cons_self ..)).bind fun a b hab =>
        (mapM fun y hy => h y (List.mem_cons_of_mem _ hy)).bind fun as bs hrest =>
          .ok (.cons hab hrest)

end Concur

/-- What an orderly step hands values to is orderly, if the bodies in the table are. -/
theorem Step.Orderly.hands {functions : Prop} {Q : TyId → Prop} {table : FixTable} {s s' : Step}
    (h : Orderly functions Q s)
    (closed : ∀ ty body, Q ty → table.find? ty = some body →
      ∀ d, Orderly functions Q (body.step d))
    (hs : Hands table s s') : Orderly functions Q s' := by
  cases hs with
  | mapOption | mapNullable | atField | rebuildBox | mapArray => cases h; assumption
  | sequence hmem => cases h with | sequence all => exact all _ hmem
  | mapElements hmem => cases h with | mapElements all => exact all _ hmem
  | retag hmem => cases h with | retag all => exact all _ hmem
  | recurse hbody => cases h with | recurse _ hq => exact closed _ _ hq hbody _

namespace Run

open Step Value

variable {α β γ δ : Type} {s t : Store}

/-! ## Two runs -/

/-- Both runs come to the same, with `R` between the values that they come to, and they keep all
cells. -/
structure InStep (R : Store → Store → α → β → Prop) (x : Run α) (y : Run β) (s t : Store) :
    Prop where
  left : s.Within (x s).2
  right : t.Within (y t).2
  ends : Concur (R (x s).2 (y t).2) (x s).1 (y t).1

namespace InStep

variable {R : Store → Store → α → β → Prop} {R' : Store → Store → γ → δ → Prop} {x : Run α}
  {y : Run β}

theorem pure {a : α} {b : β} (h : R s t a b) : InStep R (Pure.pure a) (Pure.pure b) s t :=
  ⟨.refl s, .refl t, .ok h⟩

theorem throw (h : Halt) : InStep R (MonadExcept.throw h) (MonadExcept.throw h) s t :=
  ⟨.refl s, .refl t, .error h⟩

theorem ofExcept {x : Except Fault α} {y : Except Fault β} (h : Concur (R s t) x y) :
    InStep R (Run.ofExcept x) (Run.ofExcept y) s t := by
  cases h with
  | ok h => exact .pure h
  | error f => exact .throw (.fault f)

theorem bind {f : α → Run γ} {g : β → Run δ} (h : InStep R x y s t)
    (hfg : ∀ s' t' a b, s.Within s' → t.Within t' → R s' t' a b → InStep R' (f a) (g b) s' t') :
    InStep R' (x >>= f) (y >>= g) s t := by
  obtain ⟨left, right, ends⟩ := h
  have hx := bind_run x f s
  have hy := bind_run y g t
  generalize x s = outcome at left ends hx
  generalize y t = outcome' at right ends hy
  obtain ⟨r, s'⟩ := outcome
  obtain ⟨r', t'⟩ := outcome'
  cases ends with
  | error e =>
      constructor
      · rw [hx]; exact left
      · rw [hy]; exact right
      · rw [hx, hy]; exact .error e
  | ok hab =>
      obtain ⟨left', right', ends'⟩ := hfg s' t' _ _ left right hab
      constructor
      · rw [hx]; exact left.trans left'
      · rw [hy]; exact right.trans right'
      · rw [hx, hy]; exact ends'

/-- The members of two lists, pair by pair. -/
theorem mapM {f : α → Run γ} {g : β → Run δ}
    (mono : ∀ s s' t t' a b, s.Within s' → t.Within t' → R' s t a b → R' s' t' a b) :
    ∀ {xs : List α} {ys : List β} {s t : Store},
      List.Forall₂ (fun x y => ∀ s' t', s.Within s' → t.Within t' → InStep R' (f x) (g y) s' t')
        xs ys →
      InStep (fun s t => List.Forall₂ (R' s t)) (xs.mapM f) (ys.mapM g) s t
  | [], _, _, _, h => by
      cases h
      exact .pure .nil
  | x :: xs, _, s, t, h => by
      cases h with
      | cons hx hxs =>
          rw [List.mapM_cons, List.mapM_cons]
          refine (hx s t (.refl s) (.refl t)).bind fun s₁ t₁ a b hs ht hab => ?_
          have later := hxs.imp fun _ _ h s' t' hs' ht' => h s' t' (hs.trans hs') (ht.trans ht')
          refine (mapM mono later).bind fun s₂ t₂ as bs hs' ht' hrest => ?_
          exact .pure (.cons (mono _ _ _ _ _ _ hs' ht' hab) hrest)

end InStep

/-! ## Steps without others in them -/

variable {v w : Value} {slots : List RecordSlot}

theorem matches_pairs {vs ws : List Value} : List.Forall₂ (Matches s t) vs ws ↔
    vs.length = ws.length ∧ ∀ x ∈ vs.zip ws, Matches s t x.1 x.2 := by
  rw [List.forall₂_iff_zip, Prod.forall]

theorem wrapRecord_concur (h : Matches s t v w) :
    Concur (Matches s t) (wrapRecord slots v) (wrapRecord slots w) := by
  cases h with
  | @object a b _ _ hkeys hvalues =>
      have slot : ∀ slot ∈ slots,
          Concur (Matches s t) (wrapRecord.element a slot) (wrapRecord.element b slot) := by
        intro slot _
        have same := hkeys slot.name
        unfold wrapRecord.element
        cases ha : findKey slot.name a with
        | none =>
            cases hb : findKey slot.name b with
            | none =>
                cases slot.optional with
                | true => exact .ok .absent
                | false => exact .error _
            | some w => rw [ha, hb] at same; cases same
        | some v =>
            cases hb : findKey slot.name b with
            | none => rw [ha, hb] at same; cases same
            | some w => exact .ok (hvalues _ v w ha hb)
      exact (Concur.mapM slot).bind fun vs ws h =>
        .ok (.array (matches_pairs.mp h).1 (matches_pairs.mp h).2)
  | _ => exact .error _

theorem unwrapRecord_concur (hslots : (slots.map RecordSlot.name).Nodup) (h : Matches s t v w) :
    Concur (Matches s t) (unwrapRecord slots v) (unwrapRecord slots w) := by
  cases h with
  | @array vs ws hlen hitems =>
      simp only [unwrapRecord, ← hlen]
      split
      · next hv =>
          exact .ok (.keyed hslots (by rw [hv, List.length_map]) hlen.symm keyed_present
            keyed_present hitems)
      · exact .error _
  | _ => exact .error _

theorem decode_concur {carrier : VariantCarrier} {cases : List CaseStep} (h : Matches s t v w) :
    Concur (fun x y => x.1 = y.1 ∧ Option.Rel (Matches s t) x.2 y.2)
      (Variant.decode carrier cases v) (Variant.decode carrier cases w) := by
  have found (x : Except Fault Nat) {p q : Option Value} (hpq : Option.Rel (Matches s t) p q) :
      Concur (fun x y => x.1 = y.1 ∧ Option.Rel (Matches s t) x.2 y.2)
        (do pure (← x, p) : Except Fault (Nat × Option Value)) (do pure (← x, q)) := by
    cases x with
    | ok i => exact .ok ⟨rfl, hpq⟩
    | error f => exact .error f
  cases h with
  | str text => cases carrier with
    | tagged => exact found _ .none
    | indexed => exact .error _
  | int n => cases carrier with
    | tagged => exact .error _
    | indexed =>
        simp only [Variant.decode]
        split
        · exact found _ .none
        · exact .error _
  | @object a b _ _ hkeys hvalues => cases carrier with
    | indexed => exact .error _
    | tagged =>
        have sameTag := hkeys "tag"
        have sameValue := hkeys "value"
        have payload : Matches s t ((findKey "value" a).getD .absent)
            ((findKey "value" b).getD .absent) := by
          cases ha : findKey "value" a <;> cases hb : findKey "value" b <;>
            rw [ha, hb] at sameValue <;> try cases sameValue
          · exact .absent
          · exact hvalues _ _ _ ha hb
        simp only [Variant.decode]
        cases ha : findKey "tag" a <;> cases hb : findKey "tag" b <;>
          rw [ha, hb] at sameTag <;> try cases sameTag
        · exact .error _
        · cases hvalues _ _ _ ha hb with
          | str name => exact found _ (.some payload)
          | _ => exact .error _
  | @block tag vs ws hlen hitems => cases carrier with
    | tagged => exact .error _
    | indexed =>
        rcases vs with _ | ⟨v, _ | ⟨v', vs⟩⟩ <;> rcases ws with _ | ⟨w, _ | ⟨w', ws⟩⟩ <;>
          try cases hlen
        · exact .error _
        · exact found _ (.some (hitems (v, w) (List.mem_singleton_self _)))
        · exact .error _
  | _ => cases carrier <;> exact .error _

theorem encode_matches {carrier : VariantCarrier} {cases : List CaseStep} {i : Nat}
    {x y : Option Value} (h : Option.Rel (Matches s t) x y) :
    Matches s t (Variant.encode carrier cases i x) (Variant.encode carrier cases i y) := by
  have distinct : ["tag", "value"].Nodup := by simp
  unfold Variant.encode
  split
  · exact .absent
  · next case _ =>
      cases h with
      | none => cases carrier with
        | tagged => exact .str _
        | indexed => exact .int _
      | @some p q h => cases carrier with
        | tagged =>
            have items : ∀ x ∈ [Value.str case.name, p].zip [.str case.name, q],
                Matches s t x.1 x.2 := by simpa using ⟨.str _, h⟩
            refine .keyed distinct ?_ ?_ ?_ ?_ items
            exacts [rfl, rfl, .refl _, .refl _]
        | indexed => exact .block rfl (by simpa using h)

theorem read_inStep {b c : BoxId} (h : Matches s t (s.read b) (t.read c)) :
    InStep Matches (read b) (read c) s t :=
  ⟨.refl s, .refl t, .ok h⟩

theorem newBox_inStep (h : Matches s t v w) : InStep Matches (newBox v) (newBox w) s t := by
  obtain ⟨hs, hb, readb⟩ := s.newBox_spec v
  obtain ⟨ht, hc, readc⟩ := t.newBox_spec w
  have contents : Matches (s.newBox v).2 (t.newBox w).2 ((s.newBox v).2.read (s.newBox v).1)
      ((t.newBox w).2.read (t.newBox w).1) := by
    rw [readb, readc]
    exact h.later hs ht
  exact ⟨hs, ht, .ok (.box hb hc contents)⟩

/-! ## One layer -/

variable {table : FixTable} {Q : TyId → Prop}

/-- Two lists, each taken together with one and the same third. -/
theorem forall₂_zip {R : α → β → Prop} : ∀ {xs : List α} {ys : List β} (zs : List γ),
    List.Forall₂ R xs ys →
      List.Forall₂ (fun x y => R x.1 y.1 ∧ x.2 = y.2 ∧ x.2 ∈ zs) (xs.zip zs) (ys.zip zs)
  | _, _, [], _ => by simp
  | _, _, _ :: _, .nil => .nil
  | _, _, z :: zs, .cons h hrest =>
      .cons ⟨h, rfl, List.mem_cons_self ..⟩ ((forall₂_zip zs hrest).imp fun _ _ h =>
        ⟨h.1, h.2.1, List.mem_cons_of_mem _ h.2.2⟩)

/-- Taken by `sub`, the step does the same with values that match. -/
def Respects (sub : Step → Value → Run Value) (step : Step) : Prop :=
  ∀ v w s t, Matches s t v w → InStep Matches (sub step v) (sub step w) s t

variable {sub : Step → Value → Run Value} {step : Step}

theorem foldlM_inStep : ∀ {steps : List Step} {v w : Value} {s t : Store},
    (∀ step ∈ steps, Respects sub step) → Matches s t v w →
      InStep Matches (steps.foldlM (fun v step => sub step v) v)
        (steps.foldlM (fun v step => sub step v) w) s t
  | [], _, _, _, _, _, h => .pure h
  | step :: steps, v, w, s, t, hsub, h => by
      rw [List.foldlM_cons, List.foldlM_cons]
      exact (hsub step (List.mem_cons_self ..) v w s t h).bind fun _ _ _ _ _ _ h' =>
        foldlM_inStep (fun inner hmem => hsub inner (List.mem_cons_of_mem _ hmem)) h'

/-- The members of two arrays are converted pair by pair. -/
theorem array_inStep {f : α → Run Value} {g : β → Run Value} {xs : List α} {ys : List β}
    (h : List.Forall₂ (fun x y => ∀ s' t', s.Within s' → t.Within t' →
      InStep Matches (f x) (g y) s' t') xs ys) :
    InStep Matches (do Pure.pure (.array (← xs.mapM f))) (do Pure.pure (.array (← ys.mapM g)))
      s t :=
  (InStep.mapM (fun _ _ _ _ _ _ hs ht h => h.later hs ht) h).bind fun _ _ _ _ _ _ h =>
    .pure (.array (matches_pairs.mp h).1 (matches_pairs.mp h).2)

theorem retag_inStep {source target : VariantCarrier} {cases : List CaseStep}
    (hsub : ∀ step ∈ cases.filterMap CaseStep.payload, Respects sub step) (h : Matches s t v w) :
    InStep Matches (applyLayer table sub (.retag source target cases) v)
      (applyLayer table sub (.retag source target cases) w) s t := by
  simp only [applyLayer]
  have decoded : InStep (fun s t x y => x.1 = y.1 ∧ Option.Rel (Matches s t) x.2 y.2)
      (ofExcept (Variant.decode source cases v)) (ofExcept (Variant.decode source cases w)) s t :=
    .ofExcept (decode_concur h)
  refine decoded.bind fun s' t' x y _ _ hxy => ?_
  obtain ⟨i, p⟩ := x
  obtain ⟨_, q⟩ := y
  obtain ⟨rfl, hpq⟩ := hxy
  dsimp only
  cases hinner : (cases[i]?).bind CaseStep.payload with
  | none => exact .pure (encode_matches .none)
  | some inner => cases hpq with
    | none => exact .pure (encode_matches .none)
    | some hpq =>
        have below := hsub inner (mem_payloads hinner) _ _ s' t' hpq
        exact below.bind fun _ _ _ _ _ _ h => .pure (encode_matches (.some h))

/-- What stands under a key is converted on both sides, or on neither. -/
theorem atKey_inStep {f : Value → Run Value} {k : String} {a b : List (String × Value)}
    (hf : ∀ v w, Matches s t v w → InStep Matches (f v) (f w) s t)
    (h : Matches s t (.object a) (.object b)) :
    InStep Matches (do Pure.pure (.object (← a.mapM (atKey f k))))
      (do Pure.pure (.object (← b.mapM (atKey f k)))) s t := by
  cases h with
  | object ha hb hkeys hvalues =>
      have same := hkeys k
      rcases ha.atKey f (k := k) with ⟨hnone, hrun⟩ | ⟨pre, v, post, rfl, hv, hpre, hpost, hrun⟩
      · rcases hb.atKey f (k := k) with ⟨-, hrun'⟩ | ⟨pre', w, post', rfl, hw, hpre', hpost', -⟩
        · rw [hrun, hrun', pure_bind, pure_bind]
          exact .pure (.object ha hb hkeys hvalues)
        · rw [hnone, findKey_middle hpre' hpost', hw] at same
          cases same
      · rcases hb.atKey f (k := k) with
          ⟨hnone, -⟩ | ⟨pre', w, post', rfl, hw, hpre', hpost', hrun'⟩
        · rw [hnone, findKey_middle hpre hpost, hv] at same
          cases same
        · have hvw : Matches s t v w :=
            hvalues k v w (by simp [findKey_middle hpre hpost, hv])
              (by simp [findKey_middle hpre' hpost', hw])
          rw [hrun, hrun', bind_assoc, bind_assoc]
          refine (hf v w hvw).bind fun s' t' u u' hs ht huu => ?_
          rw [pure_bind, pure_bind]
          refine .pure (.object (ha.replace hv) (hb.replace hw) (fun k' => ?_)
            fun k' x y hx hy => ?_)
          · by_cases hk : k' = k
            · rw [hk, findKey_middle hpre hpost, findKey_middle hpre' hpost', huu.isAbsent_eq]
              split <;> rfl
            · rw [findKey_other (u := u) (v := v) hk, findKey_other (u := u') (v := w) hk]
              exact hkeys k'
          · by_cases hk : k' = k
            · rw [hk, findKey_middle hpre hpost, Option.ite_none_left_eq_some] at hx
              rw [hk, findKey_middle hpre' hpost', Option.ite_none_left_eq_some] at hy
              cases hx.2
              cases hy.2
              exact huu
            · rw [findKey_other (v := v) hk] at hx
              rw [findKey_other (v := w) hk] at hy
              exact (hvalues k' x y hx hy).later hs ht

/-- One layer keeps in step if the steps below do. -/
theorem applyLayer_inStep (hstep : Orderly False Q step)
    (hsub : ∀ inner, Hands table step inner → Respects sub inner) (h : Matches s t v w) :
    InStep Matches (applyLayer table sub step v) (applyLayer table sub step w) s t := by
  cases hstep with
  | identity => exact .pure h
  | wrapRecord slots => exact .ofExcept (wrapRecord_concur h)
  | unwrapRecord hslots => exact .ofExcept (unwrapRecord_concur hslots h)
  | mapOption =>
      have below := hsub _ .mapOption _ _ _ _ h
      cases h <;> first | exact .pure .absent | exact below
  | mapNullable =>
      have below := hsub _ .mapNullable _ _ _ _ h
      cases h <;> first | exact .pure .absent | exact .pure .null | exact below
  | atField =>
      cases id h with
      | object => exact atKey_inStep (fun v w => hsub _ .atField v w s t) h
      | _ => exact .throw _
  | adaptArity _ hfalse => exact hfalse.elim
  | passBox =>
      cases id h with
      | box => exact .pure h
      | _ => exact .throw _
  | rebuildBox =>
      cases h with
      | box _ _ hcontents =>
          exact (read_inStep hcontents).bind fun s' t' u u' _ _ hu =>
            (hsub _ .rebuildBox u u' s' t' hu).bind fun _ _ _ _ _ _ h => newBox_inStep h
      | _ => exact .throw _
  | sequence => exact foldlM_inStep (fun inner hmem => hsub inner (.sequence hmem)) h
  | @mapElements steps _ =>
      cases h with
      | @array vs ws hlen hitems =>
          have pairs := forall₂_zip steps (matches_pairs.mpr ⟨hlen, hitems⟩)
          simp only [applyLayer, ← hlen]
          split
          · refine array_inStep (pairs.imp ?_)
            rintro ⟨v, inner⟩ ⟨w, _⟩ ⟨h, rfl, hmem⟩ s' t' hs ht
            exact hsub inner (.mapElements hmem) v w s' t' (h.later hs ht)
          · exact .throw _
      | _ => exact .throw _
  | mapArray =>
      cases h with
      | array hlen hitems =>
          have pairs := matches_pairs.mpr ⟨hlen, hitems⟩
          exact array_inStep (pairs.imp fun v w h s' t' hs ht =>
            hsub _ .mapArray v w s' t' (h.later hs ht))
      | _ => exact .throw _
  | retag => exact retag_inStep (fun inner hmem => hsub inner (.retag hmem)) h
  | wrapFunction _ _ hfalse => exact hfalse.elim
  | @recurse ty d _ =>
      simp only [applyLayer]
      cases hbody : table.find? ty with
      | none => exact .throw _
      | some body => exact hsub _ (.recurse hbody) v w s t h

/-- An orderly step that wraps no function does the same with values that match. -/
theorem applyWithin_respects
    (closed : ∀ ty body, Q ty → table.find? ty = some body → ∀ d, Orderly False Q (body.step d)) :
    ∀ (depth : Nat) {step : Step}, Orderly False Q step → Respects (applyWithin table depth) step
  | 0, _, _ => fun _ _ _ _ _ => .throw _
  | depth + 1, _, hstep => fun _ _ _ _ h =>
      applyLayer_inStep hstep
        (fun _ hinner => applyWithin_respects closed depth (hstep.hands closed hinner)) h

end Run

/-! ## What a session plans -/

section Sessions

open Planner Run

variable {catalog : Catalog} {options : Options} {S : Session} {p : Planner} {n i : Nat} {ty : TyId}
  {c : Converter} {s : PlanState}

/-- Equal values are converted to equal values, or they are refused for the same reason. Where
nothing hollow is reached, one of these is sure to happen. The second value is converted in the
store that the first conversion leaves, or a later one. -/
theorem Session.Comes.respects_equality (hS : Comes catalog options S)
    (hp : S.planners[i]? = some p) (hx : S.shared.arena.Has ty)
    (hrun : planWithin catalog options n ty ⟨S.shared, p⟩ = (.ok c, s)) {b : Arena} (hb : b.Sound)
    (hsb : s.shared.arena.Within b) {table : FixTable}
    (htable : ∀ u body, table.find? u = some body → s.planner.fixpoints.find? u = some body)
    (hplain : ∀ y sig, World.Reach ⟨catalog, options, b⟩ ty y → b.term? y ≠ some (.function sig))
    {σ : Store} {v w : Value} (hv : v.Tidy σ) (hw : w.Tidy σ) (hvw : v.Equal σ w) (d : Direction) :
    (∀ depth r σ₁ σ₂ r' σ₃, convertWithin table depth c d v σ = (r, σ₁) → σ₁.Within σ₂ →
      convertWithin table depth c d w σ₂ = (r', σ₃) →
        Concur (fun v' w' => v'.Equal σ₃ w') r r') ∧
      (World.Solid ⟨catalog, options, b⟩ ty → ∃ enough, ∀ depth ≥ enough,
        (convertWithin table depth c d v σ).1 ≠ .error .outOfFuel) := by
  constructor
  · intro depth r σ₁ σ₂ r' σ₃ hfirst hbetween hsecond
    obtain ⟨Q, hc, hbodies⟩ := hS.orderly hp hx hrun hb hsb hplain
    have closed : ∀ u body, Q u → table.find? u = some body →
        ∀ d, Step.Orderly False Q (body.step d) :=
      fun u body hu hbody => hbodies u body hu (htable u body hbody)
    have hσ : σ.Within σ₂ := by
      have first := (applyWithin_respects closed depth (hc d) v v σ σ hv.matches_self).left
      rw [show applyWithin table depth (c.step d) v σ = (r, σ₁) from hfirst] at first
      exact first.trans hbetween
    have start : Value.Matches σ σ₂ v w := ((hv.equal_iff hw).mp hvw).later (.refl σ) hσ
    obtain ⟨-, right, ends⟩ := applyWithin_respects closed depth (hc d) v w σ σ₂ start
    rw [show applyWithin table depth (c.step d) v σ = (r, σ₁) from hfirst,
      show applyWithin table depth (c.step d) w σ₂ = (r', σ₃) from hsecond] at ends
    rw [show applyWithin table depth (c.step d) w σ₂ = (r', σ₃) from hsecond] at right
    exact ends.imp fun v' w' h => (h.later (hbetween.trans right) (.refl σ₃)).equal_both.1
  · intro hsolid
    obtain ⟨r, σ', ⟨enough, hends⟩, -⟩ := hS.finishes hp hx hrun hb hsb htable hsolid hv d
    refine ⟨enough, fun depth hdepth => ?_⟩
    have ended : convertWithin table depth c d v σ = _ := hends depth hdepth
    rw [ended]
    cases r <;> nofun

/-- A tree with one child. -/
def Tree.sapling : Value :=
  .object [("value", .int 1),
    ("children", .array [.object [("value", .int 2), ("children", .array [])]])]

/-- The same tree, with its keys in another order and one that is absent. -/
def Tree.shuffled : Value :=
  .object [("children", .array [.object [("children", .array []), ("value", .int 2)]]),
    ("label", .absent), ("value", .int 1)]

theorem Tree.tidy_sapling (s : Store) : Tree.sapling.Tidy s := by
  have child : Value.Tidy s (.object [("value", .int 2), ("children", .array [])]) :=
    .object (by simp [Value.Distinct, Value.present, Value.isAbsent])
      (by simpa using ⟨.int 2, .array (by simp)⟩)
  exact .object (by simp [Value.Distinct, Value.present, Value.isAbsent])
    (by simpa using ⟨.int 1, .array (by simpa using child)⟩)

theorem Tree.tidy_shuffled (s : Store) : Tree.shuffled.Tidy s := by
  have child : Value.Tidy s (.object [("children", .array []), ("value", .int 2)]) :=
    .object (by simp [Value.Distinct, Value.present, Value.isAbsent])
      (by simpa using ⟨.array (by simp), .int 2⟩)
  exact .object (by simp [Value.Distinct, Value.present, Value.isAbsent])
    (by simpa using ⟨.array (by simpa using child), .absent, .int 1⟩)

/-- Among the types that make up trees there are no functions, and none is nullable. -/
theorem Tree.terms : ∀ y t, Tree.arena.term? y = some t →
    (∀ sig, t ≠ .function sig) ∧ ∀ x, t ≠ .nullable x := by
  have all : ∀ i < Tree.arena.size, ∀ t ∈ Tree.arena.term? ⟨i⟩,
      (match t with | .function _ | .nullable _ => false | _ => true) = true := by decide +kernel
  intro y t ht
  have here := all y.index (Arena.has_of_term? ht) t ht
  cases t with
  | function | nullable => cases here
  | _ => exact ⟨nofun, nofun⟩

/-- The order of keys and the absent entry are not seen by the conversion. -/
theorem Session.Comes.respects_equality_tree :
    (∀ depth r σ₁ σ₂ r' σ₃,
      convertWithin ⟨[(Tree.ty, Tree.body)]⟩ depth Tree.converter .forward Tree.sapling .empty =
        (r, σ₁) → σ₁.Within σ₂ →
      convertWithin ⟨[(Tree.ty, Tree.body)]⟩ depth Tree.converter .forward Tree.shuffled σ₂ =
        (r', σ₃) → Concur (fun v' w' => v'.Equal σ₃ w') r r') ∧
      ∃ enough, ∀ depth ≥ enough, (convertWithin ⟨[(Tree.ty, Tree.body)]⟩ depth Tree.converter
        .forward Tree.sapling .empty).1 ≠ .error .outOfFuel := by
  have bodies : ∀ u body, FixTable.find? ⟨[(Tree.ty, Tree.body)]⟩ u = some body →
      (Tree.call Tree.served (.new true)).2.planner.fixpoints.find? u = some body :=
    fun _ _ h => Tree.fixpoints_served ▸ h
  have respects := Session.Comes.respects_equality Tree.comes_served (i := 1) (p := .new true)
    (by decide +kernel) (by decide +kernel) Tree.planWithin_served Tree.sound
    (Tree.arena_served ▸ .refl _) bodies (fun y sig _ ht => (Tree.terms y _ ht).1 sig rfl)
    (Tree.tidy_sapling .empty) (Tree.tidy_shuffled .empty) ⟨4, by decide +kernel⟩ .forward
  refine ⟨respects.1, respects.2 ?_⟩
  rintro y - ⟨⟨x, ht⟩, -⟩
  exact (Tree.terms y _ ht).2 x rfl

end Sessions

end Marshal
