/-!
# Work on a state that may halt

Planning, running a converter and analysing a batch are all such work, each on a state
of its own.
-/

namespace Marshal

variable {ε σ α β : Type} {x : ExceptT ε (StateM σ) α} {f : α → ExceptT ε (StateM σ) β} {s s' : σ}

theorem run_bind (x : ExceptT ε (StateM σ) α) (f : α → ExceptT ε (StateM σ) β) (s : σ) :
    (x >>= f) s = match x s with
      | (.ok v, s') => f v s'
      | (.error h, s') => (.error h, s') := by
  show (ExceptT.bind x f) s = _
  simp only [ExceptT.bind, ExceptT.mk]
  show (StateT.bind _ _) s = _
  simp only [StateT.bind]
  rcases x s with ⟨_ | v, s'⟩ <;> rfl

theorem bind_eq_ok {w : β} (h : (x >>= f) s = (.ok w, s')) :
    ∃ v s₁, x s = (.ok v, s₁) ∧ f v s₁ = (.ok w, s') := by
  rw [run_bind] at h
  split at h
  · next v s₁ hx => exact ⟨v, s₁, hx, h⟩
  · cases h

/-- The work was done on each of these in turn, with these results. -/
inductive Traces (f : α → ExceptT ε (StateM σ) β) : List α → σ → List β → σ → Prop
  | nil {s : σ} : Traces f [] s [] s
  | cons {x : α} {xs : List α} {y : β} {ys : List β} {s s₁ s' : σ} : f x s = (.ok y, s₁) →
      Traces f xs s₁ ys s' → Traces f (x :: xs) s (y :: ys) s'

theorem mapM_eq_ok {f : α → ExceptT ε (StateM σ) β} : ∀ {xs : List α} {s : σ} {ys : List β},
    xs.mapM f s = (.ok ys, s') → Traces f xs s ys s'
  | [], _, _, h => by
      rw [List.mapM_nil] at h
      cases h
      exact .nil
  | x :: xs, s, _, h => by
      rw [List.mapM_cons] at h
      obtain ⟨y, s₁, hx, h⟩ := bind_eq_ok h
      obtain ⟨ys, s₂, hxs, h⟩ := bind_eq_ok h
      cases h
      exact .cons hx (mapM_eq_ok hxs)

end Marshal
