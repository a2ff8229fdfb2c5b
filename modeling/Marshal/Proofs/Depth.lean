import Marshal.Proofs.Presence
import Marshal.Run.Call

/-!
# Runs do not depend on how deep they may go

A run is bounded in depth. One that does not reach the bound is the same under every
higher bound (`applyWithin_mono`, `invokeWithin_mono`), so what counts is how the
family of runs, one for each depth, ends: `Settles`. Two families are `Alike` if every
end of one is an end of the other, store included. That is the equality of programs
for which the depth is not observable; it is a congruence for families that are
monotone, and it forgets how many layers of wrapping a run goes through.
-/

namespace Marshal.Run

variable {α β : Type}

/-! ## More depth -/

/-- The second run does the same as the first, unless the first was not allowed to
go deep enough. -/
def Extends (x y : Run α) : Prop := ∀ s, (x s).1 = .error .outOfFuel ∨ y s = x s

namespace Extends

variable {x y z : Run α} {f g : α → Run β}

theorem refl (x : Run α) : Extends x x := fun _ => .inr rfl

theorem trans (h : Extends x y) (h' : Extends y z) : Extends x z := fun s => by
  rcases h s with hx | hx
  · exact .inl hx
  · rcases h' s with hy | hy
    · exact .inl (hx ▸ hy)
    · exact .inr (hy.trans hx)

theorem halted (y : Run α) : Extends (throw .outOfFuel) y := fun _ => .inl rfl

theorem bind (hx : Extends x y) (hf : ∀ v, Extends (f v) (g v)) :
    Extends (x >>= f) (y >>= g) := fun s => by
  rw [bind_run, bind_run]
  rcases hx s with hx | hx
  · rcases he : x s with ⟨_ | v, s'⟩ <;> rw [he] at hx <;> cases hx
    exact .inl rfl
  · rw [hx]
    rcases x s with ⟨_ | v, s'⟩
    · exact .inr rfl
    · exact hf v s'

theorem mapM {f g : α → Run β} (h : ∀ v, Extends (f v) (g v)) :
    ∀ vs : List α, Extends (vs.mapM f) (vs.mapM g)
  | [] => by
      simp only [List.mapM_nil]
      exact refl _
  | v :: vs => by
      simp only [List.mapM_cons]
      exact (h v).bind fun _ => (mapM h vs).bind fun _ => refl _

theorem foldlM {f g : β → α → Run β} (h : ∀ b v, Extends (f b v) (g b v)) :
    ∀ (vs : List α) (b : β), Extends (vs.foldlM f b) (vs.foldlM g b)
  | [], _ => refl _
  | v :: vs, b => by
      simp only [List.foldlM_cons]
      exact (h b v).bind fun _ => foldlM h vs _

end Extends

theorem applyLayer_mono {table : FixTable} {sub sub' : Step → Value → Run Value}
    (h : ∀ t v, Extends (sub t v) (sub' t v)) (step : Step) (v : Value) :
    Extends (applyLayer table sub step v) (applyLayer table sub' step v) := by
  cases step with
  | identity | wrapRecord | unwrapRecord | adaptArity | substituteDefault | passBox | wrapFunction =>
      exact .refl _
  | mapOption inner | mapNullable inner =>
      cases v <;> first | exact .refl _ | exact h _ _
  | atField name inner =>
      cases v <;> try exact .refl _
      refine (Extends.mapM (fun e => ?_) _).bind fun _ => .refl _
      unfold atKey
      split
      · exact (h _ _).bind fun _ => .refl _
      · exact .refl _
  | rebuildBox inner =>
      cases v <;> try exact .refl _
      exact (Extends.refl _).bind fun _ => (h _ _).bind fun _ => .refl _
  | sequence steps => exact .foldlM (fun _ _ => h _ _) _ _
  | mapElements steps =>
      cases v <;> try exact .refl _
      simp only [applyLayer]
      split
      · exact (Extends.mapM (fun _ => h _ _) _).bind fun _ => .refl _
      · exact .refl _
  | mapArray inner =>
      cases v <;> try exact .refl _
      exact (Extends.mapM (fun _ => h _ _) _).bind fun _ => .refl _
  | retag source target cases =>
      refine (Extends.refl _).bind fun shape => ?_
      dsimp only
      split
      · exact (h _ _).bind fun _ => .refl _
      · exact .refl _
  | recurse target direction =>
      simp only [applyLayer]
      split
      · exact h _ _
      · exact .refl _

theorem applyWithin_mono (table : FixTable) : ∀ (depth : Nat) (step : Step) (v : Value),
    Extends (applyWithin table depth step v) (applyWithin table (depth + 1) step v)
  | 0, _, _ => .halted _
  | depth + 1, step, v => applyLayer_mono (applyWithin_mono table depth) step v

section Calls

variable {invoke invoke' : Invoke} (h : ∀ f args, Extends (invoke f args) (invoke' f args))
include h

theorem feed_mono (total budget : Nat) : ∀ (callee : Closure) (args : List Value),
    Extends (feed invoke total budget callee args) (feed invoke' total budget callee args) := by
  induction budget with
  | zero =>
      intro callee args
      unfold feed
      split
      · exact .refl _
      · refine (h _ _).bind fun _ => ?_
        rcases args.drop callee.arity with _ | ⟨_, _⟩ <;> exact .refl _
  | succ budget ih =>
      intro callee args
      unfold feed
      split
      · exact .refl _
      · refine (h _ _).bind fun result => ?_
        rcases args.drop callee.arity with _ | ⟨_, _⟩
        · exact .refl _
        · cases result <;> first | exact ih _ _ | exact .refl _

theorem callFully_mono (callee : Closure) (args : List Value) :
    Extends (callFully invoke callee args) (callFully invoke' callee args) :=
  feed_mono h _ _ callee args

theorem evalLayer_mono {sub sub' : Expr → Run Value} (hsub : ∀ e, Extends (sub e) (sub' e))
    (frame : Frame) (e : Expr) :
    Extends (evalLayer invoke sub frame e) (evalLayer invoke' sub' frame e) := by
  cases e with
  | arg | lit | fail | lambda | again => exact .refl _
  | array es | block _ es => exact (Extends.mapM hsub es).bind fun _ => .refl _
  | object es =>
      exact (Extends.mapM (fun e => (hsub e.2).bind fun _ => .refl _) es).bind fun _ => .refl _
  | get e | item e | makeBox e | text e | kind e => exact (hsub e).bind fun _ => .refl _
  | getBox b => exact (hsub b).bind fun _ => .refl _
  | invoke f es =>
      exact (hsub f).bind fun _ => (Extends.refl _).bind fun _ => (Extends.mapM hsub es).bind
        fun _ => h _ _
  | curried f es =>
      exact (hsub f).bind fun _ => (Extends.refl _).bind fun _ => (Extends.mapM hsub es).bind
        fun _ => callFully_mono h _ _
  | setBox b e | add b e =>
      exact (hsub b).bind fun _ => (Extends.refl _).bind fun _ => (hsub e).bind fun _ => .refl _

end Calls

/-- Both halves of a call: invoking a function and evaluating the script of one. -/
theorem calls_mono : ∀ depth : Nat,
    (∀ f args, Extends (invokeWithin depth f args) (invokeWithin (depth + 1) f args)) ∧
      ∀ frame e, Extends (evalWithin depth frame e) (evalWithin (depth + 1) frame e)
  | 0 => ⟨fun _ _ => by unfold invokeWithin; exact .halted _,
      fun _ _ => by unfold evalWithin; exact .halted _⟩
  | depth + 1 => by
      obtain ⟨hinvoke, heval⟩ := calls_mono depth
      refine ⟨fun f args => ?_, fun frame e => ?_⟩
      · unfold invokeWithin
        split
        · cases f.body with
          | script captured code => exact heval _ _
          | adapt adapter callee =>
              exact (Extends.refl _).bind fun _ => callFully_mono hinvoke _ _
          | convert table steps ret callee =>
              exact (Extends.mapM (fun _ => applyWithin_mono table depth _ _) _).bind fun _ =>
                (callFully_mono hinvoke _ _).bind fun _ => applyWithin_mono table depth _ _
        · exact .refl _
      · unfold evalWithin
        exact evalLayer_mono hinvoke (heval frame) frame e

theorem invokeWithin_mono (depth : Nat) (f : Closure) (args : List Value) :
    Extends (invokeWithin depth f args) (invokeWithin (depth + 1) f args) :=
  (calls_mono depth).1 f args

/-! ## How families of runs end -/

/-- The runs come to this end, from some depth on. -/
def Settles (x : Nat → Run α) (s : Store) (r : Except Fault α) (s' : Store) : Prop :=
  ∃ n, ∀ d ≥ n, x d s = (r.mapError .fault, s')

/-- More depth changes nothing, once there is enough. -/
def Mono (x : Nat → Run α) : Prop := ∀ d, Extends (x d) (x (d + 1))

/-- The same ends, from the same stores. -/
def Alike (x y : Nat → Run α) : Prop := ∀ s r s', Settles x s r s' ↔ Settles y s r s'

theorem Mono.const (x : Run α) : Mono fun _ => x := fun _ => .refl x

theorem Mono.le {x : Nat → Run α} (h : Mono x) {m n : Nat} (hmn : m ≤ n) :
    Extends (x m) (x n) := by
  induction hmn with
  | refl => exact .refl _
  | step _ ih => exact ih.trans (h _)

/-- A monotone family that ends once has that end. -/
theorem Mono.settles {x : Nat → Run α} (h : Mono x) {d : Nat} {s s' : Store} {r : Except Fault α}
    (hd : x d s = (r.mapError .fault, s')) : Settles x s r s' := by
  refine ⟨d, fun e he => ?_⟩
  rcases h.le he s with hx | hx
  · rw [hd] at hx
    cases r <;> cases hx
  · rw [hx, hd]

theorem settles_bind {x : Nat → Run α} {f : Nat → α → Run β} (hx : Mono x) {s s' : Store}
    {r : Except Fault β} :
    Settles (fun d => x d >>= f d) s r s' ↔
      (∃ v s₁, Settles x s (.ok v) s₁ ∧ Settles (fun d => f d v) s₁ r s') ∨
        ∃ e, r = .error e ∧ Settles x s (.error e) s' := by
  constructor
  · rintro ⟨n, h⟩
    have hn : (x n >>= f n) s = _ := h n (Nat.le_refl n)
    rw [bind_run] at hn
    rcases he : x n s with ⟨e | v, s₁⟩ <;> rw [he] at hn
    · obtain ⟨e', rfl⟩ : ∃ e', r = .error e' := by
        cases r <;> cases hn
        exact ⟨_, rfl⟩
      cases hn
      exact .inr ⟨e', rfl, hx.settles (r := .error e') he⟩
    · have hv : Settles x s (.ok v) s₁ := hx.settles (r := .ok v) he
      refine .inl ⟨v, s₁, hv, ?_⟩
      obtain ⟨m, hm⟩ := hv
      refine ⟨max n m, fun d hd => ?_⟩
      have whole : (x d >>= f d) s = _ := h d (by omega)
      rw [bind_run, hm d (by omega)] at whole
      exact whole
  · rintro (⟨v, s₁, ⟨m, hm⟩, n, hn⟩ | ⟨e, rfl, n, hn⟩)
    · refine ⟨max m n, fun d hd => ?_⟩
      show (x d >>= f d) s = _
      rw [bind_run, hm d (by omega)]
      exact hn d (by omega)
    · refine ⟨n, fun d hd => ?_⟩
      show (x d >>= f d) s = _
      rw [bind_run, hn d hd]
      rfl

namespace Alike

variable {x y z : Nat → Run α} {f g : Nat → α → Run β}

theorem refl (x : Nat → Run α) : Alike x x := fun _ _ _ => .rfl

theorem symm (h : Alike x y) : Alike y x := fun s r s' => (h s r s').symm

theorem trans (h : Alike x y) (h' : Alike y z) : Alike x z :=
  fun s r s' => (h s r s').trans (h' s r s')

/-- How deep the runs are beyond a common depth does not matter. -/
theorem shift (k : Nat) (h : ∀ d, x (d + k) = y d) : Alike x y := by
  refine fun s r s' => ⟨fun ⟨n, hn⟩ => ⟨n, fun d hd => ?_⟩, fun ⟨n, hn⟩ => ⟨n + k, fun d hd => ?_⟩⟩
  · rw [← h d]
    exact hn _ (by omega)
  · have := hn (d - k) (by omega)
    rwa [← h, Nat.sub_add_cancel (by omega)] at this

theorem bind (hx : Mono x) (hy : Mono y) (h : Alike x y)
    (hf : ∀ v, Alike (fun d => f d v) fun d => g d v) :
    Alike (fun d => x d >>= f d) fun d => y d >>= g d := by
  intro s r s'
  rw [settles_bind hx, settles_bind hy]
  exact or_congr
    (exists_congr fun v => exists_congr fun s₁ => and_congr (h s _ s₁) (hf v s₁ r s'))
    (exists_congr fun e => and_congr_right fun _ => h s _ s')

theorem mapM {f g : Nat → α → Run β} (hf : ∀ v, Mono fun d => f d v)
    (hg : ∀ v, Mono fun d => g d v) :
    ∀ {vs : List α}, (∀ v ∈ vs, Alike (fun d => f d v) fun d => g d v) →
      Alike (fun d => vs.mapM (f d)) fun d => vs.mapM (g d)
  | [], _ => by
      simp only [List.mapM_nil]
      exact refl _
  | v :: vs, h => by
      simp only [List.mapM_cons]
      have rest (w : β) : Alike (fun d => vs.mapM (f d) >>= fun ws => Pure.pure (w :: ws))
          fun d => vs.mapM (g d) >>= fun ws => Pure.pure (w :: ws) :=
        .bind (fun d => .mapM (fun v => hf v d) vs) (fun d => .mapM (fun v => hg v d) vs)
          (mapM hf hg fun w hw => h w (List.mem_cons_of_mem _ hw)) fun _ => refl _
      exact .bind (hf v) (hg v) (h v (List.mem_cons_self ..)) rest

end Alike

/-! ## Steps in sequence -/

section Sequences

variable {table : FixTable}

theorem mono_apply (table : FixTable) (step : Step) (v : Value) :
    Mono fun d => applyWithin table d step v :=
  fun d => applyWithin_mono table d step v

theorem mono_call (f : Closure) (args : List Value) :
    Mono fun d => callFully (invokeWithin d) f args :=
  fun d => callFully_mono (fun g vs => invokeWithin_mono d g vs) f args

/-- Steps, one after another. -/
def applyAll (table : FixTable) (d : Nat) (steps : List Step) (v : Value) : Run Value :=
  steps.foldlM (fun v t => applyWithin table d t v) v

theorem applyAll_append (d : Nat) (ss ts : List Step) (v : Value) :
    applyAll table d (ss ++ ts) v = applyAll table d ss v >>= applyAll table d ts :=
  List.foldlM_append ..

theorem mono_applyAll (steps : List Step) (v : Value) :
    Mono fun d => applyAll table d steps v :=
  fun d => .foldlM (fun w t => applyWithin_mono table d t w) steps v

theorem alike_identity (v : Value) :
    Alike (fun d => applyWithin table d .identity v) fun _ => pure v :=
  .shift 1 fun _ => rfl

theorem alike_sequence (steps : List Step) (v : Value) :
    Alike (fun d => applyWithin table d (.sequence steps) v) fun d => applyAll table d steps v :=
  .shift 1 fun _ => rfl

theorem alike_singleton (t : Step) (v : Value) :
    Alike (fun d => applyAll table d [t] v) fun d => applyWithin table d t v :=
  .shift 0 fun d => by simp [applyAll]

theorem alike_parts (t : Step) (v : Value) :
    Alike (fun d => applyAll table d t.parts v) fun d => applyWithin table d t v := by
  cases t with
  | identity => exact (alike_identity v).symm
  | sequence steps => exact (alike_sequence steps v).symm
  | _ => exact alike_singleton _ v

/-- Taking needless layers away changes nothing. -/
theorem alike_seq : ∀ (steps : List Step) (v : Value),
    Alike (fun d => applyWithin table d (.seq steps) v) fun d => applyAll table d steps v := by
  have flat : ∀ (steps : List Step) (v : Value),
      Alike (fun d => applyAll table d (steps.flatMap Step.parts) v)
        fun d => applyAll table d steps v := by
    intro steps
    induction steps with
    | nil => exact fun v => .refl _
    | cons t ts ih =>
        intro v
        simp only [List.flatMap_cons, applyAll_append]
        exact .bind (mono_applyAll _ v) (mono_apply table t v) (alike_parts t v) ih
  refine fun steps v => .trans ?_ (flat steps v)
  rw [Step.seq]
  split
  · next h => rw [h]; exact alike_identity v
  · next h => rw [h]; exact (alike_singleton _ v).symm
  · exact alike_sequence _ v

end Sequences

end Marshal.Run
