import Marshal.Proofs.Halting
import Marshal.Run.Call

/-!
# Feeding functions

A call gives its arguments to a function, what is left of them to the function that this one
answers, and so on. The functions are only known while the call runs, and each of them may do
whatever it likes to the store, so what is said of a call is said of the turns that it took:
`Accounts` lists the invocations in their order, each with all that it was given, and says why
there was no further one. Nothing but these turns decides the outcome (`callFully_turns`).

The induction is on the budget of turns. What carries it is `Underway`: the turns so far are
in order and have consumed exactly what no longer remains. A function without parameters is
refused as long as arguments remain, so every turn but the last consumes one, and the budget,
one turn for each argument, is never used up.
-/

namespace Marshal.Run

/-! ## Turns -/

/-- One invocation: a function and what it was given, the store that it found, its answer and
the store that it left. -/
structure Turn where
  fn : Closure
  given : List Value
  before : Store
  answer : Except Halt Value
  after : Store

/-- Invoking the function as in this turn comes to this answer. -/
def Turn.Made (invoke : Invoke) (t : Turn) : Prop :=
  invoke t.fn t.given t.before = (t.answer, t.after)

/-- All arguments that were given in these turns. -/
def consumed (turns : List Turn) : List Value := turns.flatMap Turn.given

@[simp] theorem consumed_append (front back : List Turn) :
    consumed (front ++ back) = consumed front ++ consumed back :=
  List.flatMap_append ..

@[simp] theorem consumed_singleton (t : Turn) : consumed [t] = t.given :=
  List.flatMap_singleton ..

/-- With `remaining` arguments, the function cannot be invoked: it takes more of them, or it
takes none and they would remain forever. -/
def Refuses (f : Closure) (remaining : Nat) : Prop :=
  remaining < f.arity ∨ f.arity = 0 ∧ 0 < remaining

/-- The turns begin with `callee` in the store `s`, and each answered the function of the next
one; after them `f` is up in the store `now`, with arguments remaining unless nothing was
invoked yet. -/
inductive Leads (args : List Value) (callee : Closure) (s : Store) :
    List Turn → Closure → Store → Prop
  | start : Leads args callee s [] callee s
  | next {turns : List Turn} {t : Turn} {f : Closure} :
      Leads args callee s turns t.fn t.before → t.answer = .ok (.fn f) →
      (consumed (turns ++ [t])).length < args.length →
      Leads args callee s (turns ++ [t]) f t.after

def remainingText : String := "function for the remaining arguments"

/-- What a call comes to after these turns. -/
inductive Concludes (args : List Value) (callee : Closure) (s : Store) :
    List Turn → Except Halt Value → Store → Prop
  /-- All arguments are consumed. What was answered last is the result, whatever it is. -/
  | returned {turns : List Turn} {t : Turn} {v : Value} :
      Leads args callee s turns t.fn t.before → t.answer = .ok v →
      consumed (turns ++ [t]) = args → Concludes args callee s (turns ++ [t]) (.ok v) t.after
  /-- The last function halted. -/
  | halted {turns : List Turn} {t : Turn} {h : Halt} :
      Leads args callee s turns t.fn t.before → t.answer = .error h →
      Concludes args callee s (turns ++ [t]) (.error h) t.after
  /-- Arguments remain, and what was answered last is not a function. -/
  | stuck {turns : List Turn} {t : Turn} {v : Value} :
      Leads args callee s turns t.fn t.before → t.answer = .ok v → (∀ f, v ≠ .fn f) →
      (consumed (turns ++ [t])).length < args.length →
      Concludes args callee s (turns ++ [t])
        (.error (.fault (.shape remainingText v.kind))) t.after
  /-- The function that is up cannot be invoked. -/
  | refused {turns : List Turn} {f : Closure} {now : Store} :
      Leads args callee s turns f now → Refuses f (args.length - (consumed turns).length) →
      Concludes args callee s turns
        (.error (.fault (.arity ((consumed turns).length + f.arity) args.length))) now

/-- The call took these turns, in this order and no others, and came to this. -/
structure Accounts (invoke : Invoke) (args : List Value) (callee : Closure) (s : Store)
    (turns : List Turn) (r : Except Halt Value) (s' : Store) : Prop where
  made : ∀ t ∈ turns, t.Made invoke
  exact_arity : ∀ t ∈ turns, t.given.length = t.fn.arity
  in_order : consumed turns <+: args
  few : turns.length ≤ max 1 args.length
  concludes : Concludes args callee s turns r s'

/-! ## One turn -/

section Turns

variable {invoke : Invoke} {total budget : Nat} {args rest : List Value} {callee f g : Closure}
  {s s' now after : Store} {turns : List Turn} {v : Value} {h : Halt}

theorem refuses_iff :
    Refuses f rest.length ↔ rest.length < f.arity ∨ f.arity = 0 ∧ rest ≠ [] := by
  rw [Refuses, List.length_pos_iff]

theorem feed_refused (hf : Refuses f rest.length) : feed invoke total budget f rest now =
    (.error (.fault (.arity (total - rest.length + f.arity) total)), now) := by
  unfold feed
  rw [if_pos (refuses_iff.mp hf)]
  rfl

theorem feed_halted (hf : ¬Refuses f rest.length)
    (hi : invoke f (rest.take f.arity) now = (.error h, after)) :
    feed invoke total budget f rest now = (.error h, after) := by
  unfold feed
  rw [if_neg fun hr => hf (refuses_iff.mpr hr), run_bind, hi]

theorem feed_returned (hf : ¬Refuses f rest.length)
    (hi : invoke f (rest.take f.arity) now = (.ok v, after)) (hrest : rest.drop f.arity = []) :
    feed invoke total budget f rest now = (.ok v, after) := by
  unfold feed
  rw [if_neg fun hr => hf (refuses_iff.mpr hr), run_bind, hi, hrest]
  rfl

theorem feed_stuck (hf : ¬Refuses f rest.length)
    (hi : invoke f (rest.take f.arity) now = (.ok v, after)) (hrest : rest.drop f.arity ≠ [])
    (hv : ∀ g, v ≠ .fn g) :
    feed invoke total (budget + 1) f rest now =
      (.error (.fault (.shape remainingText v.kind)), after) := by
  obtain ⟨x, xs, hrest⟩ := List.exists_cons_of_ne_nil hrest
  unfold feed
  rw [if_neg fun hr => hf (refuses_iff.mpr hr), run_bind, hi, hrest]
  cases v with
  | fn g => exact absurd rfl (hv g)
  | _ => rfl

theorem feed_next (hf : ¬Refuses f rest.length)
    (hi : invoke f (rest.take f.arity) now = (.ok (.fn g), after))
    (hrest : rest.drop f.arity ≠ []) :
    feed invoke total (budget + 1) f rest now =
      feed invoke total budget g (rest.drop f.arity) after := by
  obtain ⟨x, xs, hrest⟩ := List.exists_cons_of_ne_nil hrest
  conv => lhs; unfold feed
  rw [if_neg fun hr => hf (refuses_iff.mpr hr), run_bind, hi, hrest]

/-! ## From turn to turn -/

/-- So far the call took these turns; `f` is up, and `rest` remains. -/
structure Underway (invoke : Invoke) (args : List Value) (callee : Closure) (s : Store)
    (turns : List Turn) (f : Closure) (rest : List Value) (now : Store) : Prop where
  made : ∀ t ∈ turns, t.Made invoke
  exact_arity : ∀ t ∈ turns, t.given.length = t.fn.arity
  split : consumed turns ++ rest = args
  few : turns.length ≤ (consumed turns).length
  leads : Leads args callee s turns f now

/-- The turn in which `f` is invoked. -/
def turnOf (invoke : Invoke) (f : Closure) (rest : List Value) (now : Store) : Turn :=
  ⟨f, rest.take f.arity, now, (invoke f (rest.take f.arity) now).1,
    (invoke f (rest.take f.arity) now).2⟩

theorem Turn.Made.run {invoke' : Invoke} {a : Except Halt Value}
    (h : (turnOf invoke f rest now).Made invoke') (ha : (turnOf invoke f rest now).answer = a) :
    invoke' f (rest.take f.arity) now = (a, (turnOf invoke f rest now).after) :=
  ha ▸ h

namespace Underway

theorem start : Underway invoke args callee s [] callee args s :=
  ⟨nofun, nofun, rfl, Nat.zero_le _, .start⟩

theorem length (hu : Underway invoke args callee s turns f rest now) :
    (consumed turns).length + rest.length = args.length := by
  rw [← hu.split, List.length_append]

theorem given (hf : ¬Refuses f rest.length) :
    (turnOf invoke f rest now).given.length = f.arity := by
  have enough : f.arity ≤ rest.length := Nat.le_of_not_lt fun hlt => hf (.inl hlt)
  exact List.length_take_of_le enough

/-- The function that is up has its turn. -/
theorem consumes (hu : Underway invoke args callee s turns f rest now) :
    consumed (turns ++ [turnOf invoke f rest now]) ++ rest.drop f.arity = args := by
  rw [consumed_append, consumed_singleton, List.append_assoc, turnOf, List.take_append_drop]
  exact hu.split

/-- If `f` cannot be invoked, the call ends here. -/
theorem refused (hu : Underway invoke args callee s turns f rest now)
    (hf : Refuses f rest.length) :
    Accounts invoke args callee s turns
      (.error (.fault (.arity (args.length - rest.length + f.arity) args.length))) now where
  made := hu.made
  exact_arity := hu.exact_arity
  in_order := ⟨rest, hu.split⟩
  few := by
    have := hu.few
    have := hu.length
    omega
  concludes := by
    rw [← hu.length, Nat.add_sub_cancel, hu.length]
    refine .refused hu.leads ?_
    rwa [← hu.length, Nat.add_sub_cancel_left]

theorem consumed_lt (hu : Underway invoke args callee s turns f rest now)
    (hrest : rest.drop f.arity ≠ []) :
    (consumed (turns ++ [turnOf invoke f rest now])).length < args.length := by
  rw [← hu.consumes, List.length_append]
  exact Nat.lt_add_of_pos_right (List.length_pos_iff.mpr hrest)

/-- If `f` has its turn, the call takes no more turns than arguments. -/
theorem few_turns (hu : Underway invoke args callee s turns f rest now) :
    (turns ++ [turnOf invoke f rest now]).length ≤ max 1 args.length := by
  have few := hu.few
  have length := hu.length
  rw [List.length_append, List.length_singleton]
  cases hu.leads with
  | start => exact Nat.le_max_left ..
  | next _ _ hlt => omega

/-- If the call ends with this turn, all turns are accounted for. -/
theorem last (hu : Underway invoke args callee s turns f rest now)
    (hf : ¬Refuses f rest.length) {r : Except Halt Value}
    (hc : Concludes args callee s (turns ++ [turnOf invoke f rest now]) r s') :
    Accounts invoke args callee s (turns ++ [turnOf invoke f rest now]) r s' where
  made := List.forall_mem_append.mpr ⟨hu.made, List.forall_mem_singleton.mpr rfl⟩
  exact_arity := List.forall_mem_append.mpr
    ⟨hu.exact_arity, List.forall_mem_singleton.mpr (given hf)⟩
  in_order := ⟨_, hu.consumes⟩
  few := hu.few_turns
  concludes := hc

/-- A function that takes nothing is refused if arguments remain. -/
theorem takes (hf : ¬Refuses f rest.length) (hrest : rest.drop f.arity ≠ []) : 0 < f.arity := by
  refine Nat.pos_of_ne_zero fun hzero => hf (.inr ⟨hzero, List.length_pos_iff.mpr ?_⟩)
  rintro rfl
  exact hrest List.drop_nil

/-- If arguments remain and the turn answers a function, that one is up. -/
theorem goes_on (hu : Underway invoke args callee s turns f rest now)
    (hf : ¬Refuses f rest.length) (hrest : rest.drop f.arity ≠ [])
    (hg : (turnOf invoke f rest now).answer = .ok (.fn g)) :
    Underway invoke args callee s (turns ++ [turnOf invoke f rest now]) g (rest.drop f.arity)
      (turnOf invoke f rest now).after where
  made := List.forall_mem_append.mpr ⟨hu.made, List.forall_mem_singleton.mpr rfl⟩
  exact_arity := List.forall_mem_append.mpr
    ⟨hu.exact_arity, List.forall_mem_singleton.mpr (given hf)⟩
  split := hu.consumes
  few := by
    have few := hu.few
    have takes := takes hf hrest
    rw [List.length_append, consumed_append, consumed_singleton, List.length_append, given hf,
      List.length_singleton]
    omega
  leads := .next hu.leads hg (hu.consumed_lt hrest)

end Underway

/-! ## The whole call -/

/-- From wherever the call is, it takes its further turns, and these decide what it comes to. -/
theorem feed_accounts : ∀ {budget : Nat} {turns : List Turn} {f : Closure} {rest : List Value}
    {now : Store}, Underway invoke args callee s turns f rest now → rest.length ≤ budget →
      ∃ more r s', Accounts invoke args callee s (turns ++ more) r s' ∧
        ∀ invoke' : Invoke, (∀ t ∈ more, t.Made invoke') →
          feed invoke' args.length budget f rest now = (r, s') := by
  intro budget turns f rest now hu hbudget
  by_cases hf : Refuses f rest.length
  · refine ⟨[], _, now, ?_, fun _ _ => feed_refused hf⟩
    rw [List.append_nil]
    exact hu.refused hf
  have run {invoke' : Invoke} {a : Except Halt Value}
      (h : ∀ t ∈ [turnOf invoke f rest now], t.Made invoke') :=
    (List.forall_mem_singleton.mp h).run (a := a)
  cases ha : (turnOf invoke f rest now).answer with
  | error h =>
      exact ⟨[_], _, _, hu.last hf (.halted hu.leads ha),
        fun _ hmade => feed_halted hf (run hmade ha)⟩
  | ok v =>
      by_cases hrest : rest.drop f.arity = []
      · have all := hu.consumes
        rw [hrest, List.append_nil] at all
        exact ⟨[_], _, _, hu.last hf (.returned hu.leads ha all),
          fun _ hmade => feed_returned hf (run hmade ha) hrest⟩
      -- Arguments remain, so the budget is not used up.
      cases budget with
      | zero =>
          rw [List.eq_nil_of_length_eq_zero (Nat.le_zero.mp hbudget)] at hrest
          exact absurd List.drop_nil hrest
      | succ budget =>
          by_cases hv : ∃ g, v = .fn g
          · obtain ⟨g, rfl⟩ := hv
            have less : (rest.drop f.arity).length ≤ budget := by
              have takes := Underway.takes hf hrest
              rw [List.length_drop]
              omega
            obtain ⟨more, r, s', haccounts, hruns⟩ := feed_accounts (hu.goes_on hf hrest ha) less
            refine ⟨turnOf invoke f rest now :: more, r, s', ?_, fun invoke' hmade => ?_⟩
            · rwa [List.append_assoc, List.singleton_append] at haccounts
            · rw [List.forall_mem_cons] at hmade
              rw [feed_next hf (hmade.1.run ha) hrest]
              exact hruns invoke' hmade.2
          · exact ⟨[_], _, _, hu.last hf (.stuck hu.leads ha (fun g hg => hv ⟨g, hg⟩)
              (hu.consumed_lt hrest)),
              fun _ hmade => feed_stuck hf (run hmade ha) hrest
                fun g hg => hv ⟨g, hg⟩⟩

/-- An account of a call says when it returns. -/
theorem Accounts.returns_iff {r : Except Halt Value}
    (h : Accounts invoke args callee s turns r s') :
    r = .ok v ↔ consumed turns = args ∧ turns.getLast?.map Turn.answer = some (.ok v) := by
  cases h.concludes with
  | returned _ ha hall => simp [hall, ha]
  | halted _ ha => simp [ha]
  | stuck _ _ _ hlt =>
      refine iff_of_false nofun fun hall => ?_
      rw [hall.1] at hlt
      exact Nat.lt_irrefl _ hlt
  | refused hleads =>
      refine iff_of_false nofun fun hall => ?_
      cases hleads with
      | start => cases hall.2
      | next _ _ hlt =>
          rw [hall.1] at hlt
          exact Nat.lt_irrefl _ hlt

end Turns

/-- Every call has an account of turns, and no invocation beside these turns has a part in what it
comes to: it comes to the same however functions are invoked otherwise. It returns exactly if the
turns consumed all arguments and the last one returned, whose answer is the result. -/
theorem callFully_turns (invoke : Invoke) (callee : Closure) (args : List Value) (s : Store) :
    ∃ turns r s', Accounts invoke args callee s turns r s' ∧
      (∀ v, r = .ok v ↔
        consumed turns = args ∧ turns.getLast?.map Turn.answer = some (.ok v)) ∧
      ∀ invoke' : Invoke, (∀ t ∈ turns, t.Made invoke') →
        callFully invoke' callee args s = (r, s') := by
  obtain ⟨turns, r, s', haccounts, hruns⟩ := feed_accounts
    (.start : Underway invoke args callee s [] callee args s) (Nat.le_refl _)
  exact ⟨turns, r, s', haccounts, fun v => haccounts.returns_iff, hruns⟩

end Marshal.Run
