import Mathlib.Data.List.Nodup
import Mathlib.Data.Fintype.Basic
import Marshal.Proofs.Expansion

/-!
# Following aliases exactly

Resolving takes alias steps until a type is not a reference. To be sure to end, it
remembers the declarations that it has passed, without their arguments, and gives up
where it meets one of them again. The steps here know nothing of that (`Unfolds`,
`Chain`). What stops them is one of four things (`Stops`), and the first that comes up
on the only chain there is decides the answer (`follow_iff`).

So an answer is exact as long as no declaration is passed twice (`resolve_exact`).
Steps that go on for ever do come back to a declaration, as there are finitely many, and
are always refused. But steps that come back to a declaration need not go on for ever:
an alias of its parameter passes through itself as often as it is nested
(`resolve_twice`).
-/

namespace Marshal

open Arena

namespace Catalog

/-- One alias step: a reference to the declaration gives way to the instance of its body,
which may be new in the arena. -/
def Unfolds (c : Catalog) (key : Key) (a : Arena) (x : TyId) (b : Arena) (y : TyId) : Prop :=
  ∃ args d, a.term? x = some (.named key args) ∧ c.find? key = some d ∧
    args.length = d.params ∧ instantiate d.body args a = (y, b)

/-- Alias steps one after the other, with the declarations that they pass. -/
inductive Chain (c : Catalog) : Arena → TyId → List Key → Arena → TyId → Prop
  | refl {a : Arena} {x : TyId} : Chain c a x [] a x
  | head {a b d : Arena} {x y z : TyId} {key : Key} {keys : List Key} :
      c.Unfolds key a x b y → Chain c b y keys d z → Chain c a x (key :: keys) d z

/-- The alias steps from the type never end. -/
def Forever (c : Catalog) (a : Arena) (x : TyId) : Prop :=
  ∃ f : Nat → Arena × TyId, f 0 = (a, x) ∧
    ∀ n, ∃ key, c.Unfolds key (f n).1 (f n).2 (f (n + 1)).1 (f (n + 1)).2

/-- What stops the steps that began at `origin`, in a type to which they came past these
declarations. -/
inductive Stops (c : Catalog) (origin : TyId) (passed : List Key) (a : Arena) (x : TyId) :
    Except Fault TyId → Prop
  | ended : a.isReference x = false → Stops c origin passed a x (.ok x)
  | passed {key : Key} {args : List TyId} : a.term? x = some (.named key args) → key ∈ passed →
      Stops c origin passed a x (.error (.cyclic (a.text origin) aliasLoop))
  | undeclared {key : Key} {args : List TyId} : a.term? x = some (.named key args) →
      key ∉ passed → c.find? key = none →
      Stops c origin passed a x (.error (.unresolved key.module key.name))
  | misapplied {key : Key} {args : List TyId} {d : Decl} : a.term? x = some (.named key args) →
      key ∉ passed → c.find? key = some d → args.length ≠ d.params →
      Stops c origin passed a x
        (.error (.unsupported key.text (wrongParameters d.params args.length)))

section

variable {c : Catalog} {a b d : Arena} {x y z origin : TyId} {key : Key} {args : List TyId}
  {keys passed : List Key} {r : Except Fault TyId}

theorem Unfolds.expand (h : c.Unfolds key a x b y) (hx : a.term? x = some (.named key args)) :
    c.expand key args a = (.ok y, b) := by
  obtain ⟨args', d, hx', hd, hlen, hrun⟩ := h
  cases hx.symm.trans hx'
  exact expand_found hd hlen hrun

theorem Unfolds.unique {key' : Key} {b' : Arena} {y' : TyId} (h : c.Unfolds key a x b y)
    (h' : c.Unfolds key' a x b' y') : key = key' ∧ b = b' ∧ y = y' := by
  obtain ⟨args, d, hx, hd, -, hrun⟩ := h
  obtain ⟨args', d', hx', hd', -, hrun'⟩ := h'
  cases hx.symm.trans hx'
  cases hd.symm.trans hd'
  cases hrun.symm.trans hrun'
  exact ⟨rfl, rfl, rfl⟩

theorem Unfolds.declared (h : c.Unfolds key a x b y) : key ∈ c.decls.map Decl.key := by
  obtain ⟨_, d, -, hd, -⟩ := h
  obtain ⟨hmem, rfl⟩ := key_of_lookup hd
  exact List.mem_map_of_mem hmem

/-- At a reference to a declaration not passed yet a step can be taken, or it stops the
steps. -/
theorem unfolds_or_stops (c : Catalog) (origin : TyId)
    (hx : a.term? x = some (.named key args)) (hp : key ∉ passed) :
    (∃ b y, c.Unfolds key a x b y) ∨ ∃ f, c.Stops origin passed a x (.error f) := by
  cases hd : c.find? key with
  | none => exact .inr ⟨_, .undeclared hx hp hd⟩
  | some d =>
      by_cases hlen : args.length = d.params
      · exact .inl ⟨_, _, args, d, hx, hd, hlen, rfl⟩
      · exact .inr ⟨_, .misapplied hx hp hd hlen⟩

theorem Chain.declared (h : c.Chain a x keys b y) : ∀ key ∈ keys, key ∈ c.decls.map Decl.key := by
  induction h with
  | refl => simp
  | head hstep _ ih => exact List.forall_mem_cons.mpr ⟨hstep.declared, ih⟩

/-- Steps that pass no declaration twice are at most as many as there are declarations. -/
theorem Chain.length_le (h : c.Chain a x keys b y) (hkeys : keys.Nodup) : keys.length ≤ c.size := by
  have within := (List.subperm_of_subset hkeys h.declared).length_le
  rwa [List.length_map] at within

/-! ## Steps in an arena that has grown from a built one -/

section Based

variable {a₀ : Arena} {decls : List Decl}

/-- A step leads to the instance of the body, whether it was there before or not. -/
theorem Unfolds.inst (h : Based a₀ decls a) (hxy : (ofDecls a₀ decls).Unfolds key a x b y) :
    Based a₀ decls b ∧ ∃ args d, a.term? x = some (.named key args) ∧
      lookup decls key = some d ∧ b.Inst args d.body y := by
  obtain ⟨args, d, hx, hd, -, hrun⟩ := hxy
  obtain ⟨v, b', hv, hinst, -⟩ := instantiate_inst h.built.sound h.built.marked h.within h.sound
    (h.body hd) fun v hv => h.sound.has_child hx hv
  cases hv.run.symm.trans hrun
  exact ⟨h.later hv.within hv.sound, args, d, hx, hd, hinst⟩

end Based

/-! ## The chain that is followed -/

theorem isReference_of_named (hx : a.term? x = some (.named key args)) :
    a.isReference x = true := by
  rw [isReference, hx]
  rfl

theorem not_named (hx : a.isReference x = false) (key : Key) (args : List TyId) :
    a.term? x ≠ some (.named key args) := by
  intro hx'
  rw [isReference_of_named hx'] at hx
  cases hx

/-- What stops the steps is met where they are followed. -/
theorem Stops.follow (h : c.Stops origin passed a x r) (hx : a.term? x = some (.named key args))
    (steps : Nat) : c.follow origin (steps + 1) passed key args a = (r, a) := by
  cases h with
  | ended hend => exact absurd hx (not_named hend key args)
  | passed hx' hp =>
      cases hx.symm.trans hx'
      exact follow_passed hp
  | undeclared hx' hp hd =>
      cases hx.symm.trans hx'
      refine follow_stops hp ?_
      rw [Catalog.expand, hd]
      rfl
  | misapplied hx' hp hd hlen =>
      cases hx.symm.trans hx'
      refine follow_stops hp ?_
      rw [Catalog.expand, hd]
      dsimp only
      rw [if_neg hlen]
      rfl

/-- A chain that passes no declaration twice is followed to what stops it. -/
theorem Chain.follow (h : c.Chain a x keys b y) :
    ∀ {steps : Nat} {passed : List Key} {key : Key} {args : List TyId},
      a.term? x = some (.named key args) → keys.length < steps →
      (keys.reverse ++ passed).Nodup → c.Stops origin (keys.reverse ++ passed) b y r →
      c.follow origin steps passed key args a = (r, b) := by
  induction h with
  | refl =>
      intro steps passed key args hx hsteps _ hstops
      obtain ⟨n, rfl⟩ := Nat.exists_eq_succ_of_ne_zero (Nat.ne_of_gt hsteps)
      exact hstops.follow hx n
  | @head a e b x w y k keys hstep hrest ih =>
      intro steps passed key args hx hsteps hnodup hstops
      obtain ⟨n, rfl⟩ := Nat.exists_eq_succ_of_ne_zero (Nat.ne_of_gt (Nat.zero_lt_of_lt hsteps))
      have hkey : key = k := by
        obtain ⟨args', d, hx', -⟩ := hstep
        cases hx.symm.trans hx'
        rfl
      subst hkey
      rw [List.reverse_cons, List.append_assoc, List.singleton_append] at hnodup hstops
      have hp : key ∉ passed :=
        (List.nodup_cons.mp (List.nodup_append.mp hnodup).2.1).1
      by_cases hw : ∃ next nextArgs, e.term? w = some (.named next nextArgs)
      · obtain ⟨next, nextArgs, hw⟩ := hw
        rw [follow_goes hp (hstep.expand hx) hw]
        exact ih hw (Nat.lt_of_succ_lt_succ hsteps) hnodup hstops
      · -- The next type is not a reference, so the chain ends there.
        have hw : ∀ key args, e.term? w ≠ some (.named key args) :=
          fun key args h => hw ⟨key, args, h⟩
        cases hrest with
        | refl =>
            cases hstops with
            | ended => exact follow_ends hp (hstep.expand hx) hw
            | passed h => exact absurd h (hw _ _)
            | undeclared h => exact absurd h (hw _ _)
            | misapplied h => exact absurd h (hw _ _)
        | head hnext => exact absurd hnext.choose_spec.choose_spec.1 (hw _ _)

/-- After declarations that have been passed, some chain comes to what stops it. -/
theorem exists_chain_past (c : Catalog) (origin : TyId) (a : Arena) (x : TyId) (passed : List Key)
    (hpassed : passed.Nodup) (hdeclared : ∀ key ∈ passed, key ∈ c.decls.map Decl.key) :
    ∃ keys b y r, c.Chain a x keys b y ∧ (keys.reverse ++ passed).Nodup ∧
      c.Stops origin (keys.reverse ++ passed) b y r := by
  -- Each step passes one more declaration.
  induction hn : c.size - passed.length using Nat.strong_induction_on generalizing a x passed with
  | _ n ih =>
    subst hn
    have here {r : Except Fault TyId} (h : c.Stops origin passed a x r) :
        ∃ keys b y r, c.Chain a x keys b y ∧ (keys.reverse ++ passed).Nodup ∧
          c.Stops origin (keys.reverse ++ passed) b y r :=
      ⟨[], a, x, r, .refl, hpassed, h⟩
    by_cases hx : ∃ key args, a.term? x = some (.named key args)
    · obtain ⟨key, args, hx⟩ := hx
      by_cases hp : key ∈ passed
      · exact here (.passed hx hp)
      rcases unfolds_or_stops c origin hx hp with ⟨b, y, hstep⟩ | ⟨f, hf⟩
      · have hnodup : (key :: passed).Nodup := List.nodup_cons.mpr ⟨hp, hpassed⟩
        have hdeclared : ∀ k ∈ key :: passed, k ∈ c.decls.map Decl.key :=
          List.forall_mem_cons.mpr ⟨hstep.declared, hdeclared⟩
        have fits := (List.subperm_of_subset hnodup hdeclared).length_le
        rw [List.length_map, List.length_cons] at fits
        have hlt : c.size - (key :: passed).length < c.size - passed.length := by
          rw [List.length_cons, size]
          omega
        obtain ⟨keys, d, z, r, hrest, hkeys, hstops⟩ := ih _ hlt b y _ hnodup hdeclared rfl
        refine ⟨key :: keys, d, z, r, .head hstep hrest, ?_⟩
        rw [List.reverse_cons, List.append_assoc, List.singleton_append]
        exact ⟨hkeys, hstops⟩
      · exact here hf
    · refine here (.ended ?_)
      cases ht : a.term? x with
      | none => rw [isReference, ht]; rfl
      | some t =>
          rw [isReference, ht]
          cases t with
          | named key args => exact absurd ⟨key, args, ht⟩ hx
          | _ => rfl

theorem Stops.reverse (h : c.Stops origin keys a x r) : c.Stops origin keys.reverse a x r := by
  cases h with
  | ended hend => exact .ended hend
  | passed hx hp => exact .passed hx (List.mem_reverse.mpr hp)
  | undeclared hx hp hd => exact .undeclared hx (mt List.mem_reverse.mp hp) hd
  | misapplied hx hp hd hlen => exact .misapplied hx (mt List.mem_reverse.mp hp) hd hlen

/-- Some chain comes to what stops it. -/
theorem exists_chain (c : Catalog) (origin : TyId) (a : Arena) (x : TyId) :
    ∃ keys b y r, c.Chain a x keys b y ∧ keys.Nodup ∧ c.Stops origin keys b y r := by
  obtain ⟨keys, b, y, r, hchain, hkeys, hstops⟩ :=
    exists_chain_past c origin a x [] List.nodup_nil (by simp)
  rw [List.append_nil] at hkeys hstops
  exact ⟨keys, b, y, r, hchain, List.nodup_reverse.mp hkeys,
    List.reverse_reverse keys ▸ hstops.reverse⟩

/-- Following comes to what stops the chain, and to nothing else. -/
theorem follow_iff (hx : a.term? x = some (.named key args)) :
    c.follow origin (c.size + 1) [] key args a = (r, b) ↔
      ∃ keys y, c.Chain a x keys b y ∧ keys.Nodup ∧ c.Stops origin keys b y r := by
  have followed {keys : List Key} {b : Arena} {y : TyId} {r : Except Fault TyId}
      (h : c.Chain a x keys b y) (hkeys : keys.Nodup) (hstops : c.Stops origin keys b y r) :
      c.follow origin (c.size + 1) [] key args a = (r, b) := by
    refine h.follow hx (Nat.lt_succ_of_le (h.length_le hkeys)) ?_ ?_
    · rw [List.append_nil]
      exact List.nodup_reverse.mpr hkeys
    · rw [List.append_nil]
      exact hstops.reverse
  constructor
  · intro h
    obtain ⟨keys, b', y, r', hchain, hkeys, hstops⟩ := exists_chain c origin a x
    cases (followed hchain hkeys hstops).symm.trans h
    exact ⟨keys, y, hchain, hkeys, hstops⟩
  · rintro ⟨keys, y, hchain, hkeys, hstops⟩
    exact followed hchain hkeys hstops

/-! ## Answers -/

theorem stops_ok_iff : c.Stops origin keys a x (.ok y) ↔ y = x ∧ a.isReference x = false := by
  constructor
  · rintro ⟨hend⟩
    exact ⟨rfl, hend⟩
  · rintro ⟨rfl, hend⟩
    exact .ended hend

theorem stops_unresolved_iff (hkeys : ∀ key ∈ keys, key ∈ c.decls.map Decl.key) {m n : String} :
    c.Stops origin keys a x (.error (.unresolved m n)) ↔
      ∃ args, a.term? x = some (.named ⟨m, n⟩ args) ∧ c.find? ⟨m, n⟩ = none := by
  constructor
  · rintro (_ | _ | ⟨hx, -, hd⟩)
    exact ⟨_, hx, hd⟩
  · rintro ⟨args, hx, hd⟩
    refine .undeclared hx (fun hp => ?_) hd
    obtain ⟨d, hmem, hkey⟩ := List.mem_map.mp (hkeys _ hp)
    exact absurd (List.find?_eq_none.mp hd d hmem) (by simpa using hkey)

theorem stops_unsupported_iff {what why : String} :
    c.Stops origin keys a x (.error (.unsupported what why)) ↔
      ∃ next args d, a.term? x = some (.named next args) ∧ next ∉ keys ∧
        c.find? next = some d ∧ args.length ≠ d.params ∧ what = next.text ∧
          why = wrongParameters d.params args.length := by
  constructor
  · rintro (_ | _ | _ | ⟨hx, hp, hd, hlen⟩)
    exact ⟨_, _, _, hx, hp, hd, hlen, rfl, rfl⟩
  · rintro ⟨next, args, d, hx, hp, hd, hlen, rfl, rfl⟩
    exact .misapplied hx hp hd hlen

theorem stops_cyclic_iff {what why : String} :
    c.Stops origin keys a x (.error (.cyclic what why)) ↔
      ∃ next args, a.term? x = some (.named next args) ∧ next ∈ keys ∧
        what = a.text origin ∧ why = aliasLoop := by
  constructor
  · rintro (_ | ⟨hx, hp⟩)
    exact ⟨_, _, hx, hp, rfl, rfl⟩
  · rintro ⟨next, args, hx, hp, rfl, rfl⟩
    exact .passed hx hp

theorem resolve_ok_iff (hx : a.term? x = some (.named key args)) {ref : Referent} :
    c.resolve x a = (.ok ref, b) ↔
      ref = ⟨key, ref.node, c.isRecursive key, c.isRegular key⟩ ∧
        c.follow x (c.size + 1) [] key args a = (.ok ref.node, b) := by
  rw [resolve_named hx]
  rcases hf : c.follow x (c.size + 1) [] key args a with ⟨f | node, b'⟩
  · rw [ArenaM.bind_error hf]
    constructor
    · rintro ⟨⟩
    · rintro ⟨-, ⟨⟩⟩
  · rw [ArenaM.bind_ok hf]
    constructor
    · rintro ⟨⟩
      exact ⟨rfl, rfl⟩
    · rintro ⟨href, ⟨⟩⟩
      rw [href]
      rfl

theorem resolve_error_iff (hx : a.term? x = some (.named key args)) {f : Fault} :
    c.resolve x a = (.error f, b) ↔
      c.follow x (c.size + 1) [] key args a = (.error f, b) := by
  rw [resolve_named hx]
  rcases hf : c.follow x (c.size + 1) [] key args a with ⟨f' | node, b'⟩
  · rw [ArenaM.bind_error hf]
    constructor
    · rintro ⟨⟩
      rfl
    · rintro ⟨⟩
      rfl
  · rw [ArenaM.bind_ok hf]
    constructor
    · rintro ⟨⟩
    · rintro ⟨⟩

/-- Steps that never end take every chain on. -/
theorem Chain.goes_on (h : c.Chain a x keys b y) :
    c.Forever a x → ∃ key d z, c.Unfolds key b y d z := by
  induction h with
  | refl =>
      rintro ⟨f, hf, hstep⟩
      obtain ⟨key, hkey⟩ := hstep 0
      rw [hf] at hkey
      exact ⟨key, _, _, hkey⟩
  | head hfirst _ ih =>
      rintro ⟨f, hf, hstep⟩
      obtain ⟨key, hkey⟩ := hstep 0
      rw [hf] at hkey
      obtain ⟨rfl, hb, hy⟩ := hfirst.unique hkey
      exact ih ⟨fun n => f (n + 1), Prod.ext hb.symm hy.symm, fun n => hstep (n + 1)⟩

/-- What a reference resolves to is what its alias steps come to, as long as they pass no
declaration twice; where they do, they are refused, and that includes all that never end. -/
theorem resolve_exact (hx : a.term? x = some (.named key args)) :
    (∀ ref b, c.resolve x a = (.ok ref, b) ↔
      ref = ⟨key, ref.node, c.isRecursive key, c.isRegular key⟩ ∧
        ∃ keys, c.Chain a x keys b ref.node ∧ keys.Nodup ∧ b.isReference ref.node = false) ∧
    (∀ m n b, c.resolve x a = (.error (.unresolved m n), b) ↔
      ∃ keys y args, c.Chain a x keys b y ∧ keys.Nodup ∧
        b.term? y = some (.named ⟨m, n⟩ args) ∧ c.find? ⟨m, n⟩ = none) ∧
    (∀ what why b, c.resolve x a = (.error (.unsupported what why), b) ↔
      ∃ keys y next args d, c.Chain a x keys b y ∧ keys.Nodup ∧
        b.term? y = some (.named next args) ∧ next ∉ keys ∧ c.find? next = some d ∧
          args.length ≠ d.params ∧ what = next.text ∧
            why = wrongParameters d.params args.length) ∧
    (∀ what why b, c.resolve x a = (.error (.cyclic what why), b) ↔
      ∃ keys y next args, c.Chain a x keys b y ∧ keys.Nodup ∧
        b.term? y = some (.named next args) ∧ next ∈ keys ∧
          what = b.text x ∧ why = aliasLoop) ∧
    (c.Forever a x → ∃ what why b, c.resolve x a = (.error (.cyclic what why), b)) := by
  have refused (f : Fault) (b : Arena) : c.resolve x a = (.error f, b) ↔
      ∃ keys y, c.Chain a x keys b y ∧ keys.Nodup ∧ c.Stops x keys b y (.error f) :=
    (resolve_error_iff hx).trans (follow_iff hx)
  refine ⟨fun ref b => ?_, fun m n b => ?_, fun what why b => ?_, fun what why b => ?_,
    fun hforever => ?_⟩
  · rw [resolve_ok_iff hx, follow_iff hx]
    simp only [stops_ok_iff]
    constructor
    · rintro ⟨href, keys, _, hchain, hkeys, rfl, hend⟩
      exact ⟨href, keys, hchain, hkeys, hend⟩
    · rintro ⟨href, keys, hchain, hkeys, hend⟩
      exact ⟨href, keys, _, hchain, hkeys, rfl, hend⟩
  · rw [refused]
    constructor
    · rintro ⟨keys, y, hchain, hkeys, hstops⟩
      obtain ⟨args, hy, hd⟩ := (stops_unresolved_iff hchain.declared).mp hstops
      exact ⟨keys, y, args, hchain, hkeys, hy, hd⟩
    · rintro ⟨keys, y, args, hchain, hkeys, hy, hd⟩
      exact ⟨keys, y, hchain, hkeys, (stops_unresolved_iff hchain.declared).mpr ⟨args, hy, hd⟩⟩
  · rw [refused]
    constructor
    · rintro ⟨keys, y, hchain, hkeys, hstops⟩
      obtain ⟨next, args, d, hstop⟩ := stops_unsupported_iff.mp hstops
      exact ⟨keys, y, next, args, d, hchain, hkeys, hstop⟩
    · rintro ⟨keys, y, next, args, d, hchain, hkeys, hstop⟩
      exact ⟨keys, y, hchain, hkeys, stops_unsupported_iff.mpr ⟨next, args, d, hstop⟩⟩
  · rw [refused]
    constructor
    · rintro ⟨keys, y, hchain, hkeys, hstops⟩
      obtain ⟨next, args, hstop⟩ := stops_cyclic_iff.mp hstops
      exact ⟨keys, y, next, args, hchain, hkeys, hstop⟩
    · rintro ⟨keys, y, next, args, hchain, hkeys, hstop⟩
      exact ⟨keys, y, hchain, hkeys, stops_cyclic_iff.mpr ⟨next, args, hstop⟩⟩
  · obtain ⟨keys, b, y, r, hchain, hkeys, hstops⟩ := exists_chain c x a x
    obtain ⟨key, d, z, args, decl, hy, hd, hlen, -⟩ := hchain.goes_on hforever
    -- A step can be taken from there, so only a declaration that was passed stops it.
    cases hstops with
    | ended hend => exact absurd hy (not_named hend key args)
    | passed hy' hp =>
        exact ⟨_, _, b, (refused _ b).mpr
          ⟨keys, y, hchain, hkeys, .passed hy' hp⟩⟩
    | undeclared hy' _ hd' =>
        cases hy.symm.trans hy'
        cases hd.symm.trans hd'
    | misapplied hy' _ hd' hlen' =>
        cases hy.symm.trans hy'
        cases hd.symm.trans hd'
        exact absurd hlen hlen'

end

/-! ## An alias of its parameter -/

namespace Nested

def same : Key := ⟨"M", "same"⟩

def arena : Arena :=
  [.var 0, .named same [Scalar.int.id], .named same [⟨6⟩]].foldl (fun a t => (intern t a).2) .new

/-- `same<'a>` is `'a`. -/
def catalog : Catalog := ofDecls arena [⟨same, 1, ⟨5⟩⟩]

/-- The reference `same<int>`. -/
def once : TyId := ⟨6⟩

/-- The reference `same<same<int>>`. -/
def twice : TyId := ⟨7⟩

theorem unfolds_once : catalog.Unfolds same arena once arena Scalar.int.id :=
  ⟨[Scalar.int.id], ⟨same, 1, ⟨5⟩⟩, rfl, rfl, rfl, rfl⟩

theorem unfolds_twice : catalog.Unfolds same arena twice arena once :=
  ⟨[once], ⟨same, 1, ⟨5⟩⟩, rfl, rfl, rfl, rfl⟩

end Nested

/-- One step leads from `same<int>` to `int`, so that is what it resolves to. -/
theorem resolve_exact_once : Nested.catalog.resolve Nested.once Nested.arena =
    (.ok ⟨Nested.same, Scalar.int.id, false, true⟩, Nested.arena) :=
  ((resolve_exact (c := Nested.catalog) (a := Nested.arena) (x := Nested.once) rfl).1 _ _).mpr
    ⟨rfl, [Nested.same], .head Nested.unfolds_once .refl, List.nodup_singleton _, rfl⟩

/-- Two steps lead from `same<same<int>>` to `int`, but the second one passes the same
declaration again: the reference is refused like one whose steps never end. -/
theorem resolve_twice :
    ¬((∃ ref b, Nested.catalog.resolve Nested.twice Nested.arena = (.ok ref, b)) ↔
      ∃ keys b y, Nested.catalog.Chain Nested.arena Nested.twice keys b y ∧
        b.isReference y = false) ∧
    ¬((∃ what why b, Nested.catalog.resolve Nested.twice Nested.arena =
        (.error (.cyclic what why), b)) ↔
      Nested.catalog.Forever Nested.arena Nested.twice) := by
  have refused : Nested.catalog.resolve Nested.twice Nested.arena =
      (.error (.cyclic "M.same<M.same<int>>" aliasLoop), Nested.arena) := rfl
  have ends : Nested.catalog.Chain Nested.arena Nested.twice [Nested.same, Nested.same]
      Nested.arena Scalar.int.id :=
    .head Nested.unfolds_twice (.head Nested.unfolds_once .refl)
  refine ⟨fun h => ?_, fun h => ?_⟩
  · obtain ⟨ref, b, hok⟩ := h.mpr ⟨_, _, _, ends, rfl⟩
    cases refused.symm.trans hok
  · obtain ⟨key, b, y, args, d, hint, -⟩ := ends.goes_on (h.mp ⟨_, _, _, refused⟩)
    cases hint

end Catalog

end Marshal
