import Marshal.Proofs.Instances
import Marshal.Proofs.Interning

/-!
# Pruned traversals

Substitution does not enter subtrees without a parameter, and the search for references
none without a reference. Beside them stand the traversals that enter everything:
`refill` takes every node apart and interns it again, and `preorder` lists every node as
often as it is met. The pruned ones do not differ from them in anything that can be seen
(`Interns.pruned`).

For substitution it would not do to compare the results, which are one type by what
`Inst` says of both. The ids of new nodes are seen too, so the arena has to grow in the
same order. Both runs are therefore followed at once, from equal arenas to equal arenas
(`foldUpTo_eq_refill`). Where only one of them enters a subtree, it finds every node
stored and adds nothing (`refill_of_inst`).

Neither statement depends on the number of layers that the plain traversal is given, as
long as it reaches the leaves.
-/

namespace Marshal

namespace Arena

variable {a b : Arena} {args : List TyId} {x y : TyId} {t : Term}

/-! ## With nothing pruned -/

/-- What is put for a term: the argument of a parameter, if there is one. -/
def argument? (args : List TyId) : Term → Option TyId
  | .var i => args[i]?
  | _ => none

/-- Substitution that rebuilds every node over its children and interns it again, leaves
too. -/
def refill (args : List TyId) : Nat → TyId → StateM Arena TyId
  | 0, ty => pure ty
  | depth + 1, ty => do
    let a ← get
    match a.term? ty with
    | none => pure ty
    | some t =>
      match argument? args t with
      | some v => pure v
      | none => do
        let ids ← t.children.mapM (refill args depth)
        intern (t.rebuild ids)

/-! ## Runs over the children -/

theorem bind_of_eq {α β : Type} {f f' : StateM Arena α} (g : α → StateM Arena β)
    (h : f a = f' a) : (f >>= g) a = (f' >>= g) a :=
  bind_of_run h

theorem mapM_stays {f : TyId → StateM Arena TyId} :
    ∀ {l ids : List TyId}, ids.length = l.length → (∀ p ∈ l.zip ids, f p.1 a = (p.2, a)) →
      l.mapM f a = (ids, a)
  | [], [], _, _ => rfl
  | x :: l, y :: ids, hlen, h => by
      have first : f x a = (y, a) := h (x, y) (List.mem_cons_self ..)
      have rest : l.mapM f a = (ids, a) :=
        mapM_stays (Nat.succ.inj hlen) fun p hp => h p (List.mem_cons_of_mem _ hp)
      rw [List.mapM_cons, bind_of_run first, bind_of_run rest]
      rfl

/-- Two computations that agree on the members in all later arenas agree on the list. -/
theorem mapM_congr {f g : TyId → StateM Arena TyId} :
    ∀ {l : List TyId} {b : Arena}, b.Sound → b.Marked →
      (∀ x ∈ l, ∀ {c}, b.Within c → c.Sound → c.Marked → f x c = g x c ∧ Fills (f x) c) →
      l.mapM f b = l.mapM g b
  | [], _, _, _, _ => rfl
  | x :: l, b, hb, hm, h => by
      obtain ⟨hfg, calls, hcalls, -⟩ := h x (List.mem_cons_self ..) (.refl b) hb hm
      have rest : l.mapM f (f x b).2 = l.mapM g (f x b).2 :=
        mapM_congr (hcalls.sound hb) (hcalls.marked hb hm) fun u hu {c} hbc hc hmc =>
          h u (List.mem_cons_of_mem _ hu) ((hcalls.within hb).trans hbc) hc hmc
      rw [List.mapM_cons, List.mapM_cons, bind_of_eq _ hfg.symm]
      exact bind_of_eq (fun ys => pure ((f x b).1 :: ys)) rest

/-! ## Substitution -/

theorem refill_run {depth : Nat} (ht : a.term? x = some t) :
    refill args (depth + 1) x a =
      (match argument? args t with
      | some v => pure v
      | none => do
        let ids ← t.children.mapM (refill args depth)
        intern (t.rebuild ids) : StateM Arena TyId) a := by
  rw [refill, bind_of_run (show (get : StateM Arena Arena) a = (a, a) from rfl), ht]

theorem argument?_of_not_var (h : t.isVar = false) : argument? args t = none := by
  cases t with
  | var => cases h
  | _ => rfl

/-- An instance that is stored is found node by node. -/
theorem refill_of_inst (ha : a.Sound) (h : a.Inst args x y) :
    ∀ {depth : Nat}, x.index < depth → refill args depth x a = (y, a) := by
  induction h with
  | @var x i ht =>
      rintro (_ | depth) hx
      · cases hx
      · rw [refill_run ht, argument?]
        cases args[i]? with
        | some v => rfl
        | none => exact intern_term? ha ht
  | @term x y t ids ht hvar hlen _ hy ih =>
      rintro (_ | depth) hx
      · cases hx
      · have parts : t.children.mapM (refill args depth) a = (ids, a) := by
          refine mapM_stays hlen fun p hp => ih p hp ?_
          have below := ha.below ht p.1 (List.of_mem_zip hp).1
          omega
        rw [refill_run ht, argument?_of_not_var hvar]
        exact (bind_of_run parts).trans (intern_term? ha hy)

theorem substitute_open (ht : a.term? x = some t) (hvar : t.isVar = false)
    (hflag : (a.flags x).hasVar = true) : substitute args a x = none := by
  rw [substitute, if_pos hflag, ht]
  cases t with
  | var => cases hvar
  | _ => rfl

/-- A leaf other than a parameter is closed. -/
theorem isLeaf_of_open (hm : a.Marked) (ht : a.term? x = some t) (hvar : t.isVar = false)
    (hflag : (a.flags x).hasVar = true) : t.isLeaf = false := by
  rw [hm.hasVar ht, hvar, Bool.false_or, List.any_eq_true] at hflag
  obtain ⟨c, hc, -⟩ := hflag
  cases t with
  | scalar | opaqueTy => cases hc
  | var => cases hvar
  | _ => rfl

/-- The pruned substitution and the plain one go through the same arenas. -/
theorem foldUpTo_eq_refill (hargs : ∀ v ∈ args, a.Has v) :
    ∀ {layers depth : Nat} {x : TyId} {b : Arena}, x.index < layers → x.index < depth →
      a.Within b → b.Sound → b.Marked → b.Has x →
      foldUpTo (substitute args) layers x b = refill args depth x b
  | layers + 1, depth + 1, x, b, hlayers, hdepth, hab, hb, hm, hx => by
      obtain ⟨t, ht⟩ := has_iff.mp hx
      by_cases hflag : (b.flags x).hasVar = true
      · by_cases hvar : t.isVar = true
        · obtain ⟨i, rfl⟩ : ∃ i, t = .var i := by
            cases t with
            | var i => exact ⟨i, rfl⟩
            | _ => cases hvar
          have put : substitute args b x = some (args[i]?.getD x) := by
            rw [substitute, if_pos hflag, ht]
          rw [foldUpTo_run, put, refill_run ht, argument?]
          cases args[i]? with
          | some v => rfl
          | none => exact (intern_term? hb ht).symm
        · have hvar : t.isVar = false := Bool.not_eq_true _ ▸ hvar
          have parts : t.children.mapM (foldUpTo (substitute args) layers) b =
              t.children.mapM (refill args depth) b := by
            refine mapM_congr hb hm fun u hu {c} hbc hc hmc => ?_
            have below := hb.below ht u hu
            have hac := hab.trans hbc
            have hcu := hbc.has (hb.has_child ht hu)
            exact ⟨foldUpTo_eq_refill hargs (by omega) (by omega) hac hc hmc hcu,
              foldUpTo_fills (fun hac h => (steady_substitute hargs).stored hac h) _ hac hc hcu⟩
          rw [foldUpTo_run, substitute_open ht hvar hflag, ht, refill_run ht,
            argument?_of_not_var hvar]
          dsimp only
          rw [isLeaf_of_open hm ht hvar hflag, if_neg Bool.false_ne_true]
          exact bind_of_eq _ parts
      · have closed : (b.flags x).hasVar = false := Bool.not_eq_true _ ▸ hflag
        rw [foldUpTo_run, substitute, if_neg hflag]
        exact (refill_of_inst hb (inst_self hb hm (.inr closed) hx) hdepth).symm

theorem instantiate_eq_refill (ha : a.Sound) (hm : a.Marked) (hx : a.Has x)
    (hargs : ∀ v ∈ args, a.Has v) {depth : Nat} (hdepth : x.index < depth) :
    instantiate x args a = refill args depth x a := by
  unfold instantiate
  split
  · next hnil =>
      have self := inst_self ha hm (.inl (List.isEmpty_iff.mp hnil)) hx
      exact (refill_of_inst ha self hdepth).symm
  · exact foldUpTo_eq_refill hargs (Nat.lt_succ_self _) hdepth (.refl a) ha hm hx

/-! ## Rewriting nothing -/

theorem foldUpTo_keep (ha : a.Sound) :
    ∀ (depth : Nat) {x : TyId}, a.Has x → foldUpTo keep depth x a = (x, a)
  | 0, _, _ => rfl
  | depth + 1, x, hx => by
      obtain ⟨t, ht⟩ := has_iff.mp hx
      rw [foldUpTo_run, keep, ht]
      dsimp only
      split
      · rfl
      · have parts : t.children.mapM (foldUpTo keep depth) a = (t.children, a) := by
          refine mapM_stays rfl fun p hp => ?_
          obtain ⟨hc, heq⟩ := mem_zip_self hp
          rw [← heq]
          exact foldUpTo_keep ha depth (ha.has_child ht hc)
        rw [bind_of_run parts, t.rebuild_children]
        exact intern_term? ha ht

/-! ## What cannot be seen -/

/-- Over any arena that interning has filled, instantiating gives the type that plain
substitution gives and leaves the arena that it leaves, rewriting nothing gives a type its
own id and adds nothing, and the mentions of a type are the references that a plain
traversal meets, each where it is met first. -/
theorem Interns.pruned {calls : List (Term × TyId)} (h : Interns .new calls a) (hx : a.Has x)
    {depth : Nat} (hdepth : x.index < depth) :
    (∀ args, (∀ v ∈ args, a.Has v) → instantiate x args a = refill args depth x a) ∧
      fold keep x a = (x, a) ∧
      a.mentions x = ((a.preorder depth x).filter a.isReference).eraseDups := by
  have whole := interns_scalars.append h
  have ha := whole.sound empty_sound
  have hm := whole.marked empty_sound empty_marked
  exact ⟨fun args hargs => instantiate_eq_refill ha hm hx hargs hdepth, foldUpTo_keep ha _ hx,
    mentions_eq_preorder ha hm hdepth⟩

/-! ### References in references -/

namespace Shelf

/-- A record of a pair of boxes, an open and a closed one, and of the open box again. -/
def made : List (Term × TyId) :=
  let box (content : TyId) : Term := .named ⟨"Box", "box"⟩ [content]
  [(.var 0, ⟨5⟩), (.var 1, ⟨6⟩), (box ⟨5⟩, ⟨7⟩), (.array Scalar.int.id, ⟨8⟩), (box ⟨8⟩, ⟨9⟩),
    (.named ⟨"Box", "pair"⟩ [⟨7⟩, ⟨9⟩], ⟨10⟩),
    (.record [⟨"both", ⟨10⟩, false, false⟩, ⟨"first", ⟨7⟩, true, false⟩,
      ⟨"rest", ⟨8⟩, false, true⟩, ⟨"label", ⟨6⟩, false, false⟩], ⟨11⟩)]

def arena : Arena := (made.map Prod.fst).foldl push .new

end Shelf

/-- With one argument for two parameters: the second one stays. -/
theorem Interns.pruned_shelf :
    Interns .new Shelf.made Shelf.arena ∧
      instantiate ⟨11⟩ [Scalar.string.id] Shelf.arena =
        refill [Scalar.string.id] 12 ⟨11⟩ Shelf.arena ∧
      (instantiate ⟨11⟩ [Scalar.string.id] Shelf.arena).1 = ⟨14⟩ ∧
      fold keep ⟨11⟩ Shelf.arena = (⟨11⟩, Shelf.arena) ∧
      Shelf.arena.mentions ⟨11⟩ = [⟨10⟩, ⟨7⟩, ⟨9⟩] := by
  have interned : Interns .new Shelf.made Shelf.arena := by decide +kernel
  obtain ⟨instantiates, keeps, mentions⟩ :=
    interned.pruned (x := ⟨11⟩) (by decide) (Nat.lt_succ_self _)
  exact ⟨interned, instantiates _ (by decide), by decide +kernel, keeps,
    mentions.trans (by decide +kernel)⟩

end Arena

end Marshal
