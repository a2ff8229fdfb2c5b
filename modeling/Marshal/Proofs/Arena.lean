import Mathlib.Logic.Relation
import Marshal.Ty.Fold
import Marshal.Ty.Text

/-!
# Arenas that grow

An arena only ever gains nodes. `Within` is the order in which it grows, `Sound`
what interning keeps true: children stand below their parents, and no term is
stored twice.

`Settles` is the form in which all later modules use this. A computation that ran
from `a` to `a'` gives the same result in every sound arena that already holds
`a'`, and adds nothing there. So one arena, taken late enough, can stand for all
the arenas that a run passes through.

Rewriting a type settles, and all that it adds are rewritten parts of the type
(`Rewritten`).
-/

namespace Marshal

namespace Arena

/-! ## The order of growth -/

/-- The arena stores a type under this id. -/
def Has (a : Arena) (ty : TyId) : Prop := ty.index < a.size

/-- Every node of `a` stands in `b` at the same place. -/
def Within (a b : Arena) : Prop := ∀ ty n, a.node? ty = some n → b.node? ty = some n

/-- What interning keeps true. -/
structure Sound (a : Arena) : Prop where
  below : ∀ {ty t}, a.term? ty = some t → ∀ c ∈ t.children, c.index < ty.index
  unique : ∀ {x y t}, a.term? x = some t → a.term? y = some t → x = y

variable {a b c : Arena} {ty : TyId} {t : Term}

instance : Decidable (a.Has ty) := inferInstanceAs (Decidable (_ < _))

theorem has_iff : a.Has ty ↔ ∃ t, a.term? ty = some t := by
  constructor
  · intro h
    exact ⟨_, Option.map_eq_some_iff.mpr ⟨_, Array.getElem?_eq_getElem h, rfl⟩⟩
  · rintro ⟨t, ht⟩
    obtain ⟨n, hn, -⟩ := Option.map_eq_some_iff.mp ht
    exact (Array.getElem?_eq_some_iff.mp hn).1

theorem has_of_term? (h : a.term? ty = some t) : a.Has ty := has_iff.mpr ⟨t, h⟩

theorem Sound.has_child (ha : a.Sound) (ht : a.term? ty = some t) {c : TyId}
    (hc : c ∈ t.children) : a.Has c :=
  Nat.lt_trans (ha.below ht c hc) (has_of_term? ht)

/-- Soundness, place by place. -/
theorem sound_iff : a.Sound ↔
    (∀ i < a.size, ∀ t ∈ a.term? ⟨i⟩, ∀ c ∈ t.children, c.index < i) ∧
      ∀ i < a.size, ∀ j < i, a.term? ⟨j⟩ ≠ a.term? ⟨i⟩ := by
  constructor
  · intro ha
    refine ⟨fun i _ t ht => ha.below ht, fun i hi j hj h => ?_⟩
    obtain ⟨t, ht⟩ := has_iff.mp (show a.Has ⟨i⟩ from hi)
    exact absurd (congrArg TyId.index (ha.unique (h.trans ht) ht)) (Nat.ne_of_lt hj)
  · rintro ⟨below, apart⟩
    refine ⟨fun {ty t} ht => below ty.index (has_of_term? ht) t ht, fun {x y t} hx hy => ?_⟩
    have hx' : x.index < a.size := has_of_term? hx
    have hy' : y.index < a.size := has_of_term? hy
    rcases Nat.lt_trichotomy x.index y.index with h | h | h
    · exact absurd (hx.trans hy.symm) (apart _ hy' _ h)
    · cases x
      cases y
      exact congrArg TyId.mk h
    · exact absurd (hy.trans hx.symm) (apart _ hx' _ h)

instance : Decidable a.Sound := decidable_of_iff _ sound_iff.symm

theorem Within.refl (a : Arena) : a.Within a := fun _ _ h => h

theorem Within.trans (h : a.Within b) (h' : b.Within c) : a.Within c :=
  fun ty n hn => h' ty n (h ty n hn)

theorem Within.term? (h : a.Within b) (ht : a.term? ty = some t) : b.term? ty = some t := by
  obtain ⟨n, hn, rfl⟩ := Option.map_eq_some_iff.mp ht
  exact Option.map_eq_some_iff.mpr ⟨n, h ty n hn, rfl⟩

theorem Within.has (h : a.Within b) (hty : a.Has ty) : b.Has ty := by
  obtain ⟨t, ht⟩ := has_iff.mp hty
  exact has_of_term? (h.term? ht)

theorem Within.node?_eq (h : a.Within b) (hty : a.Has ty) : b.node? ty = a.node? ty := by
  obtain ⟨t, ht⟩ := has_iff.mp hty
  obtain ⟨n, hn, -⟩ := Option.map_eq_some_iff.mp ht
  rw [hn, h ty n hn]

theorem Within.term?_eq (h : a.Within b) (hty : a.Has ty) : b.term? ty = a.term? ty := by
  rw [Arena.term?, Arena.term?, h.node?_eq hty]

theorem Within.flags_eq (h : a.Within b) (hty : a.Has ty) : b.flags ty = a.flags ty := by
  rw [flags, flags, h.node?_eq hty]

theorem Within.antisymm (h : a.Within b) (h' : b.Within a) : a = b := by
  obtain ⟨xs⟩ := a
  obtain ⟨ys⟩ := b
  congr 1
  refine Array.ext_getElem? fun i => ?_
  cases hx : xs[i]? with
  | some n => exact (h ⟨i⟩ n hx).symm
  | none =>
      cases hy : ys[i]? with
      | none => rfl
      | some n => rw [← hx]; exact h' ⟨i⟩ n hy

/-! ## What a type contains -/

/-- The second type stands somewhere in the first. Arguments of references count. -/
def Contains (a : Arena) : TyId → TyId → Prop :=
  Relation.ReflTransGen fun x y => ∃ t, a.term? x = some t ∧ y ∈ t.children

theorem Contains.child {x y : TyId} (ht : a.term? x = some t) {c : TyId} (hc : c ∈ t.children)
    (h : a.Contains c y) : a.Contains x y :=
  .head ⟨t, ht, hc⟩ h

theorem Contains.has (ha : a.Sound) {x y : TyId} (h : a.Contains x y) (hx : a.Has x) : a.Has y := by
  induction h with
  | refl => exact hx
  | tail _ hstep ih =>
      obtain ⟨t, ht, hc⟩ := hstep
      exact ha.has_child ht hc

/-- What is added later does not stand in what was there. -/
theorem Contains.of_within (ha : a.Sound) (hab : a.Within b) {x y : TyId} (hx : a.Has x)
    (h : b.Contains x y) : a.Contains x y := by
  induction h using Relation.ReflTransGen.head_induction_on with
  | refl => exact .refl
  | head hstep _ ih =>
      obtain ⟨t, ht, hc⟩ := hstep
      rw [hab.term?_eq hx] at ht
      exact .child ht hc (ih (ha.has_child ht hc))

/-! ## Interning -/

theorem term?_of_findFrom {n start : Nat} (h : a.findFrom t n start = some ty) :
    a.term? ty = some t := by
  induction n generalizing start with
  | zero => cases h
  | succ n ih =>
      rw [findFrom] at h
      split at h
      · next heq => cases h; exact heq
      · exact ih h

theorem findFrom_of_term? (ha : a.Sound) (ht : a.term? ty = some t) {n start : Nat}
    (hle : start ≤ ty.index) (hlt : ty.index < start + n) :
    a.findFrom t n start = some ty := by
  induction n generalizing start with
  | zero => omega
  | succ n ih =>
      rw [findFrom]
      split
      · next heq => rw [ha.unique ht heq]
      · next hne =>
          refine ih (Nat.lt_of_le_of_ne hle ?_) (by omega)
          rintro rfl
          exact hne ht

/-- The scan starts no later than behind the last of some ids that all stand
below `k`. -/
theorem foldl_max_le {k : Nat} :
    ∀ {l : List TyId} {n : Nat}, n ≤ k → (∀ c ∈ l, c.index < k) →
      l.foldl (fun start c => max start (c.index + 1)) n ≤ k
  | [], _, hn, _ => hn
  | c :: l, n, hn, hl => by
      have hc := hl c (List.mem_cons_self ..)
      exact foldl_max_le (l := l) (Nat.max_le.mpr ⟨hn, hc⟩) fun d hd =>
        hl d (List.mem_cons_of_mem _ hd)

theorem find?_eq_some_iff (ha : a.Sound) : a.find? t = some ty ↔ a.term? ty = some t := by
  refine ⟨term?_of_findFrom, fun ht => ?_⟩
  have hty : ty.index < a.size := has_of_term? ht
  have hstart := foldl_max_le (Nat.zero_le _) (ha.below ht)
  exact findFrom_of_term? ha ht hstart (by omega)

theorem node?_push :
    (a.push t).node? ty = if ty.index = a.size then some ⟨t, a.flagsOf t⟩ else a.node? ty := by
  simp only [push, node?, Array.getElem?_push]
  rfl

theorem within_push : a.Within (a.push t) := by
  intro ty n hn
  have hty : ty.index ≠ a.size := Nat.ne_of_lt (has_of_term? (Option.map_eq_some_iff.mpr
    ⟨n, hn, rfl⟩))
  rw [node?_push, if_neg hty]
  exact hn

theorem term?_push :
    (a.push t).term? ty = if ty.index = a.size then some t else a.term? ty := by
  rw [term?, node?_push]
  split <;> rfl

/-- Nothing but the new node is new. -/
theorem has_push (h : (a.push t).Has ty) : a.Has ty ∨ ty = ⟨a.size⟩ := by
  have hlt : ty.index < a.size + 1 := by
    have := h
    rwa [Has, size, push, Array.size_push] at this
  rcases Nat.lt_or_ge ty.index a.size with h | h
  · exact .inl h
  · exact .inr (congrArg TyId.mk (show ty.index = a.size by omega))

theorem Sound.push (ha : a.Sound) (hc : ∀ c ∈ t.children, a.Has c) (hnew : a.find? t = none) :
    (a.push t).Sound where
  below := by
    intro ty u hu c hcu
    rw [term?_push] at hu
    split at hu
    · next hty => cases hu; rw [hty]; exact hc c hcu
    · exact ha.below hu c hcu
  unique := by
    have fresh : ∀ ty, a.term? ty ≠ some t := fun ty hty => by
      rw [(find?_eq_some_iff ha).mpr hty] at hnew
      cases hnew
    intro x y u hx hy
    obtain ⟨x⟩ := x
    obtain ⟨y⟩ := y
    rw [term?_push] at hx hy
    split at hx <;> split at hy
    · next hx' hy' => exact congrArg _ (hx'.trans hy'.symm)
    · cases hx; exact absurd hy (fresh _)
    · cases hy; exact absurd hx (fresh _)
    · exact ha.unique hx hy

/-! ## Computations that settle -/

theorem bind_of_run {α β : Type} {f : StateM Arena α} {g : α → StateM Arena β} {v : α}
    (h : f a = (v, b)) : (f >>= g) a = g v b := by
  show g (f a).1 (f a).2 = _
  rw [h]

/-- `x` ran from `a` to `a'`: it only added nodes, and in a sound arena that has
them it gives the same and adds nothing. -/
structure Settles {α : Type} (x : StateM Arena α) (a : Arena) (v : α) (a' : Arena) : Prop where
  run : x a = (v, a')
  within : a.Within a'
  sound : a'.Sound
  again : ∀ {b}, b.Sound → a'.Within b → x b = (v, b)

theorem Settles.pure {α : Type} (ha : a.Sound) (v : α) :
    Settles (Pure.pure v) a v a :=
  ⟨rfl, .refl a, ha, fun _ _ => rfl⟩

theorem Settles.bind {α β : Type} {x : StateM Arena α} {f : α → StateM Arena β} {v : α} {w : β}
    (hx : Settles x a v b) (hf : Settles (f v) b w c) : Settles (x >>= f) a w c where
  run := (bind_of_run hx.run).trans hf.run
  within := hx.within.trans hf.within
  sound := hf.sound
  again := by
    intro d hd hcd
    exact (bind_of_run (hx.again hd (hf.within.trans hcd))).trans (hf.again hd hcd)

theorem intern_settles (ha : a.Sound) (hc : ∀ c ∈ t.children, a.Has c) :
    ∃ ty a', Settles (intern t) a ty a' ∧ a'.term? ty = some t ∧
      ∀ y, a'.Has y → a.Has y ∨ y = ty := by
  have again {ty : TyId} {a' : Arena} (ht : a'.term? ty = some t) {b : Arena} (hb : b.Sound)
      (hw : a'.Within b) : intern t b = (ty, b) := by
    simp only [intern, (find?_eq_some_iff hb).mpr (hw.term? ht)]
  cases h : a.find? t with
  | some ty =>
      have ht := term?_of_findFrom h
      exact ⟨ty, a, ⟨by simp only [intern, h], .refl a, ha, again ht⟩, ht, fun y hy => .inl hy⟩
  | none =>
      have ht : (a.push t).term? ⟨a.size⟩ = some t := by rw [term?_push, if_pos rfl]
      exact ⟨⟨a.size⟩, a.push t,
        ⟨by simp only [intern, h], within_push, ha.push hc h, again ht⟩, ht,
        fun y hy => has_push hy⟩

/-! ## Rewriting -/

/-- A rewrite that answers the same in every arena grown from `a`, and answers
with stored types. -/
structure Steady (rewrite : Rewrite) (a : Arena) : Prop where
  same : ∀ {b c ty}, a.Within b → b.Within c → b.Has ty → rewrite c ty = rewrite b ty
  stored : ∀ {b ty out}, a.Within b → b.Has ty → rewrite b ty = some out → b.Has out

/-- The second type is what becomes of the first; it is stored, with all that it is made
of. -/
inductive Rewrites (rewrite : Rewrite) (a : Arena) : TyId → TyId → Prop
  | put {x y : TyId} : a.Has x → a.Has y → rewrite a x = some y → Rewrites rewrite a x y
  | leaf {x : TyId} {t : Term} : rewrite a x = none → a.term? x = some t → t.isLeaf = true →
      Rewrites rewrite a x x
  | node {x y : TyId} {t : Term} {ids : List TyId} : rewrite a x = none → a.term? x = some t →
      ids.length = t.children.length → (∀ p ∈ t.children.zip ids, Rewrites rewrite a p.1 p.2) →
      a.term? y = some (t.rebuild ids) → Rewrites rewrite a x y

variable {rewrite : Rewrite} {x y : TyId}

theorem Rewrites.has (h : Rewrites rewrite a x y) : a.Has y := by
  cases h with
  | put _ hy => exact hy
  | leaf _ ht | node _ _ _ _ ht => exact has_of_term? ht

theorem Rewrites.within (hr : Steady rewrite a) (hab : a.Within b) (hbc : b.Within c)
    (h : Rewrites rewrite b x y) : Rewrites rewrite c x y := by
  have same {x : TyId} {out : Option TyId} (hx : b.Has x) (h : rewrite b x = out) :
      rewrite c x = out := (hr.same hab hbc hx).trans h
  induction h with
  | put hx hy h => exact .put (hbc.has hx) (hbc.has hy) (same hx h)
  | leaf h ht hleaf => exact .leaf (same (has_of_term? ht) h) (hbc.term? ht) hleaf
  | node h ht hlen _ hy ih =>
      exact .node (same (has_of_term? ht) h) (hbc.term? ht) hlen ih (hbc.term? hy)

/-- What `x` is rewritten to, and what is new in the arena because of that. -/
structure Rewritten (rewrite : Rewrite) (x : TyId) (a : Arena) (v : TyId) (a' : Arena) : Prop where
  rewrites : Rewrites rewrite a' x v
  adds : ∀ y, a'.Has y → a.Has y ∨ ∃ z, a.Contains x z ∧ Rewrites rewrite a' z y

/-- Rewriting a list of types settles when rewriting each of them does, in every
arena that grew from `b`. -/
theorem mapM_settles (hr : Steady rewrite a) {f : TyId → StateM Arena TyId} :
    ∀ {l : List TyId} {b : Arena}, a.Within b → b.Sound → (∀ x ∈ l, b.Has x) →
      (∀ x ∈ l, ∀ {c}, b.Within c → c.Sound →
        ∃ v c', Settles (f x) c v c' ∧ Rewritten rewrite x c v c') →
      ∃ vs b', Settles (l.mapM f) b vs b' ∧ vs.length = l.length ∧
        (∀ p ∈ l.zip vs, Rewrites rewrite b' p.1 p.2) ∧
        ∀ y, b'.Has y → b.Has y ∨ ∃ x ∈ l, ∃ z, b.Contains x z ∧ Rewrites rewrite b' z y
  | [], b, _, hb, _, _ => ⟨[], b, .pure hb [], rfl, by simp, fun y hy => .inl hy⟩
  | x :: l, b, hab, hb, hl, hf => by
      obtain ⟨v, c, hv, hvr⟩ := hf x (List.mem_cons_self ..) (.refl b) hb
      have hl' : ∀ x ∈ l, b.Has x := fun x hx => hl x (List.mem_cons_of_mem _ hx)
      obtain ⟨vs, d, hvs, hlen, hrest, hadds⟩ := mapM_settles hr (l := l) (hab.trans hv.within)
        hv.sound (fun x hx => hv.within.has (hl' x hx))
        fun u hu {d} hcd hd => hf u (List.mem_cons_of_mem _ hu) (hv.within.trans hcd) hd
      have later {z y : TyId} : Rewrites rewrite c z y → Rewrites rewrite d z y :=
        .within hr (hab.trans hv.within) hvs.within
      refine ⟨v :: vs, d, ?_, by simp [hlen], ?_, fun y hy => ?_⟩
      · rw [List.mapM_cons]
        exact hv.bind (hvs.bind (.pure hvs.sound _))
      · intro p hp
        rcases List.mem_cons.mp hp with rfl | hp
        · exact later hvr.rewrites
        · exact hrest p hp
      · rcases hadds y hy with hy | ⟨u, hu, z, hz, hzy⟩
        · rcases hvr.adds y hy with hy | ⟨z, hz, hzy⟩
          · exact .inl hy
          · exact .inr ⟨x, List.mem_cons_self .., z, hz, later hzy⟩
        · exact .inr ⟨u, List.mem_cons_of_mem _ hu, z, hz.of_within hb hv.within (hl' u hu), hzy⟩

theorem foldUpTo_run (rewrite : Rewrite) (depth : Nat) (ty : TyId) (a : Arena) :
    foldUpTo rewrite (depth + 1) ty a =
      (match rewrite a ty with
      | some out => pure out
      | none =>
        match a.term? ty with
        | none => pure ty
        | some t =>
          if t.isLeaf then
            pure ty
          else do
            let ids ← t.children.mapM (foldUpTo rewrite depth)
            intern (t.rebuild ids) : StateM Arena TyId) a := rfl

theorem foldUpTo_settles (hr : Steady rewrite a) :
    ∀ (depth : Nat) {x : TyId} {b : Arena}, x.index < depth → a.Within b → b.Sound → b.Has x →
      ∃ v b', Settles (foldUpTo rewrite depth x) b v b' ∧ Rewritten rewrite x b v b'
  | depth + 1, x, b, hx, hab, hb, hbx => by
      obtain ⟨t, ht⟩ := has_iff.mp hbx
      -- What the node decides is the same in every later arena.
      have stop {v : TyId}
          (hv : ∀ c, b.Within c → foldUpTo rewrite (depth + 1) x c = (v, c))
          (hr : Rewrites rewrite b x v) :
          ∃ v b', Settles (foldUpTo rewrite (depth + 1) x) b v b' ∧ Rewritten rewrite x b v b' :=
        ⟨v, b, ⟨hv b (.refl b), .refl b, hb, fun _ hw => hv _ hw⟩, hr, fun y hy => .inl hy⟩
      cases hrw : rewrite b x with
      | some out =>
          refine stop (fun c hw => ?_) (.put hbx (hr.stored hab hbx hrw) hrw)
          rw [foldUpTo_run, hr.same hab hw hbx, hrw]
          rfl
      | none =>
          have step (c : Arena) (hw : b.Within c) : foldUpTo rewrite (depth + 1) x c =
              (if t.isLeaf then pure x else do
                let ids ← t.children.mapM (foldUpTo rewrite depth)
                intern (t.rebuild ids) : StateM Arena TyId) c := by
            rw [foldUpTo_run, hr.same hab hw hbx, hrw, hw.term? ht]
          by_cases hleaf : t.isLeaf = true
          · refine stop (fun c hw => ?_) (.leaf hrw ht hleaf)
            rw [step c hw, if_pos hleaf]
            rfl
          · have stored : ∀ u ∈ t.children, b.Has u := fun u hu => hb.has_child ht hu
            obtain ⟨ids, c, hids, hlen, hparts, hadds⟩ := mapM_settles hr hab hb stored
              fun u hu {c} hbc hc => by
                have hux := hb.below ht u hu
                exact foldUpTo_settles hr depth (by omega) (hab.trans hbc) hc
                  (hbc.has (stored u hu))
            have hchildren := Term.children_rebuild t ids hlen
            obtain ⟨v, d, hv, htv, hnew⟩ := intern_settles (t := t.rebuild ids) hids.sound (by
              rw [hchildren]
              intro u hu
              rw [← List.map_snd_zip (Nat.le_of_eq hlen)] at hu
              obtain ⟨p, hp, rfl⟩ := List.mem_map.mp hu
              exact (hparts p hp).has)
            have all := hids.bind (f := fun ids => intern (t.rebuild ids)) hv
            have later {z y : TyId} : Rewrites rewrite c z y → Rewrites rewrite d z y :=
              .within hr (hab.trans hids.within) hv.within
            have whole : Rewrites rewrite d x v :=
              .node ((hr.same hab all.within hbx).trans hrw) (all.within.term? ht) hlen
                (fun p hp => later (hparts p hp)) htv
            refine ⟨v, d, ⟨?_, all.within, all.sound, fun hd hw => ?_⟩, whole, fun y hy => ?_⟩
            · rw [step b (.refl b), if_neg hleaf]
              exact all.run
            · rw [step _ (all.within.trans hw), if_neg hleaf]
              exact all.again hd hw
            · rcases hnew y hy with hy | rfl
              · rcases hadds y hy with hy | ⟨u, hu, z, hz, hzy⟩
                · exact .inl hy
                · exact .inr ⟨z, .child ht hu hz, later hzy⟩
              · exact .inr ⟨x, .refl, whole⟩

theorem steady_substitute {args : List TyId} (hargs : ∀ v ∈ args, a.Has v) :
    Steady (substitute args) a where
  same := by
    intro b c ty _ hbc hty
    simp only [substitute, hbc.flags_eq hty, hbc.term?_eq hty]
  stored := by
    intro b ty out hab hty h
    simp only [substitute] at h
    split at h
    · split at h
      · next i _ =>
          cases h
          cases hi : args[i]? with
          | none => exact hty
          | some v => exact hab.has (hargs v (List.mem_of_getElem? hi))
      · cases h
    · cases h; exact hty

theorem instantiate_settles (ha : a.Sound) {body : TyId} (hbody : a.Has body)
    {args : List TyId} (hargs : ∀ v ∈ args, a.Has v) :
    ∃ v a', Settles (instantiate body args) a v a' ∧ a'.Has v := by
  unfold instantiate
  split
  · exact ⟨body, a, .pure ha body, hbody⟩
  · obtain ⟨v, a', hv, hr⟩ := foldUpTo_settles (steady_substitute hargs) (body.index + 1)
      (Nat.lt_succ_self _) (.refl a) ha hbody
    exact ⟨v, a', hv, hr.rewrites.has⟩

/-! ## Texts -/

theorem writeLayer_congr {sub sub' : TyId → Text.Writer} (t : Term)
    (h : ∀ c ∈ t.children, sub c = sub' c) : writeLayer sub t = writeLayer sub' t := by
  funext acc
  have fields (fs : List Field) (h : ∀ c ∈ fs.map Field.ty, sub c = sub' c) :
      fs.map (writeLayer.field sub) = fs.map (writeLayer.field sub') :=
    List.map_congr_left fun f hf => by
      funext acc
      simp only [writeLayer.field, h f.ty (List.mem_map_of_mem hf)]
  cases t with
  | scalar | var | opaqueTy => rfl
  | record fs | object fs => simp only [writeLayer, fields fs h]
  | variant cs =>
      have payloads : cs.map (writeLayer.constructor sub) = cs.map (writeLayer.constructor sub') :=
        List.map_congr_left fun k hk => by
          funext acc
          cases hp : k.payload with
          | none => simp only [writeLayer.constructor, hp]
          | some p =>
              have := h p (List.mem_filterMap.mpr ⟨k, hk, hp⟩)
              simp only [writeLayer.constructor, hp, this]
      simp only [writeLayer, payloads]
  | tuple ts =>
      have elements : ts.map sub = ts.map sub' := List.map_congr_left h
      simp only [writeLayer, elements]
  | array u | option u | nullable u | ref u =>
      simp only [writeLayer, h u (List.mem_singleton_self u)]
  | function s =>
      have params : s.params.map (writeLayer.param sub) = s.params.map (writeLayer.param sub') :=
        List.map_congr_left fun p hp => by
          funext acc
          simp only [writeLayer.param,
            h p.ty (List.mem_append_left _ (List.mem_map_of_mem hp))]
      simp only [writeLayer, params, h s.ret (by simp [Term.children])]
  | named key args =>
      have arguments : args.map sub = args.map sub' := List.map_congr_left h
      cases args with
      | nil => rfl
      | cons u us => simp only [writeLayer, arguments]

theorem writeUpTo_within (ha : a.Sound) (hab : a.Within b) :
    ∀ (depth : Nat) {ty : TyId}, a.Has ty → b.writeUpTo depth ty = a.writeUpTo depth ty
  | 0, _, _ => rfl
  | depth + 1, ty, hty => by
      obtain ⟨t, ht⟩ := has_iff.mp hty
      funext acc
      simp only [writeUpTo, ht, hab.term? ht]
      rw [writeLayer_congr t fun c hc =>
        writeUpTo_within ha hab depth (ha.has_child ht hc)]

/-- A type is written the same in every later arena. -/
theorem text_within (ha : a.Sound) (hab : a.Within b) (hty : a.Has ty) :
    b.text ty = a.text ty := by
  rw [text, text, writeUpTo_within ha hab _ hty]

end Arena

end Marshal
