import Mathlib.Data.Finset.Card
import Marshal.Proofs.Arena
import Marshal.Catalog

/-!
# The graph of declarations

A catalog is tagged by looking at which declarations its bodies mention. `Uses` is
that graph as a relation, on an arena whose flags are right (`Marked`). What the tags are
computed from is exact: the mentions of a body are the references in it (`mem_mentions`),
and what is found from a declaration is what it leads to (`leadsTo_iff`). So the tag
*recursive* is that of a declaration on a cycle (`isRecursive_iff`), and one without the
tag *irregular* is applied to bare parameters wherever it is mentioned on one of its
cycles.

The search for what a declaration leads to is stated without its bound on the rounds
(`Searches`). That it ends is then one fact and what it has found by then another.

`rank` counts what a declaration leads to. It never grows along a mention and falls
where there is no way back, which is what inductions over declarations go by.
-/

namespace Marshal

open Relation

/-! ## What a type mentions -/

namespace Arena

variable {a b : Arena} {x y : TyId} {t : Term}

/-- A type is what stands there, or has a part that contains it. -/
theorem Contains.cases (h : a.Contains x y) :
    x = y ∨ ∃ t, a.term? x = some t ∧ ∃ c ∈ t.children, a.Contains c y := by
  rcases h.cases_head with rfl | ⟨c, ⟨t, ht, hc⟩, h⟩
  · exact .inl rfl
  · exact .inr ⟨t, ht, c, hc, h⟩

/-- The flags of every node are those that its children give it. -/
def Marked (a : Arena) : Prop := ∀ x t, a.term? x = some t → a.flags x = a.flagsOf t

theorem marked_iff : a.Marked ↔
    ∀ i < a.size, ∀ t ∈ a.term? ⟨i⟩, a.flags ⟨i⟩ = a.flagsOf t := by
  constructor
  · exact fun h i _ t ht => h ⟨i⟩ t ht
  · exact fun h x t ht => h x.index (has_of_term? ht) t ht

instance : Decidable a.Marked := decidable_of_iff _ marked_iff.symm

theorem flagsOf_within (hab : a.Within b) (ht : ∀ c ∈ t.children, a.Has c) :
    b.flagsOf t = a.flagsOf t := by
  unfold flagsOf
  generalize t.mark = acc, t.children = l at ht
  induction l generalizing acc with
  | nil => rfl
  | cons c l ih =>
      rw [List.foldl_cons, List.foldl_cons, hab.flags_eq (ht c (List.mem_cons_self ..))]
      exact ih _ fun d hd => ht d (List.mem_cons_of_mem _ hd)

/-- Interning keeps the flags right. -/
theorem Marked.intern (h : a.Marked) (ha : a.Sound) (ht : ∀ c ∈ t.children, a.Has c) :
    (Arena.intern t a).2.Marked := by
  unfold Arena.intern
  split
  · exact h
  · intro x u hu
    rw [term?_push] at hu
    split at hu
    · next hx =>
        cases hu
        have new : (a.push t).flags x = a.flagsOf t := by
          rw [flags, node?_push, if_pos hx]
          rfl
        rw [new, flagsOf_within within_push ht]
    · have hx : a.Has x := has_of_term? hu
      rw [within_push.flags_eq hx, h x u hu]
      exact (flagsOf_within within_push fun c hc => ha.has_child hu hc).symm

/-- Arenas that interning builds from the scalars. -/
inductive Built : Arena → Prop
  | new : Built .new
  | intern {a : Arena} {t : Term} : Built a → (∀ c ∈ t.children, a.Has c) →
      Built (Arena.intern t a).2

theorem Built.sound (h : a.Built) : a.Sound := by
  induction h with
  | new => decide
  | intern _ ht ih =>
      obtain ⟨_, _, hty, -⟩ := intern_settles ih ht
      exact hty.run ▸ hty.sound

theorem Built.marked (h : a.Built) : a.Marked := by
  induction h with
  | new => decide
  | intern h ht ih => exact ih.intern h.sound ht

theorem foldl_union {l : List TyId} {acc : Flags} :
    (l.foldl (fun acc c => acc.union (a.flags c)) acc).hasVar =
        (acc.hasVar || l.any fun c => (a.flags c).hasVar) ∧
      (l.foldl (fun acc c => acc.union (a.flags c)) acc).hasReference =
        (acc.hasReference || l.any fun c => (a.flags c).hasReference) := by
  induction l generalizing acc with
  | nil => simp
  | cons c l ih =>
      rw [List.foldl_cons, ih.1, ih.2, List.any_cons, List.any_cons]
      simp only [Flags.union, Bool.or_assoc, and_self]

theorem Marked.hasVar (h : a.Marked) (ht : a.term? x = some t) :
    (a.flags x).hasVar = (t.isVar || t.children.any fun c => (a.flags c).hasVar) := by
  rw [h x t ht]
  exact foldl_union.1

theorem Marked.hasReference (h : a.Marked) (ht : a.term? x = some t) :
    (a.flags x).hasReference =
      (t.isReference || t.children.any fun c => (a.flags c).hasReference) := by
  rw [h x t ht]
  exact foldl_union.2

section Occurs

variable {flag : Flags → Bool} {own : Term → Bool}
  (hflag : ∀ {x t}, a.term? x = some t →
    flag (a.flags x) = (own t || t.children.any fun c => flag (a.flags c)))
include hflag

/-- A flag that every node has from itself and its children is set above every such node. -/
theorem flag_of_occurs (hxy : a.Contains x y) (ht : a.term? y = some t) (hown : own t = true) :
    flag (a.flags x) = true := by
  induction hxy using ReflTransGen.head_induction_on with
  | refl => rw [hflag ht, hown, Bool.true_or]
  | head hstep _ ih =>
      obtain ⟨u, hu, hc⟩ := hstep
      rw [hflag hu, Bool.or_eq_true, List.any_eq_true]
      exact .inr ⟨_, hc, ih⟩

/-- And it is set nowhere else: ids fall from parent to child, so what it comes from is
found. -/
theorem occurs_of_flag (ha : a.Sound) {x : TyId} (hx : a.Has x) (h : flag (a.flags x) = true) :
    ∃ y t, a.Contains x y ∧ a.term? y = some t ∧ own t = true := by
  induction hn : x.index using Nat.strong_induction_on generalizing x with
  | h n ih =>
      obtain ⟨t, ht⟩ := has_iff.mp hx
      rw [hflag ht, Bool.or_eq_true, List.any_eq_true] at h
      rcases h with h | ⟨c, hc, h⟩
      · exact ⟨x, t, .refl, ht, h⟩
      · obtain ⟨y, u, hy, hu⟩ := ih c.index (hn ▸ ha.below ht c hc) (ha.has_child ht hc) h rfl
        exact ⟨y, u, .child ht hc hy, hu⟩

end Occurs

theorem isReference_eq_true : a.isReference y = true ↔
    ∃ t, a.term? y = some t ∧ t.isReference = true := by
  unfold isReference
  cases a.term? y <;> simp

theorem Marked.of_contains (h : a.Marked) (hxy : a.Contains x y) (hy : a.isReference y = true) :
    (a.flags x).hasReference = true := by
  obtain ⟨t, ht, href⟩ := isReference_eq_true.mp hy
  exact flag_of_occurs h.hasReference hxy ht href

/-! ## All mentions are found -/

/-- Every node of a type, before its children and these from left to right. -/
def preorder (a : Arena) : Nat → TyId → List TyId
  | 0, _ => []
  | depth + 1, ty =>
    ty :: match a.term? ty with
      | none => []
      | some t => t.children.flatMap (a.preorder depth)

theorem contains_of_mem_preorder :
    ∀ {depth : Nat} {x : TyId}, y ∈ a.preorder depth x → a.Contains x y
  | depth + 1, x, h => by
      rcases List.mem_cons.mp h with rfl | h
      · exact .refl
      · cases ht : a.term? x with
        | none =>
            rw [ht] at h
            cases h
        | some t =>
            rw [ht] at h
            obtain ⟨c, hc, hy⟩ := List.mem_flatMap.mp h
            exact .child ht hc (contains_of_mem_preorder hy)

theorem mem_preorder_of_contains (ha : a.Sound) :
    ∀ {depth : Nat} {x : TyId}, x.index < depth → a.Contains x y → y ∈ a.preorder depth x
  | depth + 1, x, hx, h => by
      rw [preorder]
      rcases h.cases with rfl | ⟨t, ht, c, hc, h⟩
      · exact List.mem_cons_self ..
      · rw [ht]
        have below := ha.below ht c hc
        exact List.mem_cons_of_mem _
          (List.mem_flatMap.mpr ⟨c, hc, mem_preorder_of_contains ha (by omega) h⟩)

/-- One more reference, if it is one and new. -/
theorem eraseDups_snoc (done : List TyId) (x : TyId) :
    (if a.isReference x && !done.eraseDups.contains x then done.eraseDups ++ [x]
      else done.eraseDups) = (done ++ [x].filter a.isReference).eraseDups := by
  rw [List.eraseDups_append]
  by_cases href : a.isReference x = true
  · by_cases hx : x ∈ done <;> simp [href, hx, List.removeAll, List.eraseDups_cons]
  · simp [href]

theorem foldl_eraseDups {f : List TyId → TyId → List TyId} {g : TyId → List TyId} :
    ∀ {l : List TyId} (done : List TyId),
      (∀ c ∈ l, ∀ done : List TyId, f done.eraseDups c = (done ++ g c).eraseDups) →
      l.foldl f done.eraseDups = (done ++ l.flatMap g).eraseDups
  | [], done, _ => by rw [List.flatMap_nil, List.append_nil]; rfl
  | c :: l, done, h => by
      rw [List.foldl_cons, h c (List.mem_cons_self ..), List.flatMap_cons, ← List.append_assoc]
      exact foldl_eraseDups _ fun c hc => h c (List.mem_cons_of_mem _ hc)

/-- What is collected after some nodes is what the plain traversal meets after them. -/
theorem collectMentions_eq_preorder (ha : a.Sound) (hm : a.Marked) :
    ∀ {layers depth : Nat} {x : TyId} (done : List TyId), x.index < layers → x.index < depth →
      a.collectMentions layers done.eraseDups x =
        (done ++ (a.preorder depth x).filter a.isReference).eraseDups
  | layers + 1, depth + 1, x, done, hlayers, hdepth => by
      rw [collectMentions]
      split
      · dsimp only
        rw [eraseDups_snoc, preorder]
        cases ht : a.term? x with
        | none => rfl
        | some t =>
            have here : (x :: t.children.flatMap (a.preorder depth)).filter a.isReference =
                [x].filter a.isReference ++
                  t.children.flatMap fun c => (a.preorder depth c).filter a.isReference := by
              rw [← List.filter_flatMap]
              exact List.filter_append [x] _
            dsimp only
            rw [here, ← List.append_assoc]
            refine foldl_eraseDups _ fun c hc done => ?_
            have below := ha.below ht c hc
            exact collectMentions_eq_preorder ha hm done (by omega) (by omega)
      · next hflag =>
          have nothing : (a.preorder (depth + 1) x).filter a.isReference = [] :=
            List.filter_eq_nil_iff.mpr fun y hy href =>
              hflag (hm.of_contains (contains_of_mem_preorder hy) href)
          rw [nothing, List.append_nil]

theorem mentions_eq_preorder (ha : a.Sound) (hm : a.Marked) {depth : Nat}
    (hx : x.index < depth) :
    a.mentions x = ((a.preorder depth x).filter a.isReference).eraseDups :=
  collectMentions_eq_preorder ha hm [] (Nat.lt_succ_self _) hx

/-- The mentions of a type are the references in it. -/
theorem mem_mentions (ha : a.Sound) (hm : a.Marked) :
    y ∈ a.mentions x ↔ a.Contains x y ∧ a.isReference y = true := by
  rw [mentions_eq_preorder ha hm (Nat.lt_succ_self _), List.mem_eraseDups, List.mem_filter]
  exact and_congr_left fun _ =>
    ⟨contains_of_mem_preorder, mem_preorder_of_contains ha (Nat.lt_succ_self _)⟩

end Arena

/-! ## Following references -/

namespace Catalog

section Spread

variable {e : Edges} {start k k' : Key} {found last result : List Key}

theorem mem_unseen {keys : List Key} : k ∈ unseen found keys ↔ k ∈ keys ∧ k ∉ found := by
  suffices all : ∀ new : List Key, k ∈ keys.foldl (fun new k =>
      if found.contains k || new.contains k then new else new ++ [k]) new ↔
        k ∈ new ∨ k ∈ keys ∧ k ∉ found by
    simpa [unseen] using all []
  induction keys with
  | nil => simp
  | cons d keys ih =>
      intro new
      rw [List.foldl_cons, ih]
      by_cases hd : d ∈ found
      · have : k = d → k ∈ found := fun h => h ▸ hd
        simp [hd]
        tauto
      · by_cases hn : d ∈ new
        · have : k = d → k ∈ new := fun h => h ▸ hn
          simp [hd, hn]
          tauto
        · have : k = d → k ∉ found := fun h => h ▸ hd
          simp [hd, hn]
          tauto

/-- All that these keys refer to has been found. -/
def Explored (e : Edges) (found : List Key) (k : Key) : Prop := ∀ t ∈ targets e k, t ∈ found

theorem Explored.mono {found' : List Key} (h : Explored e found k) (hsub : found ⊆ found') :
    Explored e found' k :=
  fun t ht => hsub (h t ht)

/-- The declared keys that are still to be found, the first one apart. -/
def missing (e : Edges) (start : Key) (found : List Key) : Edges :=
  e.filter fun x => decide (x.1 ≠ start ∧ x.1 ∉ found)

theorem targets_of_undeclared (h : ∀ x ∈ e, x.1 ≠ k) : targets e k = [] := by
  have none : e.lookup k = none := by
    rw [List.lookup_eq_none_iff]
    exact fun x hx => bne_iff_ne.mpr (h x hx).symm
  rw [targets, none]
  rfl

theorem missing_lt {new : List Key} {x : Key × List Key} (hx : x ∈ e) (hstart : x.1 ≠ start)
    (hnew : x.1 ∈ new) (hfound : x.1 ∉ found) :
    (missing e start (new ++ found)).length < (missing e start found).length := by
  have fewer : missing e start (new ++ found) =
      (missing e start found).filter fun x => decide (x.1 ∉ new) := by
    rw [missing, missing, List.filter_filter]
    refine List.filter_congr fun y _ => ?_
    rw [← Bool.decide_and, decide_eq_decide, List.mem_append]
    tauto
  rw [fewer, List.length_filter_lt_length_iff_exists]
  exact ⟨x, List.mem_filter.mpr ⟨hx, by simp [hstart, hfound]⟩, by simp [hnew]⟩

/-- A round that adds something leaves fewer declared keys to find, or nothing to do. -/
theorem missing_or_explored {new : List Key} (hn : ∀ k ∈ new, k ∉ found)
    (hstart : Explored e (new ++ found) start) :
    (missing e start (new ++ found)).length < (missing e start found).length ∨
      ∀ k ∈ new, Explored e (new ++ found) k := by
  by_cases h : ∃ x ∈ e, x.1 ≠ start ∧ x.1 ∈ new
  · obtain ⟨x, hx, hne, hnew⟩ := h
    exact .inl (missing_lt hx hne hnew (hn _ hnew))
  · refine .inr fun k hk => ?_
    by_cases hks : k = start
    · exact hks ▸ hstart
    · have undeclared : targets e k = [] :=
        targets_of_undeclared fun x hx hxk => h ⟨x, hx, hxk ▸ hks, hxk ▸ hk⟩
      intro t ht
      rw [undeclared] at ht
      cases ht

/-- What is found has been explored, but for what the last round has added. -/
def Frontier (e : Edges) (start : Key) (found last : List Key) : Prop :=
  ∀ k, k = start ∨ k ∈ found → k ∈ last ∨ Explored e found k

/-- A round explores what was found before it. -/
theorem Frontier.explored (h : Frontier e start found last) (hk : k = start ∨ k ∈ found) :
    Explored e (unseen found (last.flatMap (targets e)) ++ found) k := by
  rcases h k hk with hk | hk
  · intro t ht
    by_cases htf : t ∈ found
    · exact List.mem_append_right _ htf
    · exact List.mem_append_left _ (mem_unseen.mpr ⟨List.mem_flatMap.mpr ⟨k, hk, ht⟩, htf⟩)
  · exact hk.mono (List.subset_append_right ..)

theorem Frontier.next (h : Frontier e start found last) {new : List Key}
    (hnew : unseen found (last.flatMap (targets e)) = new) :
    Frontier e start (new ++ found) new := by
  subst hnew
  intro k hk
  by_cases hk' : k ∈ unseen found (last.flatMap (targets e))
  · exact .inl hk'
  · exact .inr (h.explored (hk.imp_right fun hk => (List.mem_append.mp hk).resolve_left hk'))

/-- Rounds of following references until one adds nothing, however many it takes. -/
inductive Searches (e : Edges) : List Key → List Key → List Key → Prop
  | done {found last : List Key} : unseen found (last.flatMap (targets e)) = [] →
      Searches e found last found
  | round {found last new result : List Key} :
      unseen found (last.flatMap (targets e)) = new → new ≠ [] →
      Searches e (new ++ found) new result → Searches e found last result

/-- If there are rounds enough, the search ends within them. -/
theorem searches_spread : ∀ {rounds : Nat} {found last : List Key},
    Frontier e start found last →
      (missing e start found).length < rounds ∨ (∀ k ∈ last, Explored e found k) →
        Searches e found last (spread e rounds found last)
  | rounds, found, last, hlast, hrounds => by
      have mem_new : ∀ k, k ∈ unseen found (last.flatMap (targets e)) ↔
          k ∈ last.flatMap (targets e) ∧ k ∉ found := fun k => mem_unseen
      have explored := fun k => hlast.explored (k := k)
      cases hnew : unseen found (last.flatMap (targets e)) with
      | nil =>
          have ended : spread e rounds found last = found := by
            cases rounds with
            | zero => rfl
            | succ => rw [spread, hnew]
          rw [ended]
          exact .done hnew
      | cons first new =>
          rw [hnew] at mem_new explored
          -- If all of the last round were explored, this one would add nothing.
          have open_last : ¬∀ k ∈ last, Explored e found k := by
            intro hdone
            obtain ⟨hmem, hnot⟩ := (mem_new first).mp (List.mem_cons_self ..)
            obtain ⟨k, hk, ht⟩ := List.mem_flatMap.mp hmem
            exact absurd (hdone k hk first ht) hnot
          have hlt := hrounds.resolve_right open_last
          cases rounds with
          | zero => exact absurd hlt (Nat.not_lt_zero _)
          | succ rounds =>
              rw [spread, hnew]
              refine .round hnew (List.cons_ne_nil _ _) (searches_spread (hlast.next hnew) ?_)
              exact (missing_or_explored (fun k hk => ((mem_new k).mp hk).2)
                (explored _ (.inl rfl))).imp_left fun h => by omega

theorem Searches.explored (h : Searches e found last result) :
    Frontier e start found last → ∀ k, k = start ∨ k ∈ result → Explored e result k := by
  induction h with
  | done hnew =>
      intro hlast k hk
      have explored := hlast.explored hk
      rwa [hnew] at explored
  | round hnew _ _ ih => exact fun hlast => ih (hlast.next hnew)

/-- The first key refers to the second. -/
def Leads (e : Edges) (k k' : Key) : Prop := k' ∈ targets e k

/-- Only what the last round leads to is found. -/
theorem Searches.reached (h : Searches e found last result) (hk : k ∈ result) :
    k ∈ found ∨ ∃ s ∈ last, TransGen (Leads e) s k := by
  induction h with
  | done => exact .inl hk
  | @round found last new result hnew _ _ ih =>
      have followed {t : Key} (ht : t ∈ new) : ∃ s ∈ last, Leads e s t := by
        rw [← hnew] at ht
        exact List.mem_flatMap.mp (mem_unseen.mp ht).1
      rcases ih hk with hk | ⟨t, ht, hpath⟩
      · rcases List.mem_append.mp hk with hk | hk
        · obtain ⟨s, hs, hsk⟩ := followed hk
          exact .inr ⟨s, hs, .single hsk⟩
        · exact .inl hk
      · obtain ⟨s, hs, hst⟩ := followed ht
        exact .inr ⟨s, hs, .head hst hpath⟩

theorem frontier_start (e : Edges) (start : Key) : Frontier e start [] [start] := by
  intro k hk
  exact .inl (List.mem_singleton.mpr (hk.resolve_right List.not_mem_nil))

/-- As many rounds as there are declared keys are enough from any key. -/
theorem searches_from (e : Edges) (start : Key) {rounds : Nat} (h : e.length ≤ rounds) :
    Searches e [] [start] (spread e rounds [] [start]) := by
  refine searches_spread (frontier_start e start) ?_
  by_cases hk : ∃ x ∈ e, x.1 = start
  · obtain ⟨x, hx, hxk⟩ := hk
    refine .inl (Nat.lt_of_lt_of_le ?_ h)
    rw [missing, List.length_filter_lt_length_iff_exists]
    exact ⟨x, hx, by simp [hxk]⟩
  · have undeclared : targets e start = [] :=
      targets_of_undeclared fun x hx hxk => hk ⟨x, hx, hxk⟩
    refine .inr fun x hx t ht => ?_
    cases List.mem_singleton.mp hx
    rw [undeclared] at ht
    cases ht

/-- What is found from a key is what chains of one or more references lead to. -/
theorem leadsTo_iff : leadsTo e k k' = true ↔ TransGen (Leads e) k k' := by
  have search : Searches e [] [k] (reachable e k) := searches_from e k (Nat.le_refl _)
  have explored := search.explored (frontier_start e k)
  rw [leadsTo, List.contains_iff_mem]
  constructor
  · intro h
    rcases search.reached h with h | ⟨s, hs, hpath⟩
    · cases h
    · exact List.mem_singleton.mp hs ▸ hpath
  · intro h
    induction h with
    | single h => exact explored k (.inl rfl) _ h
    | tail _ h ih => exact explored _ (.inr ih) _ h

end Spread

/-! ## Tags -/

section Tags

variable {a : Arena} {decls : List Decl} {d : Decl} {k k' : Key} {x : TyId} {args : List TyId}

/-- The body of the first declaration mentions the second. -/
def Uses (a : Arena) (decls : List Decl) (k k' : Key) : Prop :=
  ∃ d x args, lookup decls k = some d ∧ a.Contains d.body x ∧ a.term? x = some (.named k' args)

theorem key_of_lookup (h : lookup decls k = some d) : d ∈ decls ∧ d.key = k :=
  ⟨List.mem_of_find?_eq_some h, by simpa using List.find?_some h⟩

theorem lookup_edges (a : Arena) (decls : List Decl) (k : Key) :
    (edges a decls).lookup k =
      (lookup decls k).map fun d => (references a d.body).map Prod.fst := by
  induction decls with
  | nil => rfl
  | cons d decls ih =>
      rw [edges, List.map_cons, List.lookup_cons, lookup, List.find?_cons]
      by_cases hd : d.key = k
      · simp [hd]
      · have hd' : (k == d.key) = false := beq_eq_false_iff_ne.mpr (Ne.symm hd)
        rw [hd', decide_eq_false hd]
        exact ih

section Built

variable (ha : a.Sound) (hm : a.Marked)
include ha hm

/-- The references in a body are found, with their arguments. -/
theorem mem_references {body : TyId} : (k, args) ∈ references a body ↔
    ∃ x, a.Contains body x ∧ a.term? x = some (.named k args) := by
  constructor
  · intro h
    obtain ⟨x, hx, hterm⟩ := List.mem_filterMap.mp h
    refine ⟨x, ((Arena.mem_mentions ha hm).mp hx).1, ?_⟩
    split at hterm
    · next ht =>
        cases hterm
        exact ht
    · cases hterm
  · rintro ⟨x, hx, ht⟩
    have reference : a.isReference x = true := by rw [Arena.isReference, ht]; rfl
    exact List.mem_filterMap.mpr ⟨x, (Arena.mem_mentions ha hm).mpr ⟨hx, reference⟩, by rw [ht]⟩

/-- The edges are the graph of declarations. -/
theorem leads_edges : Leads (edges a decls) = Uses a decls := by
  funext k k'
  rw [Leads, targets, lookup_edges, eq_iff_iff]
  cases hd : lookup decls k with
  | none =>
      constructor
      · intro h
        cases h
      · rintro ⟨d, _, _, hd', -⟩
        cases hd.symm.trans hd'
  | some d =>
      rw [Option.map_some, Option.getD_some, List.mem_map]
      constructor
      · rintro ⟨⟨_, args⟩, h, rfl⟩
        obtain ⟨x, hx, ht⟩ := (mem_references ha hm).mp h
        exact ⟨d, x, args, hd, hx, ht⟩
      · rintro ⟨_, x, args, hd', hx, ht⟩
        cases hd.symm.trans hd'
        exact ⟨(k', args), (mem_references ha hm).mpr ⟨x, hx, ht⟩, rfl⟩

theorem leadsTo_edges : leadsTo (edges a decls) k k' = true ↔ TransGen (Uses a decls) k k' := by
  rw [leadsTo_iff, leads_edges ha hm]

/-- The declarations with the tag are those on a cycle. -/
theorem isRecursive_iff : (ofDecls a decls).isRecursive k = true ↔ TransGen (Uses a decls) k k := by
  rw [isRecursive, List.contains_iff_mem, ← leadsTo_edges ha hm]
  refine List.mem_filter.trans (and_iff_right_of_imp fun h => ?_)
  obtain ⟨_, ⟨d, _, _, hd, -⟩, -⟩ := TransGen.head'_iff.mp ((leadsTo_edges ha hm).mp h)
  obtain ⟨hmem, rfl⟩ := key_of_lookup hd
  exact List.mem_map_of_mem hmem

/-- Where a regular declaration mentions another on one of its cycles, the arguments
are bare parameters. -/
theorem bare_of_regular (hreg : (ofDecls a decls).isRegular k = true) (hd : lookup decls k = some d)
    (hx : a.Contains d.body x) (ht : a.term? x = some (.named k' args))
    (hback : ReflTransGen (Uses a decls) k' k) : ∀ v ∈ args, ∃ i, a.term? v = some (.var i) := by
  have uses : Uses a decls k k' := ⟨d, x, args, hd, hx, ht⟩
  have back : TransGen (Uses a decls) k' k := by
    rcases hback.cases_head with rfl | ⟨_, hstep, hrest⟩
    · exact .single uses
    · exact .head' hstep hrest
  intro v hv
  by_contra hbare
  have wild : args.any (fun arg => !((a.term? arg).map Term.isVar).getD false) = true := by
    refine List.any_eq_true.mpr ⟨v, hv, ?_⟩
    cases htv : a.term? v with
    | none => rfl
    | some t =>
        cases t with
        | var i => exact absurd ⟨i, htv⟩ hbare
        | _ => rfl
  obtain ⟨hmem, hkey⟩ := key_of_lookup hd
  have irregular : k ∈ (ofDecls a decls).irregular := by
    refine List.mem_map.mpr ⟨d, List.mem_filter.mpr ⟨hmem, ?_⟩, hkey⟩
    have grown : grows a (edges a decls) (ofDecls a decls).recursive k k' args = true := by
      rw [grows, show (ofDecls a decls).recursive.contains k' = true from
        (isRecursive_iff ha hm).mpr (back.tail uses), wild, (leadsTo_edges ha hm).mpr back]
      rfl
    rw [hkey, Bool.and_eq_true]
    exact ⟨(isRecursive_iff ha hm).mpr (.head uses back),
      List.any_eq_true.mpr ⟨(k', args), (mem_references ha hm).mpr ⟨x, hx, ht⟩, grown⟩⟩
  rw [isRegular, List.contains_iff_mem.mpr irregular] at hreg
  cases hreg

end Built

/-! ## Ranks -/

open Classical in
/-- How many declarations a declaration leads to, itself included. -/
noncomputable def rank (a : Arena) (decls : List Decl) (k : Key) : Nat :=
  ((decls.map Decl.key).toFinset.filter fun k' => ReflTransGen (Uses a decls) k k').card

theorem rank_le : rank a decls k ≤ decls.length := by
  classical
  calc rank a decls k ≤ (decls.map Decl.key).toFinset.card := Finset.card_filter_le _ _
    _ ≤ (decls.map Decl.key).length := List.toFinset_card_le _
    _ = decls.length := List.length_map _

theorem rank_mono (h : Uses a decls k k') : rank a decls k' ≤ rank a decls k := by
  classical
  exact Finset.card_le_card (Finset.monotone_filter_right _ fun _ _ hk => .head h hk)

/-- Where there is no way back, the rank falls. -/
theorem rank_lt (h : Uses a decls k k') (hback : ¬ReflTransGen (Uses a decls) k' k) :
    rank a decls k' < rank a decls k := by
  classical
  obtain ⟨d, _, _, hd, -⟩ := id h
  obtain ⟨hmem, rfl⟩ := key_of_lookup hd
  refine Finset.card_lt_card ((Finset.ssubset_iff_of_subset
    (Finset.monotone_filter_right _ fun _ _ hk => .head h hk)).mpr ⟨d.key, ?_, ?_⟩)
  · exact Finset.mem_filter.mpr ⟨List.mem_toFinset.mpr (List.mem_map_of_mem hmem), .refl⟩
  · exact fun h => hback (Finset.mem_filter.mp h).2

end Tags

end Catalog

end Marshal
