import Marshal.Proofs.Interning

/-!
# Recursion tags are reachability

A declaration has the tag *recursive* exactly if a chain of references, one or more, leads
from it back to it (`isRecursive_exact`). The chain is stated over the set of declarations,
through membership (`Refers`); the catalog looks keys up, in a list that has an order. That
a key is declared once is what makes the two the same, and what makes the tags independent
of the order of declaring.

References are found by a traversal that skips subtrees without any, and followed by a
search in rounds. Both are exact by themselves (`mem_references`, `leadsTo_iff`). The
search is given a number of rounds; left to itself it would find the same, and end by
itself, in every graph and from every key.
-/

namespace Marshal

open Arena Relation

namespace Catalog

variable {a : Arena} {ds decls : List Decl} {d : Decl} {e : Edges} {k k' : Key}

/-! ## Declaring -/

theorem lookup_eq_none_iff : lookup ds k = none ↔ k ∉ ds.map Decl.key := by
  simp [lookup, List.find?_eq_none]

/-- Where every key is declared once, a declaration is the one that is found. -/
theorem lookup_of_mem (hds : (ds.map Decl.key).Nodup) (hd : d ∈ ds) :
    lookup ds d.key = some d := by
  induction ds with
  | nil => cases hd
  | cons d' ds ih =>
      obtain ⟨hnot, hds⟩ := List.nodup_cons.mp hds
      rw [lookup, List.find?_cons]
      rcases List.mem_cons.mp hd with rfl | hd
      · simp
      · have apart : d'.key ≠ d.key := fun h => hnot (h ▸ List.mem_map_of_mem hd)
        rw [decide_eq_false apart]
        exact ih hds hd

/-- Declarations are accepted one after the other exactly if no two have one key. -/
theorem foldlM_add_iff {acc : List Decl} (hacc : (acc.map Decl.key).Nodup) :
    ds.foldlM add acc = .ok decls ↔
      decls = acc ++ ds ∧ ((acc ++ ds).map Decl.key).Nodup := by
  induction ds generalizing acc with
  | nil =>
      rw [List.append_nil]
      exact ⟨fun h => ⟨(Except.ok.inj h).symm, hacc⟩, fun h => h.1 ▸ rfl⟩
  | cons d ds ih =>
      rw [List.foldlM_cons, add]
      cases hd : lookup acc d.key with
      | some old =>
          constructor
          · intro h
            cases h
          · rintro ⟨-, h⟩
            obtain ⟨hmem, hkey⟩ := key_of_lookup hd
            rw [List.map_append, List.map_cons] at h
            exact absurd hkey ((List.nodup_append.mp h).2.2 _ (List.mem_map_of_mem hmem) _
              (List.mem_cons_self ..))
      | none =>
          have hacc' : ((acc ++ [d]).map Decl.key).Nodup := by
            rw [List.map_append, List.nodup_append]
            refine ⟨hacc, List.nodup_singleton _, ?_⟩
            rintro _ hk _ hd' rfl
            exact lookup_eq_none_iff.mp hd (List.mem_singleton.mp hd' ▸ hk)
          show ds.foldlM add (acc ++ [d]) = .ok decls ↔ _
          rw [ih hacc', List.append_assoc, List.singleton_append]

theorem declared_iff : ds.foldlM add [] = .ok decls ↔ decls = ds ∧ (ds.map Decl.key).Nodup :=
  foldlM_add_iff List.nodup_nil

/-! ## Chains of references -/

/-- A declaration of the first key has somewhere in its body a reference to the second,
whatever that is applied to. -/
def Refers (a : Arena) (ds : List Decl) (k k' : Key) : Prop :=
  ∃ d ∈ ds, d.key = k ∧ ∃ x args, a.Contains d.body x ∧ a.term? x = some (.named k' args)

theorem uses_eq_refers (hds : (ds.map Decl.key).Nodup) : Uses a ds = Refers a ds := by
  funext k k'
  rw [eq_iff_iff]
  constructor
  · rintro ⟨d, x, args, hd, hx, ht⟩
    obtain ⟨hmem, hkey⟩ := key_of_lookup hd
    exact ⟨d, hmem, hkey, x, args, hx, ht⟩
  · rintro ⟨d, hmem, rfl, x, args, hx, ht⟩
    exact ⟨d, x, args, lookup_of_mem hds hmem, hx, ht⟩

theorem refers_perm {ds' : List Decl} (h : ds'.Perm ds) : Refers a ds' = Refers a ds := by
  funext k k'
  simp only [Refers, h.mem_iff]

/-! ## The search by itself -/

theorem Searches.unique {found last result result' : List Key}
    (h : Searches e found last result) (h' : Searches e found last result') :
    result = result' := by
  induction h with
  | done hnew =>
      cases h' with
      | done => rfl
      | round hnew' hne => exact absurd (hnew'.symm.trans hnew) hne
  | round hnew hne _ ih =>
      cases h' with
      | done hnew' => exact absurd (hnew.symm.trans hnew') hne
      | round hnew' _ hrest =>
          cases hnew.symm.trans hnew'
          exact ih hrest

/-- Of declarations that have been accepted those on a cycle of references have the tag, in
whatever order they are declared. Nothing refers on from a key without a declaration. And
the search for cycles ends by itself, in every graph of references, with what the rounds
that it is given find. -/
theorem isRecursive_exact {calls : List (Term × TyId)} (h : Interns .new calls a)
    (hds : ds.foldlM add [] = .ok decls) :
    (∀ k, (ofDecls a decls).isRecursive k = true ↔ TransGen (Refers a ds) k k) ∧
      (∀ ds' : List Decl, ds'.Perm ds → ∃ decls', ds'.foldlM add [] = .ok decls' ∧
        ∀ k, (ofDecls a decls').isRecursive k = (ofDecls a decls).isRecursive k) ∧
      (∀ k, (ofDecls a decls).find? k = none → ∀ k', ¬Refers a ds k k') ∧
      ∀ (e : Edges) (k : Key), ∃ found, Searches e [] [k] found ∧
        ∀ rounds, e.length ≤ rounds → spread e rounds [] [k] = found := by
  have whole := interns_scalars.append h
  have ha := whole.sound empty_sound
  have hm := whole.marked empty_sound empty_marked
  obtain ⟨rfl, hkeys⟩ := declared_iff.mp hds
  have tagged {ds : List Decl} (hkeys : (ds.map Decl.key).Nodup) (k : Key) :
      (ofDecls a ds).isRecursive k = true ↔ TransGen (Refers a ds) k k := by
    rw [isRecursive_iff ha hm, uses_eq_refers hkeys]
  refine ⟨tagged hkeys, fun ds' hperm => ?_, fun k hk k' => ?_, fun e k => ?_⟩
  · have hkeys' : (ds'.map Decl.key).Nodup := (hperm.map Decl.key).nodup_iff.mpr hkeys
    refine ⟨ds', declared_iff.mpr ⟨rfl, hkeys'⟩, fun k => ?_⟩
    rw [Bool.eq_iff_iff, tagged hkeys', tagged hkeys, refers_perm hperm]
  · rintro ⟨d, hd, rfl, -⟩
    exact lookup_eq_none_iff.mp hk (List.mem_map_of_mem hd)
  · have search := searches_from e k (Nat.le_refl _)
    exact ⟨_, search, fun rounds hrounds => (searches_from e k hrounds).unique search⟩

/-! ### Cycles of several kinds -/

namespace Ring

def key (name : String) : Key := ⟨"M", name⟩

def made : List (Term × TyId) :=
  [(.var 0, ⟨5⟩), (.named (key "tree") [], ⟨6⟩), (.array ⟨6⟩, ⟨7⟩),
    (.named (key "wrap") [], ⟨8⟩), (.named (key "box") [⟨8⟩], ⟨9⟩), (.option ⟨9⟩, ⟨10⟩),
    (.named (key "odd") [], ⟨11⟩), (.tuple [⟨11⟩, ⟨6⟩], ⟨12⟩), (.named (key "even") [], ⟨13⟩),
    (.named ⟨"N", "tree"⟩ [], ⟨14⟩), (.tuple [⟨14⟩, ⟨13⟩], ⟨15⟩)]

def arena : Arena := (made.map Prod.fst).foldl push .new

/-- `tree` refers to itself, `wrap` to itself in an argument of `box`, which refers to
nothing. `even` refers to `odd` and `tree`, and `odd` to `even` and to what no module
declares. `user` only leads into cycles. -/
def declared : List Decl :=
  [⟨key "tree", 0, ⟨7⟩⟩, ⟨key "box", 1, ⟨5⟩⟩, ⟨key "wrap", 0, ⟨10⟩⟩, ⟨key "even", 0, ⟨12⟩⟩,
    ⟨key "odd", 0, ⟨15⟩⟩, ⟨key "user", 0, ⟨13⟩⟩]

end Ring

theorem isRecursive_exact_ring :
    Interns .new Ring.made Ring.arena ∧ Ring.declared.foldlM add [] = .ok Ring.declared ∧
      (∀ name ∈ ["tree", "wrap", "even", "odd"],
        TransGen (Refers Ring.arena Ring.declared) (Ring.key name) (Ring.key name)) ∧
      (∀ name ∈ ["box", "user"],
        ¬TransGen (Refers Ring.arena Ring.declared) (Ring.key name) (Ring.key name)) ∧
      (∀ k', ¬Refers Ring.arena Ring.declared ⟨"N", "tree"⟩ k') := by
  have interned : Interns .new Ring.made Ring.arena := by decide +kernel
  have accepted : Ring.declared.foldlM add [] = .ok Ring.declared :=
    declared_iff.mpr ⟨rfl, by decide⟩
  obtain ⟨tagged, -, ends, -⟩ := isRecursive_exact interned accepted
  have on : ∀ name ∈ ["tree", "wrap", "even", "odd"],
      (ofDecls Ring.arena Ring.declared).isRecursive (Ring.key name) = true := by decide +kernel
  have off : ∀ name ∈ ["box", "user"],
      (ofDecls Ring.arena Ring.declared).isRecursive (Ring.key name) ≠ true := by decide +kernel
  exact ⟨interned, accepted, fun name hname => (tagged _).mp (on name hname),
    fun name hname h => off name hname ((tagged _).mpr h), ends _ (by decide)⟩

end Catalog

end Marshal
