import Marshal.Proofs.Delivery
import Marshal.Proofs.Sessions

/-!
# Conventions of signatures

A convention that is read off a signature keeps every parameter in its place, so a call
arranges nothing, and only what is optional is filled in.
-/

namespace Marshal

namespace Convention

variable {s : Signature} {c : Convention} {ps : List Parameter} {slots : List ArgSlot}
  {args : List Value}

theorem slotsFrom_spec : ∀ {ps : List Parameter} {k : Nat} {slots : List ArgSlot},
    slotsFrom k ps = .ok slots →
      slots.map ArgSlot.param = List.range' k ps.length ∧
        List.Forall₂ (fun p slot => p.role.isOptional = false → slot.default.shim? = none) ps slots
  | [], _, _, h => by
      cases h
      exact ⟨rfl, .nil⟩
  | p :: ps, k, slots, h => by
      rw [slotsFrom] at h
      cases hslot : argSlot k p with
      | error f => rw [hslot] at h; cases h
      | ok slot =>
          cases hrest : slotsFrom (k + 1) ps with
          | error f => rw [hslot, hrest] at h; cases h
          | ok rest =>
              rw [hslot, hrest] at h
              cases h
              obtain ⟨params, plain⟩ := slotsFrom_spec hrest
              obtain ⟨default, hplace, rfl⟩ :
                  ∃ default, place (p.role.label.getD ("#" ++ toString k)) p = .ok default ∧
                    slot = ⟨k, p.role.label, p.role.isOptional, default⟩ := by
                unfold argSlot at hslot
                cases hplace : place (p.role.label.getD ("#" ++ toString k)) p with
                | error f => rw [hplace] at hslot; cases hslot
                | ok default => rw [hplace] at hslot; cases hslot; exact ⟨_, rfl, rfl⟩
              refine ⟨by simp [params, List.range'_succ], .cons (fun hp => ?_) plain⟩
              unfold place at hplace
              obtain ⟨role, ty, nativeDefault⟩ := p
              cases role with
              | optional label default => cases hp
              | positional | named => cases nativeDefault <;> cases hplace; rfl

/-- Every parameter keeps its place, and only optional ones are filled in. -/
theorem ofSignature_spec (h : ofSignature s = .ok c) :
    c.order = List.range c.arity ∧ c.slots.map ArgSlot.param = List.range c.arity ∧
      c.arity = s.params.length ∧
      ((s.params.any fun p => p.role.isOptional) = false →
        ∀ slot ∈ c.slots, slot.default.shim? = none) := by
  unfold ofSignature at h
  cases hslots : slotsFrom 0 s.params with
  | error f => rw [hslots] at h; cases h
  | ok slots =>
      rw [hslots] at h
      cases h
      obtain ⟨params, plain⟩ := slotsFrom_spec hslots
      have length : slots.length = s.params.length := by simpa using congrArg List.length params
      refine ⟨rfl, ?_, length, fun none slot hslot => ?_⟩
      · rw [params, ← length]
        exact List.range_eq_range'.symm
      · obtain ⟨p, hp, himp⟩ := Marshal.exists_of_mem_right plain hslot
        exact himp (by simpa using List.any_eq_false.mp none p hp)

theorem shimDefaults_eq (h : c.order = List.range c.arity) :
    (List.range c.arity).map c.shimDefault = c.slots.map fun slot => slot.default.shim? := by
  refine List.ext_getElem (by simp [arity]) fun i hi _ => ?_
  have hi : i < c.slots.length := by simpa [arity] using hi
  simp [shimDefault, h, arity, hi]

/-! ## Arguments in call order -/

theorem ofSignature_lined (h : ofSignature s = .ok c) : c.Lined := by
  obtain ⟨horder, hparams, -, -⟩ := ofSignature_spec h
  refine ⟨horder ▸ .refl _, fun i q hq => ?_⟩
  rw [horder] at hq
  obtain ⟨hi, rfl⟩ := List.getElem?_eq_some_iff.mp hq
  rw [List.getElem_range, ← List.getElem?_map, hparams, hq, List.getElem_range]

/-- If every parameter keeps its place, nothing is arranged. -/
theorem arrange_eq (h : ofSignature s = .ok c) (hargs : args.length = c.arity) :
    c.arrange args = args := by
  have horder := (ofSignature_spec h).1
  refine List.ext_getElem? fun q => ?_
  by_cases hq : q < c.arity
  · exact (ofSignature_lined h).getElem?_arrange hargs (by rw [horder, List.getElem?_range hq])
  · rw [List.getElem?_eq_none (by rw [length_arrange]; omega), List.getElem?_eq_none (by omega)]

theorem prepare_eq (h : ofSignature s = .ok c) (hargs : args.length = c.arity) :
    c.prepare args =
      .ok (Adapter.substituteAll args (c.slots.map fun slot => slot.default.shim?)) := by
  rw [prepare, if_pos hargs, arrange_eq h hargs]
  exact if_pos hargs

end Convention

end Marshal
