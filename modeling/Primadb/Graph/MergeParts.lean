import Primadb.Graph.MergeLaws

/-!
# A merge, part by part

A slot holds at most a tombstone and a field. Merging it takes in these two parts
one after the other, and what is left after taking in a part is again a single
part: the newer of two, or the join of two sets.
-/

namespace Primadb

/-- A tombstone or a field. -/
inductive Part where
  | tombstone (marker : VersionMarker)
  | field (state : FieldState)

namespace Part

/-- The marker of a part. -/
def marker : Part → VersionMarker
  | tombstone marker => marker
  | field state => state.version

/-- The set of a part that holds one. -/
def setOf : Part → Option SetState
  | field ⟨.set set, _⟩ => some set
  | _ => none

/-- The slot with this part alone. -/
def slot : Part → Slot
  | tombstone marker => ⟨none, some marker⟩
  | field state => ⟨some state, none⟩

/-- What is left of a part after another one is taken in. -/
def take (part incoming : Part) : Part :=
  match part.setOf, incoming.setOf with
  | some current, some other =>
    field ⟨.set (mergeSetState current other), max part.marker incoming.marker⟩
  | _, _ => if incoming.marker ≤ part.marker then part else incoming

private theorem take_set {part incoming : Part} {set other : SetState} (h : part.setOf = some set)
    (h' : incoming.setOf = some other) :
    part.take incoming =
      field ⟨.set (mergeSetState set other), max part.marker incoming.marker⟩ := by
  simp only [take, h, h']

/-- Unless both are sets the newer part stays. -/
theorem take_of_none {part incoming : Part} (h : part.setOf = none ∨ incoming.setOf = none) :
    part.take incoming = if incoming.marker ≤ part.marker then part else incoming := by
  unfold take
  rcases h with h | h
  · rw [h]
  · rw [h]
    cases part.setOf <;> rfl

end Part

namespace Slot

/-- The parts of a slot, in the order a merge takes them in. -/
def parts (slot : Slot) : List Part :=
  slot.tombstone.toList.map Part.tombstone ++ slot.field.toList.map Part.field

/-- Take in one part. -/
def take (slot : Slot) : Part → Slot
  | .tombstone marker => slot.mergeTombstone marker
  | .field state => slot.mergeField state

private theorem merge_eq_foldl_take (slot incoming : Slot) :
    slot.merge incoming = incoming.parts.foldl take slot := by
  obtain ⟨field, tombstone⟩ := incoming
  cases field <;> cases tombstone <;> rfl

private theorem empty_take (part : Part) : empty.take part = part.slot := by
  cases part <;> rfl

private theorem slot_take_tombstone (part : Part) (marker : VersionMarker) :
    part.slot.take (.tombstone marker) = (part.take (.tombstone marker)).slot := by
  rw [Part.take_of_none (Or.inr rfl)]
  by_cases h : marker ≤ part.marker
  · rw [if_pos (show (Part.tombstone marker).marker ≤ part.marker from h)]
    cases part <;> simp_all [Part.slot, Part.marker, take, mergeTombstone, blocksReset]
  · rw [if_neg (show ¬ (Part.tombstone marker).marker ≤ part.marker from h)]
    cases part <;> simp_all [Part.slot, Part.marker, take, mergeTombstone, blocksReset]

/-- Two field states that are not both sets merge to the newer one. -/
theorem mergeFieldState_of_none {existing incoming : FieldState}
    (h : (Part.field existing).setOf = none ∨ (Part.field incoming).setOf = none) :
    mergeFieldState existing incoming =
      if incoming.version ≤ existing.version then existing else incoming := by
  obtain ⟨value, version⟩ := existing
  obtain ⟨other, version'⟩ := incoming
  have hswap : ∀ a b : FieldState, (if version' > version then a else b) =
      if version' ≤ version then b else a := by
    intro a b
    by_cases hle : version' ≤ version
    · rw [if_pos hle, if_neg (not_lt.mpr hle)]
    · rw [if_neg hle, if_pos (not_le.mp hle)]
  cases value <;> cases other <;> simp_all [mergeFieldState, Part.setOf]

private theorem slot_take (part incoming : Part) :
    part.slot.take incoming = (part.take incoming).slot := by
  rcases incoming with marker | incoming
  · exact slot_take_tombstone part marker
  rcases part with marker | existing
  · rw [Part.take_of_none (Or.inl rfl)]
    by_cases h : incoming.version ≤ marker
    · simp [Part.slot, Part.marker, take, mergeField, h]
    · simp [Part.slot, Part.marker, take, mergeField, h]
  · have hfield : (⟨some (if incoming.version ≤ existing.version then existing else incoming),
        none⟩ : Slot) = (if incoming.version ≤ existing.version then Part.field existing
          else Part.field incoming).slot := by
      split <;> rfl
    change (⟨some (mergeFieldState existing incoming), none⟩ : Slot) = _
    cases hset : (Part.field existing).setOf with
    | none =>
      rw [Part.take_of_none (Or.inl hset), mergeFieldState_of_none (Or.inl hset)]
      exact hfield
    | some set =>
      cases hset' : (Part.field incoming).setOf with
      | none =>
        rw [Part.take_of_none (Or.inr hset'), mergeFieldState_of_none (Or.inr hset')]
        exact hfield
      | some other =>
        rw [Part.take_set hset hset']
        obtain ⟨value, version⟩ := existing
        obtain ⟨value', version'⟩ := incoming
        cases value <;> cases value' <;> simp_all [Part.setOf]
        have hversion : (if version' > version then version' else version) =
            max version version' := by
          split <;> order
        simp only [mergeFieldState, Part.slot, Part.marker, hversion]

private theorem parts_slot (part : Part) : part.slot.parts = [part] := by
  cases part <;> rfl

theorem empty_merge_slot (part : Part) : empty.merge part.slot = part.slot := by
  rw [merge_eq_foldl_take, parts_slot]
  exact empty_take part

/-- Merging slots is taking their parts. -/
theorem slot_merge_slot (part incoming : Part) :
    part.slot.merge incoming.slot = (part.take incoming).slot := by
  rw [merge_eq_foldl_take, parts_slot]
  exact slot_take part incoming

end Slot

end Primadb
