import Primadb.Graph.MergeParts
import Primadb.Graph.Origin

/-!
# Merging what two histories leave

Where a slot meets only deletes and assignments of plain values, or only member
operations, merging the slots that two sets of operations leave gives the slot
that their union leaves.
-/

namespace Primadb

open LastWriter

namespace Slot

private theorem merge_empty (slot : Slot) : slot.merge empty = slot := rfl

private theorem HoldsSet.unique {a b : Slot} {baseline version : VersionMarker}
    {tombstone : Option VersionMarker} {E : Set MemberWrite}
    (ha : a.HoldsSet baseline tombstone version E) (hb : b.HoldsSet baseline tombstone version E)
    (hE : Consistent E) : a = b := by
  obtain ⟨s, rfl, hsb, hsd, hsr, -⟩ := ha
  obtain ⟨t, rfl, htb, htd, htr, -⟩ := hb
  rw [hsd.ext_table htd (hsb.trans htb.symm) (hsr.unique htr hE)]

/-- Merging two sets grown from nothing holds the writes of both. -/
theorem HoldsSet.merge {a b : Slot} {v w : VersionMarker} {E F : Set MemberWrite}
    (ha : a.HoldsSet zeroMarker none v E) (hb : b.HoldsSet zeroMarker none w F)
    (hpos : ∀ e ∈ E ∪ F, zeroMarker < e.stamp) :
    (a.merge b).HoldsSet zeroMarker none (max v w) (E ∪ F) := by
  obtain ⟨s, rfl, hsb, hsd, hsr, hsv⟩ := ha
  obtain ⟨t, rfl, htb, htd, htr, htv⟩ := hb
  have hversion : (if w > v then w else v) = max v w := by
    split <;> order
  refine ⟨mergeSetState s t, ?_, ?_, mergeSetState_disjoint s t, ?_, ?_⟩
  · simp only [Slot.merge, absorbTombstone, absorbField, mergeField, blocks_none, mergeFieldState,
      hversion, Bool.false_eq_true, if_false]
  · rw [mergeSetState_baseline, hsb, htb, max_self]
  · refine (mergeSetState_records hsd htd).enlarge ?_ ?_
    · rintro e ⟨he | he, -⟩
      · exact Or.inl (hsr.2 _ _ _ he).1
      · exact Or.inr (htr.2 _ _ _ he).1
    · rw [hsb, htb, max_self]
      rintro e (he | he)
      · obtain ⟨f, hf, hk, hle⟩ := hsr.exists_recorded he
        exact ⟨f, ⟨Or.inl hf, (hpos e (Or.inl he)).trans_le hle⟩, hk, hle⟩
      · obtain ⟨f, hf, hk, hle⟩ := htr.exists_recorded he
        exact ⟨f, ⟨Or.inr hf, (hpos e (Or.inr he)).trans_le hle⟩, hk, hle⟩
  · rintro e (he | he)
    · exact (hsv e he).trans (le_max_left _ _)
    · exact (htv e he).trans (le_max_right _ _)

end Slot

/-- Deletes and assignments of anything but a set. -/
def SlotOp.IsSimple (op : SlotOp) : Prop := op.action = .delete ∨ op.IsPlain

namespace SlotOp.IsSimple

variable {r : SlotOp}

private theorem isReset (h : r.IsSimple) : r.IsReset := by
  rcases h with h | h
  · intro present id
    simp [h]
  · exact h.isReset

private theorem exists_part (h : r.IsSimple) :
    ∃ part : Part, part.marker = r.marker ∧ part.setOf = none ∧ r.result = part.slot := by
  obtain ⟨marker, action⟩ := r
  rcases h with rfl | ⟨value, rfl, hv⟩
  · exact ⟨.tombstone marker, rfl, rfl, rfl⟩
  · refine ⟨.field ⟨value.toFieldValue marker, marker⟩, rfl, ?_, rfl⟩
    cases value with
    | set ids => exact absurd rfl (hv ids)
    | _ => rfl

end SlotOp.IsSimple

namespace Explained

variable {H : SlotHistory} {D₁ D₂ : Set SlotOp} {slot₁ slot₂ slot : Slot}

/-- Simple resets: merging the slots of two sets of operations gives the slot of their union. -/
theorem merge_simple (h₁ : Explained D₁ slot₁) (h₂ : Explained D₂ slot₂)
    (h : Explained (D₁ ∪ D₂) slot) (hD : D₁ ∪ D₂ ⊆ H.ops)
    (hsimple : ∀ op ∈ D₁ ∪ D₂, op.IsSimple) : slot₁.merge slot₂ = slot := by
  have hreset : ∀ op ∈ D₁ ∪ D₂, op.IsReset := fun op hop => (hsimple op hop).isReset
  have hunion : ∀ {top : SlotOp}, top ∈ D₁ ∪ D₂ →
      (∀ op ∈ D₁ ∪ D₂, op.marker ≤ top.marker) → slot = top.result :=
    fun htop hmax => h.eq_result hD hreset htop hmax
  cases h₁ with
  | blank hempty hs₁ =>
    subst hempty hs₁
    cases h₂ with
    | blank hempty hs₂ =>
      subst hempty hs₂
      cases h with
      | blank _ hs => exact hs.symm
      | reset hr => simp at hr
      | set _ _ htop =>
        obtain ⟨_, _, hmem⟩ := htop
        simp at hmem
    | reset hr _ hmax hs₂ =>
      subst hs₂
      obtain ⟨part, -, -, hpart⟩ := (hsimple _ (Or.inr hr)).exists_part
      rw [hpart, Slot.empty_merge_slot, ← hpart]
      exact (hunion (Or.inr hr) (by simpa using hmax)).symm
    | set _ _ htop =>
      obtain ⟨p, i, hmem⟩ := htop
      exact absurd rfl (hreset _ (Or.inr hmem) p i)
  | @reset r hr _ hmax hs₁ =>
    subst hs₁
    cases h₂ with
    | blank hempty hs₂ =>
      subst hempty hs₂
      exact (hunion (Or.inl hr) (by simpa using hmax)).symm
    | @reset r' hr' _ hmax' hs₂ =>
      subst hs₂
      obtain ⟨part, hm, hset, hpart⟩ := (hsimple r (Or.inl hr)).exists_part
      obtain ⟨part', hm', -, hpart'⟩ := (hsimple r' (Or.inr hr')).exists_part
      rw [hpart, hpart', Slot.slot_merge_slot, Part.take_of_none (Or.inl hset), hm, hm']
      by_cases hle : r'.marker ≤ r.marker
      · rw [if_pos hle, ← hpart]
        refine (hunion (Or.inl hr) ?_).symm
        rintro op (hop | hop)
        · exact hmax op hop
        · exact (hmax' op hop).trans hle
      · rw [if_neg hle, ← hpart']
        refine (hunion (Or.inr hr') ?_).symm
        rintro op (hop | hop)
        · exact (hmax op hop).trans (not_le.mp hle).le
        · exact hmax' op hop
    | set _ _ htop =>
      obtain ⟨p, i, hmem⟩ := htop
      exact absurd rfl (hreset _ (Or.inr hmem) p i)
  | set _ _ htop =>
    obtain ⟨p, i, hmem⟩ := htop
    exact absurd rfl (hreset _ (Or.inl hmem) p i)

private theorem empty_or_holdsSet (h : Explained D₁ slot₁) (hmember : ∀ op ∈ D₁, ¬ op.IsReset) :
    D₁ = ∅ ∧ slot₁ = Slot.empty ∨ ∃ top ∈ D₁, (∀ op ∈ D₁, op.marker ≤ top.marker) ∧
      slot₁.HoldsSet zeroMarker none top.marker (memberWrites D₁) := by
  have hset := h
  cases h with
  | blank hempty hs => exact Or.inl ⟨hempty, hs⟩
  | reset hr hreset => exact absurd hreset (hmember _ hr)
  | set hs ho htop hmax =>
    obtain ⟨p, i, hmem⟩ := htop
    exact Or.inr ⟨_, hmem, hmax, hset.holdsSet_memberWrites hmember hmem hmax⟩

/-- Member operations: merging the slots of two sets of operations gives the slot of their
union. -/
theorem merge_members (h₁ : Explained D₁ slot₁) (h₂ : Explained D₂ slot₂)
    (h : Explained (D₁ ∪ D₂) slot) (hD : D₁ ∪ D₂ ⊆ H.ops)
    (hmember : ∀ op ∈ D₁ ∪ D₂, ¬ op.IsReset) : slot₁.merge slot₂ = slot := by
  have hunique : ∀ {v : VersionMarker} {s t : Slot},
      s.HoldsSet zeroMarker none v (memberWrites (D₁ ∪ D₂)) →
      t.HoldsSet zeroMarker none v (memberWrites (D₁ ∪ D₂)) → s = t :=
    fun hs ht => hs.unique ht (H.consistent.mono (memberWrites_mono hD))
  rcases h₁.empty_or_holdsSet fun op hop => hmember op (Or.inl hop) with
    ⟨rfl, rfl⟩ | ⟨top₁, htop₁, hmax₁, hset₁⟩ <;>
  rcases h₂.empty_or_holdsSet fun op hop => hmember op (Or.inr hop) with
    ⟨rfl, rfl⟩ | ⟨top₂, htop₂, hmax₂, hset₂⟩
  · rcases h.empty_or_holdsSet hmember with ⟨-, hs⟩ | ⟨top, htop, -⟩
    · exact hs.symm
    · simp at htop
  · have htaken : Slot.empty.merge slot₂ = slot₂ := by
      obtain ⟨set, hs, -⟩ := hset₂
      rw [hs]
      exact Slot.empty_merge_slot (.field _)
    rw [htaken]
    simp only [Set.empty_union] at h hmember hunique
    exact hunique hset₂ (h.holdsSet_memberWrites hmember htop₂ hmax₂)
  · rw [Slot.merge_empty]
    simp only [Set.union_empty] at h hmember hunique
    exact hunique hset₁ (h.holdsSet_memberWrites hmember htop₁ hmax₁)
  · have hmerged : (slot₁.merge slot₂).HoldsSet zeroMarker none (max top₁.marker top₂.marker)
        (memberWrites (D₁ ∪ D₂)) :=
      hset₁.merge hset₂ fun w hw => H.positive (hD hw)
    rcases le_total top₁.marker top₂.marker with hle | hle
    · rw [max_eq_right hle] at hmerged
      refine hunique hmerged (h.holdsSet_memberWrites hmember (Or.inr htop₂) ?_)
      rintro op (hop | hop)
      · exact (hmax₁ op hop).trans hle
      · exact hmax₂ op hop
    · rw [max_eq_left hle] at hmerged
      refine hunique hmerged (h.holdsSet_memberWrites hmember (Or.inl htop₁) ?_)
      rintro op (hop | hop)
      · exact hmax₁ op hop
      · exact (hmax₂ op hop).trans hle

end Explained

end Primadb
