import Primadb.Core.Collections

/-!
# Hybrid clocks and version markers

Revisions and version markers are ordered exactly as their `Ord` instances in
the source: field by field, strings by their characters, which is the byte
order of their UTF-8 form. The clock saturates at the width of its counter and
sequence number. Wall-clock readings are arguments, so no statement depends on
how time passes.
-/

namespace Primadb

/-- A hybrid logical revision: milliseconds, a tie counter and the issuing actor. -/
structure Revision where
  /-- Wall-clock milliseconds, a `u64`. -/
  millis : UInt64
  /-- Tie counter inside one millisecond, a `u32`. -/
  counter : UInt32
  /-- The replica that issued the revision. -/
  actor : String
  deriving DecidableEq, Repr

/-- The lexicographic key compared by `Revision::cmp`. -/
def Revision.key (r : Revision) : ℕ ×ₗ ℕ ×ₗ String :=
  toLex (r.millis.toNat, toLex (r.counter.toNat, r.actor))

/-- The comparison key determines the revision. -/
theorem Revision.key_injective : Function.Injective Revision.key := by
  intro a b h
  cases a
  cases b
  simpa [Revision.key, UInt64.toNat_inj, UInt32.toNat_inj] using h

instance : LinearOrder Revision := LinearOrder.lift' Revision.key Revision.key_injective

/-- Revisions are ordered by time, counter and actor. -/
theorem Revision.lt_iff {a b : Revision} :
    a < b ↔ a.millis.toNat < b.millis.toNat ∨ a.millis.toNat = b.millis.toNat ∧
      (a.counter.toNat < b.counter.toNat ∨
        a.counter.toNat = b.counter.toNat ∧ a.actor < b.actor) := by
  change a.key < b.key ↔ _
  rw [Revision.key, Revision.key, Prod.Lex.toLex_lt_toLex, Prod.Lex.toLex_lt_toLex]

/-- The version of a written value: its revision, with the operation id breaking ties. -/
structure VersionMarker where
  /-- The revision of the writing operation. -/
  revision : Revision
  /-- The id of the writing operation. -/
  opId : String
  deriving DecidableEq, Repr

/-- The lexicographic key compared by `VersionMarker::cmp`. -/
def VersionMarker.key (m : VersionMarker) : Revision ×ₗ String := toLex (m.revision, m.opId)

/-- The comparison key determines the marker. -/
theorem VersionMarker.key_injective : Function.Injective VersionMarker.key := by
  intro a b h
  cases a
  cases b
  simpa [VersionMarker.key] using h

instance : LinearOrder VersionMarker :=
  LinearOrder.lift' VersionMarker.key VersionMarker.key_injective

/-- Markers are compared by revision first and by operation id then. -/
theorem VersionMarker.lt_iff {a b : VersionMarker} :
    a < b ↔ a.revision < b.revision ∨ a.revision = b.revision ∧ a.opId < b.opId :=
  Prod.Lex.toLex_lt_toLex

/-- The least marker, used as the baseline of sets that no assignment created. -/
def zeroMarker : VersionMarker := ⟨⟨0, 0, ""⟩, ""⟩

/-- `u32::saturating_add(1)`. -/
def saturatingSucc32 (n : UInt32) : UInt32 := if n.toNat + 1 < 2 ^ 32 then n + 1 else n

/-- `u64::saturating_add(1)`. -/
def saturatingSucc64 (n : UInt64) : UInt64 := if n.toNat + 1 < 2 ^ 64 then n + 1 else n

/-- The hybrid logical clock of one replica. -/
structure HybridClock where
  /-- The replica id written into every revision. -/
  actor : String
  /-- Greatest millisecond issued or observed. -/
  lastMillis : UInt64
  /-- Tie counter inside `lastMillis`. -/
  counter : UInt32
  /-- Number of ids issued so far. -/
  sequence : UInt64
  deriving DecidableEq, Repr

/-- The lower-case hexadecimal digits printed by `{:x}`. -/
def lowerHex (n : ℕ) : String := String.ofList (Nat.toDigits 16 n)

/-- Replace every character outside `[A-Za-z0-9-_.]`; an empty component becomes `node`. -/
def sanitizeComponent (input : String) : String :=
  let sanitized := input.toList.map fun ch =>
    if ch.isAlphanum || ch == '-' || ch == '_' || ch == '.' then ch else '-'
  if sanitized.isEmpty then "node" else String.ofList sanitized

private theorem digitChar_inj_sixteen :
    ∀ a b : Fin 16, Nat.digitChar a = Nat.digitChar b → a = b := by
  decide

/-- Hexadecimal digits determine their number. -/
theorem lowerHex_injective : Function.Injective lowerHex := by
  have hdigit : ∀ {a b : ℕ}, a < 16 → b < 16 → Nat.digitChar a = Nat.digitChar b → a = b := by
    intro a b ha hb h
    exact congrArg Fin.val (digitChar_inj_sixteen ⟨a, ha⟩ ⟨b, hb⟩ h)
  have hdigits : ∀ a b : ℕ, Nat.toDigits 16 a = Nat.toDigits 16 b → a = b := by
    intro a
    induction a using Nat.strong_induction_on with
    | _ a ih =>
      intro b h
      rw [Nat.toDigits_eq_if (by decide), Nat.toDigits_eq_if (n := b) (by decide)] at h
      split at h <;> split at h
      · exact hdigit ‹_› ‹_› (List.singleton_inj.mp h)
      · simp [List.singleton_eq_append_iff] at h
      · simp [List.append_eq_singleton_iff] at h
      · obtain ⟨hhigh, hlow⟩ := List.append_inj' h rfl
        have hdiv := ih (a / 16) (by omega) (b / 16) hhigh
        have hmod := hdigit (Nat.mod_lt a (by decide)) (Nat.mod_lt b (by decide))
          (List.singleton_inj.mp hlow)
        omega
  intro a b h
  exact hdigits a b (String.ofList_injective h)

/-- Hexadecimal digits are no slash. -/
theorem slash_not_mem_lowerHex (n : ℕ) : '/' ∉ (lowerHex n).toList := by
  rw [lowerHex, String.toList_ofList]
  induction n using Nat.strong_induction_on with
  | _ n ih =>
    rw [Nat.toDigits_eq_if (by decide)]
    split
    · simp
    · rw [List.mem_append, not_or]
      exact ⟨ih (n / 16) (by omega), by simp⟩

/-- A list up to the first separator is determined by the whole. -/
theorem append_separator_inj {α : Type} {separator : α} {a b c d : List α}
    (ha : separator ∉ a) (hb : separator ∉ b) (h : a ++ separator :: c = b ++ separator :: d) :
    a = b ∧ c = d := by
  induction a generalizing b with
  | nil =>
    cases b with
    | nil => exact ⟨rfl, (List.cons.inj h).2⟩
    | cons y b => exact absurd (List.mem_cons.mpr (.inl (List.cons.inj h).1)) hb
  | cons x a ih =>
    cases b with
    | nil => exact absurd (List.mem_cons.mpr (.inl (List.cons.inj h).1.symm)) ha
    | cons y b =>
      obtain ⟨rfl, hrest⟩ := List.cons.inj h
      obtain ⟨rfl, rfl⟩ := ih (fun hmem => ha (List.mem_cons_of_mem _ hmem))
        (fun hmem => hb (List.mem_cons_of_mem _ hmem)) hrest
      exact ⟨rfl, rfl⟩

namespace HybridClock

/-- A fresh clock started at the wall-clock reading `now`. -/
def withActor (actor : String) (now : UInt64) : HybridClock := ⟨actor, now, 0, 0⟩

/-- Issue the next local revision at the wall-clock reading `now`. -/
def nextRevision (clock : HybridClock) (now : UInt64) : Revision × HybridClock :=
  let clock :=
    if now > clock.lastMillis then { clock with lastMillis := now, counter := 0 }
    else { clock with counter := saturatingSucc32 clock.counter }
  (⟨clock.lastMillis, clock.counter, clock.actor⟩, clock)

/-- Move past a revision seen from another replica. -/
def observe (clock : HybridClock) (revision : Revision) : HybridClock :=
  if revision.millis > clock.lastMillis then
    { clock with lastMillis := revision.millis, counter := revision.counter }
  else if revision.millis = clock.lastMillis ∧ revision.counter > clock.counter then
    { clock with counter := revision.counter }
  else clock

/-- Issue the next operation id inside `nspace`. -/
def nextOpId (clock : HybridClock) (nspace : String) : String × HybridClock :=
  let clock := { clock with sequence := saturatingSucc64 clock.sequence }
  (sanitizeComponent clock.actor ++ "/" ++ sanitizeComponent nspace ++ "/" ++
    lowerHex clock.lastMillis.toNat ++ "-" ++ lowerHex clock.counter.toNat ++ "-" ++
    lowerHex clock.sequence.toNat, clock)

/-- Issue the next generated node id with the given hint. -/
def nextNodeId (clock : HybridClock) (hint : String) : String × HybridClock :=
  let clock := { clock with sequence := saturatingSucc64 clock.sequence }
  (sanitizeComponent clock.actor ++ "/" ++ sanitizeComponent hint ++ "/" ++
    lowerHex clock.sequence.toNat, clock)

/-- The revision the clock has reached. -/
def revision (clock : HybridClock) : Revision := ⟨clock.lastMillis, clock.counter, clock.actor⟩

theorem le_saturatingSucc32 (n : UInt32) : n.toNat ≤ (saturatingSucc32 n).toNat := by
  unfold saturatingSucc32
  split
  · rename_i h
    rw [UInt32.toNat_add]
    have : (1 : UInt32).toNat = 1 := rfl
    omega
  · exact le_rfl

/-- The clock does not go back. -/
theorem revision_le_next (clock : HybridClock) (now : UInt64) :
    clock.revision ≤ (clock.nextRevision now).1 := by
  change clock.revision.key ≤ (clock.nextRevision now).1.key
  simp only [revision, nextRevision, Revision.key]
  split
  · rename_i h
    exact Prod.Lex.toLex_le_toLex.mpr (Or.inl (UInt64.lt_iff_toNat_lt.mp h))
  · refine Prod.Lex.toLex_le_toLex.mpr (Or.inr ⟨rfl, Prod.Lex.toLex_le_toLex.mpr ?_⟩)
    rcases (le_saturatingSucc32 clock.counter).lt_or_eq with h | h
    · exact Or.inl h
    · exact Or.inr ⟨h, le_rfl⟩

/-- A clock has seen the revision it reached. -/
theorem observe_revision (clock : HybridClock) : clock.observe clock.revision = clock := by
  simp [observe, revision]

end HybridClock

end Primadb
