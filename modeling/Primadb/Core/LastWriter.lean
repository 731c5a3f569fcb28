import Primadb.Core.Collections

/-!
# Last-writer-wins tables

A table keeps, for every key, the value of the newest stamped write it has
taken in. What a table records is described by the set of writes it was built
from, without their order: a recorded write is a greatest write to its key, and
a blank key was never written. Two tables recording the same writes agree as
soon as equal stamps on one key carry equal values.
-/

namespace Primadb.LastWriter

variable {μ κ β : Type}

/-- A stamped write of a value under a key. -/
@[ext] structure Write (μ κ β : Type) where
  /-- The stamp the write is compared by. -/
  stamp : μ
  /-- The written key. -/
  key : κ
  /-- The written value. -/
  value : β

/-- The newest write to each key, when there is one. -/
abbrev Table (μ κ β : Type) := κ → Option (μ × β)

/-- Equal stamps on one key carry one value. -/
def Consistent (E : Set (Write μ κ β)) : Prop :=
  ∀ v ∈ E, ∀ w ∈ E, v.key = w.key → v.stamp = w.stamp → v.value = w.value

theorem Consistent.mono {E F : Set (Write μ κ β)} (h : Consistent F) (he : E ⊆ F) :
    Consistent E :=
  fun v hv w hw => h v (he hv) w (he hw)

variable [LinearOrder μ]

/-- A greatest write of `E` to its key. -/
def IsLatest (E : Set (Write μ κ β)) (w : Write μ κ β) : Prop :=
  w ∈ E ∧ ∀ v ∈ E, v.key = w.key → v.stamp ≤ w.stamp

/-- The table holds exactly a greatest write of `E` for every written key. -/
def Records (t : Table μ κ β) (E : Set (Write μ κ β)) : Prop :=
  (∀ k, t k = none → ∀ w ∈ E, w.key ≠ k) ∧ ∀ k m b, t k = some (m, b) → IsLatest E ⟨m, k, b⟩

theorem records_empty : Records (fun _ => none : Table μ κ β) ∅ :=
  ⟨fun _ _ _ h => h.elim, fun _ _ _ h => by simp at h⟩

variable {E : Set (Write μ κ β)} {t : Table μ κ β} {w : Write μ κ β}

/-- No write of a key is newer than the recorded one. -/
theorem Records.exists_recorded (h : Records t E) (hw : w ∈ E) :
    ∃ v : Write μ κ β, t v.key = some (v.stamp, v.value) ∧ v.key = w.key ∧ w.stamp ≤ v.stamp := by
  cases ht : t w.key with
  | none => exact absurd rfl (h.1 _ ht w hw)
  | some e => exact ⟨⟨e.1, w.key, e.2⟩, ht, rfl, (h.2 _ e.1 e.2 ht).2 w hw rfl⟩

/-- Writes that are no newer than a recorded one may be added. -/
theorem Records.enlarge {E F : Set (Write μ κ β)} (h : Records t E) (hsub : E ⊆ F)
    (hle : ∀ w ∈ F, ∃ v ∈ E, v.key = w.key ∧ w.stamp ≤ v.stamp) : Records t F := by
  refine ⟨fun k hk w hw hwk => ?_, fun k m b hk => ?_⟩
  · obtain ⟨v, hv, hvk, -⟩ := hle w hw
    exact h.1 k hk v hv (hvk.trans hwk)
  · obtain ⟨hm, hmax⟩ := h.2 k m b hk
    refine ⟨hsub hm, fun w hw hwk => ?_⟩
    obtain ⟨v, hv, hvk, hstamp⟩ := hle w hw
    exact hstamp.trans (hmax v hv (hvk.trans hwk))

/-- The newest write of `E` to the key `k` carries the value `b`. -/
def Latest (E : Set (Write μ κ β)) (k : κ) (b : β) : Prop := ∃ m, IsLatest E ⟨m, k, b⟩

/-- A recorded value is the latest one of its key. -/
theorem Records.exists_iff_latest (h : Records t E) (hc : Consistent E) (k : κ) (b : β) :
    (∃ m, t k = some (m, b)) ↔ Latest E k b := by
  constructor
  · rintro ⟨m, hm⟩
    exact ⟨m, h.2 k m b hm⟩
  · rintro ⟨m, hm, hmax⟩
    cases ht : t k with
    | none => exact absurd rfl (h.1 k ht _ hm)
    | some e =>
      obtain ⟨m', b'⟩ := e
      obtain ⟨hm', hmax'⟩ := h.2 k m' b' ht
      have he : m = m' := le_antisymm (hmax' _ hm rfl) (hmax _ hm' rfl)
      have hb : b = b' := hc _ hm _ hm' rfl he
      exact ⟨m', by rw [hb]⟩

/-- The recorded writes determine the table. -/
theorem Records.unique {t s : Table μ κ β} (ht : Records t E) (hs : Records s E)
    (hc : Consistent E) : t = s := by
  funext k
  cases htk : t k with
  | none =>
    cases hsk : s k with
    | none => rfl
    | some e => exact absurd rfl (ht.1 k htk _ (hs.2 k e.1 e.2 hsk).1)
  | some e =>
    obtain ⟨hm, hmax⟩ := ht.2 k e.1 e.2 htk
    cases hsk : s k with
    | none => exact absurd rfl (hs.1 k hsk _ hm)
    | some e' =>
      obtain ⟨hm', hmax'⟩ := hs.2 k e'.1 e'.2 hsk
      have he : e.1 = e'.1 := le_antisymm (hmax' _ hm rfl) (hmax _ hm' rfl)
      exact congrArg some (Prod.ext he (hc _ hm _ hm' rfl he))

/-- A write newer than everything recorded under its key. -/
def Newer (t : Table μ κ β) (k : κ) (m : μ) : Prop := ∀ e, t k = some e → e.1 < m

/-- A table that ignores an outdated write still records it. -/
theorem Records.ignore (h : Records t E) (hw : ¬ Newer t w.key w.stamp) :
    Records t (insert w E) := by
  simp only [Newer, not_forall, not_lt] at hw
  obtain ⟨e, he, hle⟩ := hw
  refine ⟨fun k hk v hv => ?_, fun k m b hk => ?_⟩
  · rcases hv with rfl | hv
    · rintro rfl
      simp [he] at hk
    · exact h.1 k hk v hv
  · obtain ⟨hm, hmax⟩ := h.2 k m b hk
    refine ⟨Or.inr hm, fun v hv hvk => ?_⟩
    rcases hv with rfl | hv
    · rw [hvk, hk] at he
      cases he
      exact hle
    · exact hmax v hv hvk

/-- The latest writes of a key have one stamp. -/
theorem IsLatest.stamp_eq {v w : Write μ κ β} (hv : IsLatest E v) (hw : IsLatest E w)
    (hk : v.key = w.key) : v.stamp = w.stamp :=
  le_antisymm (hw.2 v hv.1 hk) (hv.2 w hw.1 hk.symm)

/-- Keeping only the stamps of an upper set keeps exactly the latest writes inside it. -/
theorem isLatest_sep_iff {P : μ → Prop} (hP : ∀ m n, P m → m ≤ n → P n) (w : Write μ κ β) :
    IsLatest {v ∈ E | P v.stamp} w ↔ IsLatest E w ∧ P w.stamp := by
  constructor
  · rintro ⟨⟨hw, hPw⟩, hmax⟩
    refine ⟨⟨hw, fun v hv hk => ?_⟩, hPw⟩
    rcases le_total v.stamp w.stamp with hle | hle
    · exact hle
    · exact hmax v ⟨hv, hP _ _ hPw hle⟩ hk
  · rintro ⟨⟨hw, hmax⟩, hPw⟩
    exact ⟨⟨hw, hPw⟩, fun v hv hk => hmax v hv.1 hk⟩

/-- Newer writes alone decide the latest value. -/
theorem latest_congr_above {E F : Set (Write μ κ β)} {k : κ} {m : μ}
    (h : ∀ w : Write μ κ β, w.key = k → m < w.stamp → (w ∈ E ↔ w ∈ F))
    (hex : ∃ w ∈ E, w.key = k ∧ m < w.stamp) (b : β) : Latest E k b ↔ Latest F k b := by
  have hone : ∀ {E F : Set (Write μ κ β)},
      (∀ w : Write μ κ β, w.key = k → m < w.stamp → (w ∈ E ↔ w ∈ F)) →
      (∃ w ∈ E, w.key = k ∧ m < w.stamp) → Latest E k b → Latest F k b := by
    rintro E F h ⟨v, hv, hvk, hvm⟩ ⟨n, hn, hmax⟩
    have hmn : m < n := hvm.trans_le (hmax v hv hvk)
    refine ⟨n, (h _ rfl hmn).mp hn, fun w hw hwk => ?_⟩
    rcases le_or_gt w.stamp m with hle | hlt
    · exact hle.trans hmn.le
    · exact hmax w ((h w hwk hlt).mpr hw) hwk
  have hex' : ∃ w ∈ F, w.key = k ∧ m < w.stamp := by
    obtain ⟨v, hv, hvk, hvm⟩ := hex
    exact ⟨v, (h v hvk hvm).mp hv, hvk, hvm⟩
  exact ⟨hone h hex, hone (fun w hk hm => (h w hk hm).symm) hex'⟩

variable [DecidableEq κ]

/-- A newer write is recorded. -/
theorem Records.update (h : Records t E) (hw : Newer t w.key w.stamp) :
    Records (Function.update t w.key (some (w.stamp, w.value))) (insert w E) := by
  have hle : ∀ v ∈ E, v.key = w.key → v.stamp ≤ w.stamp := by
    intro v hv hvk
    cases ht : t w.key with
    | none => exact absurd hvk (h.1 _ ht v hv)
    | some e => exact ((h.2 _ e.1 e.2 ht).2 v hv hvk).trans (hw e ht).le
  refine ⟨fun k hk v hv => ?_, fun k m b hk => ?_⟩
  · by_cases hkw : k = w.key
    · subst hkw
      simp at hk
    · rw [Function.update_of_ne hkw] at hk
      rcases hv with rfl | hv
      · exact fun he => hkw he.symm
      · exact h.1 k hk v hv
  · by_cases hkw : k = w.key
    · subst hkw
      simp only [Function.update_self, Option.some.injEq, Prod.mk.injEq] at hk
      obtain ⟨rfl, rfl⟩ := hk
      refine ⟨Or.inl rfl, fun v hv hvk => ?_⟩
      rcases hv with rfl | hv
      · exact le_rfl
      · exact hle v hv hvk
    · rw [Function.update_of_ne hkw] at hk
      obtain ⟨hm, hmax⟩ := h.2 k m b hk
      refine ⟨Or.inr hm, fun v hv hvk => ?_⟩
      rcases hv with rfl | hv
      · exact absurd hvk.symm hkw
      · exact hmax v hv hvk

end Primadb.LastWriter
