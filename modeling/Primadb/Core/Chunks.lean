import Primadb.Core.Collections

/-!
# Chunks of a list

A list is split into parts of a given length, of which the last may be shorter. Together the parts
are the list again, none of them is empty, and their number is the length over that of a part,
rounded up.
-/

namespace Primadb

variable {α β : Type}

/-- The parts of a list behind a part that was begun. -/
def chunksFrom (n : ℕ) (part : List α) : List α → List (List α)
  | [] => [part]
  | x :: l => if part.length = n then part :: chunksFrom n [x] l else chunksFrom n (part ++ [x]) l

/-- Splitting begins a part with the first element. -/
theorem toChunks_cons {n : ℕ} (hn : n ≠ 0) (x : α) (l : List α) :
    (x :: l).toChunks n = chunksFrom n [x] l := by
  have hgo : ∀ (l : List α) (part : Array α) (parts : Array (List α)),
      List.toChunks.go n l part parts = parts.toList ++ chunksFrom n part.toList l := by
    intro l
    induction l with
    | nil => simp [List.toChunks.go, chunksFrom]
    | cons x l ih =>
      intro part parts
      rw [List.toChunks.go, chunksFrom]
      simp only [beq_iff_eq, Array.length_toList]
      split <;> rw [ih] <;> simp
  rw [List.toChunks.eq_3 _ _ _ hn, hgo]
  rfl

private theorem chunksFrom_append {n : ℕ} {part l : List α} (h : part.length + l.length ≤ n)
    (rest : List α) : chunksFrom n part (l ++ rest) = chunksFrom n (part ++ l) rest := by
  induction l generalizing part with
  | nil => rw [List.nil_append, List.append_nil]
  | cons x l ih =>
    rw [List.length_cons] at h
    have hnext : (part ++ [x]).length + l.length ≤ n := by
      rw [List.length_append, List.length_singleton]
      omega
    rw [List.cons_append, chunksFrom, if_neg (by omega), ih hnext, List.append_assoc]
    rfl

/-- A short list is one chunk. -/
theorem toChunks_of_length_le {n : ℕ} {l : List α} (hl : l ≠ []) (h : l.length ≤ n) :
    l.toChunks n = [l] := by
  cases l with
  | nil => exact absurd rfl hl
  | cons x l =>
    rw [List.length_cons] at h
    have hpart : [x].length + l.length ≤ n := by
      rw [List.length_singleton]
      omega
    rw [toChunks_cons (by omega), ← List.append_nil l, chunksFrom_append hpart, List.append_nil]
    rfl

/-- A full first part is the first chunk. -/
theorem toChunks_append {n : ℕ} (hn : n ≠ 0) {l : List α} (h : l.length = n) (rest : List α) :
    (l ++ rest).toChunks n = l :: rest.toChunks n := by
  cases l with
  | nil => exact absurd h.symm hn
  | cons x l =>
    have hpart : [x].length + l.length ≤ n := by
      rw [List.length_cons] at h
      rw [List.length_singleton]
      omega
    rw [List.cons_append, toChunks_cons hn, chunksFrom_append hpart, List.singleton_append]
    cases rest with
    | nil => rw [chunksFrom, List.toChunks]
    | cons y rest => rw [chunksFrom, if_pos h, toChunks_cons hn]

/-- The parts of a list together are the list. -/
theorem flatten_toChunks (n : ℕ) (l : List α) : (l.toChunks n).flatten = l := by
  have hfrom : ∀ (l part : List α), (chunksFrom n part l).flatten = part ++ l := by
    intro l
    induction l with
    | nil => simp [chunksFrom]
    | cons x l ih =>
      intro part
      rw [chunksFrom]
      split <;> simp [ih]
  cases l with
  | nil => cases n <;> rfl
  | cons x l =>
    cases n with
    | zero => simp [List.toChunks]
    | succ n => rw [toChunks_cons (Nat.succ_ne_zero n), hfrom, List.singleton_append]

/-- No chunk is empty. -/
theorem ne_nil_of_mem_toChunks {n : ℕ} (hn : n ≠ 0) {l part : List α} (h : part ∈ l.toChunks n) :
    part ≠ [] := by
  have hfrom : ∀ (l begun : List α), begun ≠ [] → ∀ part ∈ chunksFrom n begun l, part ≠ [] := by
    intro l
    induction l with
    | nil => simp +contextual [chunksFrom]
    | cons x l ih =>
      intro begun hbegun part hpart
      rw [chunksFrom] at hpart
      split at hpart
      · rcases List.mem_cons.mp hpart with rfl | hpart
        · exact hbegun
        · exact ih [x] (List.cons_ne_nil _ _) part hpart
      · exact ih _ (List.append_ne_nil_of_right_ne_nil _ (List.cons_ne_nil _ _)) part hpart
  cases l with
  | nil => cases n <;> simp [List.toChunks] at h
  | cons x l =>
    rw [toChunks_cons hn] at h
    exact hfrom l [x] (List.cons_ne_nil _ _) part h

/-- The parts of the images are the images of the parts. -/
theorem toChunks_map {n : ℕ} (hn : n ≠ 0) (f : α → β) (l : List α) :
    (l.map f).toChunks n = (l.toChunks n).map (List.map f) := by
  have hfrom : ∀ (l part : List α),
      chunksFrom n (part.map f) (l.map f) = (chunksFrom n part l).map (List.map f) := by
    intro l
    induction l with
    | nil => simp [chunksFrom]
    | cons x l ih =>
      intro part
      have hnext := ih (part ++ [x])
      rw [List.map_append] at hnext
      rw [List.map_cons, chunksFrom, chunksFrom, List.length_map]
      split
      · exact congrArg (part.map f :: ·) (ih [x])
      · exact hnext
  cases l with
  | nil => cases n <;> rfl
  | cons x l =>
    rw [List.map_cons, toChunks_cons hn, toChunks_cons hn]
    exact hfrom l [x]

/-- The number of parts is the length over that of a part, rounded up. -/
theorem length_toChunks {n : ℕ} (hn : n ≠ 0) (l : List α) :
    (l.toChunks n).length = (l.length + n - 1) / n := by
  have hpos : 0 < n := Nat.pos_of_ne_zero hn
  have hfrom : ∀ (l part : List α), part ≠ [] → part.length ≤ n →
      (chunksFrom n part l).length = (part.length + l.length + n - 1) / n := by
    intro l
    induction l with
    | nil =>
      intro part hpart hle
      have := List.length_pos_of_ne_nil hpart
      rw [chunksFrom, List.length_nil, List.length_singleton, eq_comm,
        Nat.div_eq_iff hpos]
      omega
    | cons x l ih =>
      intro part hpart hle
      rw [chunksFrom]
      split
      · rename_i hfull
        rw [List.length_cons, ih [x] (List.cons_ne_nil _ _) hpos, hfull,
          List.length_singleton, List.length_cons]
        have : n + (l.length + 1) + n - 1 = (1 + l.length + n - 1) + n := by omega
        rw [this, Nat.add_div_right _ hpos]
      · rename_i hroom
        rw [ih _ (List.append_ne_nil_of_right_ne_nil _ (List.cons_ne_nil _ _))
          (by rw [List.length_append, List.length_singleton]; omega)]
        rw [List.length_append, List.length_singleton, List.length_cons]
        congr 1
        omega
  cases l with
  | nil =>
    rw [List.length_nil, Nat.zero_add, Nat.div_eq_of_lt (by omega)]
    cases n <;> rfl
  | cons x l =>
    rw [toChunks_cons hn, hfrom l [x] (List.cons_ne_nil _ _) hpos, List.length_singleton,
      List.length_cons, Nat.add_comm 1]

end Primadb
