import Mathlib.Data.List.Infix

/-! Where a pattern first occurs in a list. -/

variable {α : Type}

def OccursAt (pat s : List α) (i : Nat) : Prop := pat <+: s.drop i

structure LeftmostAt (pat s : List α) (i : Nat) : Prop where
  occurs : OccursAt pat s i
  first : ∀ j < i, ¬OccursAt pat s j

theorem LeftmostAt.unique {pat s : List α} {i j : Nat} (hi : LeftmostAt pat s i)
    (hj : LeftmostAt pat s j) : i = j := by
  rcases Nat.lt_trichotomy i j with hlt | heq | hgt
  · exact absurd hi.occurs (hj.first i hlt)
  · exact heq
  · exact absurd hj.occurs (hi.first j hgt)

theorem occursAt_drop {pat s : List α} {k i : Nat} :
    OccursAt pat (s.drop k) i ↔ OccursAt pat s (k + i) := by
  rw [OccursAt, OccursAt, List.drop_drop]

theorem OccursAt.mono {pat s s' : List α} {i : Nat} (h : OccursAt pat s i) (hs : s <+: s') :
    OccursAt pat s' i := h.trans (hs.drop i)

/-- The list up to the end of the first occurrence. -/
theorem LeftmostAt.take {pat s : List α} {i : Nat} (h : LeftmostAt pat s i) :
    s.take (i + pat.length) = s.take i ++ pat ∧ LeftmostAt pat (s.take i ++ pat) i := by
  have htake : s.take (i + pat.length) = s.take i ++ pat := by
    rw [List.take_add, ← List.prefix_iff_eq_take.mp h.occurs]
  refine ⟨htake, ⟨?_, fun j hj hoccurs => h.first j hj (hoccurs.mono ?_)⟩⟩
  · rw [← htake, OccursAt, List.drop_take, Nat.add_sub_cancel_left]
    rw [← List.prefix_iff_eq_take.mp h.occurs]
  · rw [← htake]
    exact List.take_prefix _ _

/-- A search may pass over places at which the pattern does not begin. -/
theorem LeftmostAt.of_drop {pat s : List α} {k i : Nat} (hnone : ∀ j < k, ¬OccursAt pat s j)
    (h : LeftmostAt pat (s.drop k) i) : LeftmostAt pat s (k + i) := by
  refine ⟨occursAt_drop.mp h.occurs, fun j hj => ?_⟩
  by_cases hk : j < k
  · exact hnone j hk
  · intro hoccurs
    refine h.first (j - k) (by omega) (occursAt_drop.mpr ?_)
    rwa [Nat.add_sub_cancel' (by omega)]

theorem not_occursAt_of_drop {pat s : List α} {k : Nat} (hnone : ∀ j < k, ¬OccursAt pat s j)
    (h : ∀ i, ¬OccursAt pat (s.drop k) i) (i : Nat) : ¬OccursAt pat s i := by
  by_cases hk : i < k
  · exact hnone i hk
  · intro hoccurs
    refine h (i - k) (occursAt_drop.mpr ?_)
    rwa [Nat.add_sub_cancel' (by omega)]

/-- A pattern does not begin where its first element does not stand. -/
theorem not_occursAt_of_head {c : α} {pat s : List α} {i : Nat} (h : s[i]? ≠ some c) :
    ¬OccursAt (c :: pat) s i := by
  rintro ⟨t, ht⟩
  apply h
  rw [← List.head?_drop, ← ht]
  rfl

theorem LeftmostAt.lt_length {c : α} {pat s : List α} {i : Nat}
    (h : LeftmostAt (c :: pat) s i) : i + (c :: pat).length ≤ s.length := by
  have hle := h.occurs.length_le
  rw [List.length_drop] at hle
  simp only [List.length_cons] at hle ⊢
  omega
