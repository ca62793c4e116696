import Mathlib.Data.List.Sort
import Proveno.Vm.Calls

/-! The merge sort of the machine for any comparison: what it returns is a permutation of
what it is given, and with comparisons that answer alike it is the sort of a pure list. -/

namespace Proveno

variable {ε S α : Type} {less : α → α → Exec ε S Bool}

theorem merge_perm (fuel : Nat) {left right out : List α} {s s' : S}
    (h : (merge less fuel left right).run s = (.ok out, s')) : out.Perm (left ++ right) := by
  induction fuel generalizing left right out s s' with
  | zero => cases left <;> cases right <;> cases h <;> simp
  | succ fuel ih =>
    cases left with
    | nil =>
      cases h
      rfl
    | cons a left =>
      cases right with
      | nil =>
        cases h
        simp
      | cons b right =>
        rw [merge] at h
        obtain ⟨isLess, mid, -, h⟩ := Exec.run_bind_eq_ok.mp h
        cases isLess with
        | true =>
          obtain ⟨rest, mid', hrest, h⟩ := Exec.run_bind_eq_ok.mp h
          cases h
          exact (ih hrest).cons a
        | false =>
          obtain ⟨rest, mid', hrest, h⟩ := Exec.run_bind_eq_ok.mp h
          cases h
          exact ((ih hrest).cons b).trans List.perm_middle.symm

theorem mergeSort_perm (fuel : Nat) {arr out : List α} {s s' : S}
    (h : (mergeSort less fuel arr).run s = (.ok out, s')) : out.Perm arr := by
  induction fuel generalizing arr out s s' with
  | zero =>
    cases h
    rfl
  | succ fuel ih =>
    rw [mergeSort] at h
    split_ifs at h
    · cases h
      rfl
    · obtain ⟨left, mid, hleft, h⟩ := Exec.run_bind_eq_ok.mp h
      obtain ⟨right, mid', hright, h⟩ := Exec.run_bind_eq_ok.mp h
      have hhalves := (ih hleft).append (ih hright)
      rw [List.take_append_drop] at hhalves
      exact (merge_perm _ h).trans hhalves

/-- The sort of a pure list by the same halves. -/
def sortBy (f : α → α → Bool) : Nat → List α → List α
  | 0, arr => arr
  | fuel + 1, arr =>
    if arr.length ≤ 1 then arr
    else (sortBy f fuel (arr.take (arr.length / 2))).merge
      (sortBy f fuel (arr.drop (arr.length / 2))) f

theorem length_sortBy (f : α → α → Bool) (fuel : Nat) (arr : List α) :
    (sortBy f fuel arr).length = arr.length := by
  induction fuel generalizing arr with
  | zero => rfl
  | succ fuel ih =>
    rw [sortBy]
    split_ifs
    · rfl
    · rw [List.length_merge, ih, ih, List.length_take, List.length_drop]
      omega

theorem sortBy_perm (f : α → α → Bool) (fuel : Nat) (arr : List α) :
    (sortBy f fuel arr).Perm arr := by
  induction fuel generalizing arr with
  | zero => rfl
  | succ fuel ih =>
    rw [sortBy]
    split_ifs
    · rfl
    · have hhalves := (ih (arr.take (arr.length / 2))).append (ih (arr.drop (arr.length / 2)))
      rw [List.take_append_drop] at hhalves
      exact (List.merge_perm_append f).trans hhalves

section Answers

variable {f : α → α → Bool} {p : α → Prop} {I : Nat → S → Prop}

/-- A comparison that answers by `f` as long as the state allows one more. -/
def Answers (less : α → α → Exec ε S Bool) (f : α → α → Bool) (p : α → Prop)
    (I : Nat → S → Prop) : Prop :=
  ∀ n a b s, p a → p b → I (n + 1) s → ∃ s', (less a b).run s = (.ok (f a b), s') ∧ I n s'

theorem answers_drop (hmono : ∀ n s, I (n + 1) s → I n s) (k n : Nat) (s : S)
    (h : I (k + n) s) : I n s := by
  induction k with
  | zero => rwa [Nat.zero_add] at h
  | succ k ih => exact ih (hmono _ _ (by rwa [Nat.add_right_comm] at h))

theorem merge_run (hless : Answers less f p I) (hmono : ∀ n s, I (n + 1) s → I n s)
    (fuel : Nat) {left right : List α} (hfuel : left.length + right.length ≤ fuel)
    (hleft : ∀ a ∈ left, p a) (hright : ∀ b ∈ right, p b) {n : Nat} {s : S}
    (hs : I (left.length + right.length + n) s) :
    ∃ s', (merge less fuel left right).run s = (.ok (left.merge right f), s') ∧ I n s' := by
  induction fuel generalizing left right n s with
  | zero =>
    obtain rfl : left = [] := List.length_eq_zero_iff.mp (by omega)
    obtain rfl : right = [] := List.length_eq_zero_iff.mp (by omega)
    exact ⟨s, by rw [merge, List.nil_merge]; rfl, answers_drop hmono _ _ _ hs⟩
  | succ fuel ih =>
    cases left with
    | nil => exact ⟨s, by rw [merge, List.nil_merge]; rfl, answers_drop hmono _ _ _ hs⟩
    | cons a left =>
      cases right with
      | nil => exact ⟨s, by rw [List.merge_right]; rfl, answers_drop hmono _ _ _ hs⟩
      | cons b right =>
        simp only [List.length_cons] at hs hfuel
        obtain ⟨s₁, hrun, hs₁⟩ := hless (left.length + right.length + 1 + n) a b s
          (hleft a List.mem_cons_self) (hright b List.mem_cons_self)
          (by convert hs using 1; omega)
        rw [merge, Exec.run_bind_ok hrun, List.cons_merge_cons]
        cases f a b with
        | true =>
          obtain ⟨s₂, hrest, hs₂⟩ := ih
            (show left.length + (b :: right).length ≤ fuel by simp only [List.length_cons]; omega)
            (fun a' ha' => hleft a' (List.mem_cons_of_mem _ ha')) hright hs₁
          exact ⟨s₂, Exec.run_bind_ok hrest, hs₂⟩
        | false =>
          have hs₁' : I ((a :: left).length + right.length + n) s₁ := by
            convert hs₁ using 1
            simp only [List.length_cons]
            omega
          obtain ⟨s₂, hrest, hs₂⟩ := ih
            (show (a :: left).length + right.length ≤ fuel by simp only [List.length_cons]; omega)
            hleft (fun b' hb' => hright b' (List.mem_cons_of_mem _ hb')) hs₁'
          exact ⟨s₂, Exec.run_bind_ok hrest, hs₂⟩

/-- The comparisons of a sort are no more than its fuel times the length of the list. -/
theorem mergeSort_run (hless : Answers less f p I) (hmono : ∀ n s, I (n + 1) s → I n s)
    (fuel : Nat) {arr : List α} (hp : ∀ a ∈ arr, p a) {n : Nat} {s : S}
    (hs : I (fuel * arr.length + n) s) :
    ∃ s', (mergeSort less fuel arr).run s = (.ok (sortBy f fuel arr), s') ∧ I n s' := by
  induction fuel generalizing arr n s with
  | zero =>
    rw [Nat.zero_mul, Nat.zero_add] at hs
    exact ⟨s, rfl, hs⟩
  | succ fuel ih =>
    rw [mergeSort, sortBy]
    by_cases hshort : arr.length ≤ 1
    · rw [if_pos hshort, if_pos hshort]
      exact ⟨s, rfl, answers_drop hmono _ _ _ hs⟩
    rw [if_neg hshort, if_neg hshort]
    have hsplit : (arr.take (arr.length / 2)).length + (arr.drop (arr.length / 2)).length =
        arr.length := by
      rw [← List.length_append, List.take_append_drop]
    have hbudget : (fuel + 1) * arr.length + n =
        fuel * (arr.take (arr.length / 2)).length +
          (fuel * (arr.drop (arr.length / 2)).length + (arr.length + n)) := by
      have hmul := Nat.mul_add fuel (arr.take (arr.length / 2)).length
        (arr.drop (arr.length / 2)).length
      rw [hsplit] at hmul
      rw [Nat.succ_mul]
      omega
    rw [hbudget] at hs
    obtain ⟨s₁, hleft, hs₁⟩ := ih (fun a ha => hp a (List.mem_of_mem_take ha)) hs
    obtain ⟨s₂, hright, hs₂⟩ := ih (fun a ha => hp a (List.mem_of_mem_drop ha)) hs₁
    have hlengths : (sortBy f fuel (arr.take (arr.length / 2))).length +
        (sortBy f fuel (arr.drop (arr.length / 2))).length = arr.length := by
      rw [length_sortBy, length_sortBy, hsplit]
    obtain ⟨s₃, hmerge, hs₃⟩ := merge_run hless hmono arr.length hlengths.le
      (fun a ha => hp a (List.mem_of_mem_take ((sortBy_perm f fuel _).mem_iff.mp ha)))
      (fun a ha => hp a (List.mem_of_mem_drop ((sortBy_perm f fuel _).mem_iff.mp ha)))
      (by rwa [hlengths])
    exact ⟨s₃, by rw [Exec.run_bind_ok hleft, Exec.run_bind_ok hright, hmerge], hs₃⟩

end Answers

section Sorted

variable {f : α → α → Bool} {p : α → Prop} {le : α → α → Prop}

/-- A strict comparison that decides an order, on the values that it is for. -/
structure Decides (f : α → α → Bool) (p : α → Prop) (le : α → α → Prop) : Prop where
  less : ∀ a b, p a → p b → f a b = true → le a b
  notLess : ∀ a b, p a → p b → f a b = false → le b a
  trans : ∀ a b c, p a → p b → p c → le a b → le b c → le a c

theorem merge_sorted (h : Decides f p le) {left right : List α} (hleft : ∀ a ∈ left, p a)
    (hright : ∀ b ∈ right, p b) (hl : left.Pairwise le) (hr : right.Pairwise le) :
    (left.merge right f).Pairwise le := by
  induction left generalizing right with
  | nil => rwa [List.nil_merge]
  | cons a left ih =>
    induction right with
    | nil => rwa [List.merge_right]
    | cons b right ihr =>
      rw [List.pairwise_cons] at hl hr
      have hpa := hleft a List.mem_cons_self
      have hpb := hright b List.mem_cons_self
      have hpl : ∀ a' ∈ left, p a' := fun a' ha' => hleft a' (List.mem_cons_of_mem _ ha')
      have hpr : ∀ b' ∈ right, p b' := fun b' hb' => hright b' (List.mem_cons_of_mem _ hb')
      rw [List.cons_merge_cons]
      split_ifs with hf
      · have hab := h.less a b hpa hpb hf
        refine List.pairwise_cons.mpr ⟨fun x hx => ?_, ih hpl hright hl.2 (List.pairwise_cons.mpr hr)⟩
        rcases List.mem_append.mp ((List.merge_perm_append f).mem_iff.mp hx) with hx | hx
        · exact hl.1 x hx
        · rcases List.mem_cons.mp hx with rfl | hx
          · exact hab
          · exact h.trans a b x hpa hpb (hpr x hx) hab (hr.1 x hx)
      · have hba := h.notLess a b hpa hpb (by simpa using hf)
        refine List.pairwise_cons.mpr ⟨fun x hx => ?_, ihr hpr hr.2⟩
        rcases List.mem_append.mp ((List.merge_perm_append f).mem_iff.mp hx) with hx | hx
        · rcases List.mem_cons.mp hx with rfl | hx
          · exact hba
          · exact h.trans b a x hpb hpa (hpl x hx) hba (hl.1 x hx)
        · exact hr.1 x hx

theorem sortBy_sorted (h : Decides f p le) (fuel : Nat) {arr : List α}
    (hfuel : arr.length ≤ fuel) (hp : ∀ a ∈ arr, p a) : (sortBy f fuel arr).Pairwise le := by
  induction fuel generalizing arr with
  | zero =>
    rw [List.length_eq_zero_iff.mp (by omega : arr.length = 0)]
    exact .nil
  | succ fuel ih =>
    rw [sortBy]
    by_cases hshort : arr.length ≤ 1
    · rw [if_pos hshort]
      match arr, hshort with
      | [], _ => exact .nil
      | [a], _ => exact List.pairwise_singleton _ a
    rw [if_neg hshort]
    have hpl : ∀ a ∈ arr.take (arr.length / 2), p a := fun a ha => hp a (List.mem_of_mem_take ha)
    have hpr : ∀ a ∈ arr.drop (arr.length / 2), p a := fun a ha => hp a (List.mem_of_mem_drop ha)
    exact merge_sorted h (fun a ha => hpl a ((sortBy_perm f fuel _).mem_iff.mp ha))
      (fun a ha => hpr a ((sortBy_perm f fuel _).mem_iff.mp ha))
      (ih (by rw [List.length_take]; omega) hpl) (ih (by rw [List.length_drop]; omega) hpr)

/-- The least that a comparison puts first: a value other than the given one, if there is
one. -/
theorem head_sortBy_ne {u : α} (hf : ∀ a b, f a b = true ↔ a ≠ u) (fuel : Nat) {arr : List α}
    (hfuel : arr.length ≤ fuel) (hne : ∃ a ∈ arr, a ≠ u) :
    ∃ a rest, sortBy f fuel arr = a :: rest ∧ a ≠ u := by
  induction fuel generalizing arr with
  | zero =>
    obtain ⟨a, ha, -⟩ := hne
    rw [List.length_eq_zero_iff.mp (by omega : arr.length = 0)] at ha
    cases ha
  | succ fuel ih =>
    rw [sortBy]
    by_cases hshort : arr.length ≤ 1
    · rw [if_pos hshort]
      obtain ⟨a, ha, hau⟩ := hne
      match arr, hshort with
      | [b], _ =>
        obtain rfl := List.mem_singleton.mp ha
        exact ⟨a, [], rfl, hau⟩
    rw [if_neg hshort]
    have hleft := ih (show (arr.take (arr.length / 2)).length ≤ fuel by
      rw [List.length_take]
      omega)
    have hright := ih (show (arr.drop (arr.length / 2)).length ≤ fuel by
      rw [List.length_drop]
      omega)
    have hlenLeft := length_sortBy f fuel (arr.take (arr.length / 2))
    have hlenRight := length_sortBy f fuel (arr.drop (arr.length / 2))
    rw [List.length_take] at hlenLeft
    rw [List.length_drop] at hlenRight
    cases hl : sortBy f fuel (arr.take (arr.length / 2)) with
    | nil =>
      rw [hl, List.length_nil] at hlenLeft
      omega
    | cons a left =>
      cases hr : sortBy f fuel (arr.drop (arr.length / 2)) with
      | nil =>
        rw [hr, List.length_nil] at hlenRight
        omega
      | cons b right =>
        rw [List.cons_merge_cons]
        by_cases hau : a = u
        · rw [if_neg fun hlt => (hf a b).mp hlt hau]
          refine ⟨b, _, rfl, ?_⟩
          obtain ⟨x, hx, hxu⟩ := hne
          rw [← List.take_append_drop (arr.length / 2) arr] at hx
          rcases List.mem_append.mp hx with hx | hx
          · obtain ⟨a', rest, heq, ha'⟩ := hleft ⟨x, hx, hxu⟩
            rw [hl] at heq
            cases heq
            exact absurd hau ha'
          · obtain ⟨b', rest, heq, hb'⟩ := hright ⟨x, hx, hxu⟩
            rw [hr] at heq
            cases heq
            exact hb'
        · rw [if_pos ((hf a b).mpr hau)]
          exact ⟨a, _, rfl, hau⟩

end Sorted

end Proveno
