import Mathlib.Tactic
import Mathlib.Order.Defs.LinearOrder

/-! Ordered maps as association lists with strictly ascending keys.
The list of a sorted map is determined by its lookups, so two maps that agree
on every key are equal, whatever insertions and removals built them. -/

namespace SortedAssoc

variable {κ : Type} {ν : Type} [LinearOrder κ]

def find (key : κ) : List (κ × ν) → Option ν
  | [] => none
  | (k, v) :: rest => if key = k then some v else find key rest

/-- Insertion in order; an entry already under the key is replaced. -/
def insert (key : κ) (value : ν) : List (κ × ν) → List (κ × ν)
  | [] => [(key, value)]
  | (k, v) :: rest =>
    if key < k then (key, value) :: (k, v) :: rest
    else if key = k then (key, value) :: rest
    else (k, v) :: insert key value rest

def erase (key : κ) : List (κ × ν) → List (κ × ν)
  | [] => []
  | (k, v) :: rest => if key = k then rest else (k, v) :: erase key rest

def Sorted (m : List (κ × ν)) : Prop := m.Pairwise fun a b => a.1 < b.1

@[simp] theorem find_nil (key : κ) : find key ([] : List (κ × ν)) = none := rfl

@[simp] theorem insert_nil (key : κ) (value : ν) : insert key value [] = [(key, value)] := rfl

@[simp] theorem erase_nil (key : κ) : erase key ([] : List (κ × ν)) = [] := rfl

theorem find_cons (key k : κ) (v : ν) (rest : List (κ × ν)) :
    find key ((k, v) :: rest) = if key = k then some v else find key rest := rfl

theorem insert_cons (key k : κ) (value v : ν) (rest : List (κ × ν)) :
    insert key value ((k, v) :: rest) =
      if key < k then (key, value) :: (k, v) :: rest
      else if key = k then (key, value) :: rest
      else (k, v) :: insert key value rest := rfl

theorem erase_cons (key k : κ) (v : ν) (rest : List (κ × ν)) :
    erase key ((k, v) :: rest) = if key = k then rest else (k, v) :: erase key rest := rfl

@[simp] theorem sorted_nil : Sorted ([] : List (κ × ν)) := List.Pairwise.nil

theorem Sorted.tail {e : κ × ν} {m : List (κ × ν)} (h : Sorted (e :: m)) : Sorted m :=
  (List.pairwise_cons.mp h).2

theorem Sorted.head_lt {e : κ × ν} {m : List (κ × ν)} (h : Sorted (e :: m)) :
    ∀ e' ∈ m, e.1 < e'.1 :=
  (List.pairwise_cons.mp h).1

theorem find_eq_none_of_lt {key : κ} {m : List (κ × ν)} (h : ∀ e ∈ m, key < e.1) :
    find key m = none := by
  induction m with
  | nil => rfl
  | cons e m ih =>
    have hlt := h e (by simp)
    rw [find_cons, if_neg hlt.ne]
    exact ih fun e' he' => h e' (by simp [he'])

theorem find_eq_none_of_gt {key : κ} {m : List (κ × ν)} (h : ∀ e ∈ m, e.1 < key) :
    find key m = none := by
  induction m with
  | nil => rfl
  | cons e m ih =>
    have hlt := h e (by simp)
    rw [find_cons, if_neg hlt.ne']
    exact ih fun e' he' => h e' (by simp [he'])

theorem insert_eq_append {key : κ} {m : List (κ × ν)} (value : ν) (h : ∀ e ∈ m, e.1 < key) :
    insert key value m = m ++ [(key, value)] := by
  induction m with
  | nil => rfl
  | cons e m ih =>
    have hlt := h e (by simp)
    rw [insert_cons, if_neg hlt.not_gt, if_neg hlt.ne', ih fun e' he' => h e' (by simp [he'])]
    rfl

theorem find_map {ν' : Type} (f : ν → ν') (key : κ) (m : List (κ × ν)) :
    find key (m.map fun e => (e.1, f e.2)) = (find key m).map f := by
  induction m with
  | nil => rfl
  | cons e m ih =>
    obtain ⟨k, v⟩ := e
    by_cases heq : key = k
    · simp [find_cons, heq]
    · simp [find_cons, heq, ih]

theorem find_insert (key key' : κ) (value : ν) (m : List (κ × ν)) :
    find key' (insert key value m) = if key' = key then some value else find key' m := by
  induction m with
  | nil => simp [find_cons]
  | cons e m ih =>
    obtain ⟨k, v⟩ := e
    by_cases hlt : key < k
    · simp [insert_cons, hlt, find_cons]
    · by_cases heq : key = k
      · subst heq
        by_cases hk : key' = key <;> simp [insert_cons, find_cons, hk]
      · by_cases hk : key' = k
        · subst hk
          simp [insert_cons, hlt, heq, find_cons, Ne.symm heq]
        · simp [insert_cons, hlt, heq, find_cons, hk, ih]

@[simp] theorem find_insert_self (key : κ) (value : ν) (m : List (κ × ν)) :
    find key (insert key value m) = some value := by
  simp [find_insert]

theorem find_erase {m : List (κ × ν)} (h : Sorted m) (key key' : κ) :
    find key' (erase key m) = if key' = key then none else find key' m := by
  induction m with
  | nil => simp
  | cons e m ih =>
    obtain ⟨k, v⟩ := e
    by_cases heq : key = k
    · subst heq
      by_cases hk : key' = key
      · subst hk
        simpa [erase_cons] using find_eq_none_of_lt h.head_lt
      · simp [erase_cons, find_cons, hk]
    · by_cases hk : key' = k
      · subst hk
        simp [erase_cons, heq, find_cons, Ne.symm heq]
      · simp [erase_cons, heq, find_cons, hk, ih h.tail]

theorem mem_of_find {key : κ} {value : ν} {m : List (κ × ν)} (h : find key m = some value) :
    (key, value) ∈ m := by
  induction m with
  | nil => simp at h
  | cons e m ih =>
    obtain ⟨k, v⟩ := e
    by_cases heq : key = k
    · simp only [find_cons, if_pos heq, Option.some.injEq] at h
      simp [heq, h]
    · rw [find_cons, if_neg heq] at h
      exact List.mem_cons_of_mem _ (ih h)

theorem find_of_mem {key : κ} {value : ν} {m : List (κ × ν)} (hs : Sorted m)
    (h : (key, value) ∈ m) : find key m = some value := by
  induction m with
  | nil => simp at h
  | cons e m ih =>
    rcases List.mem_cons.mp h with rfl | h
    · simp [find_cons]
    · have hlt := hs.head_lt _ h
      rw [find_cons, if_neg hlt.ne']
      exact ih hs.tail h

theorem find_isSome_iff {key : κ} {m : List (κ × ν)} (hs : Sorted m) :
    (find key m).isSome ↔ key ∈ m.map Prod.fst := by
  constructor
  · intro h
    obtain ⟨v, hv⟩ := Option.isSome_iff_exists.mp h
    exact List.mem_map.mpr ⟨(key, v), mem_of_find hv, rfl⟩
  · intro h
    obtain ⟨⟨k, v⟩, hmem, rfl⟩ := List.mem_map.mp h
    simp [find_of_mem hs hmem]

theorem mem_insert {key : κ} {value : ν} {m : List (κ × ν)} {e : κ × ν}
    (h : e ∈ insert key value m) : e = (key, value) ∨ e ∈ m := by
  induction m with
  | nil => simpa [insert_cons] using h
  | cons e' m ih =>
    obtain ⟨k, v⟩ := e'
    simp only [insert_cons] at h
    split_ifs at h with hlt heq
    · simpa using h
    · rcases List.mem_cons.mp h with rfl | h
      · exact Or.inl rfl
      · exact Or.inr (List.mem_cons_of_mem _ h)
    · rcases List.mem_cons.mp h with rfl | h
      · exact Or.inr (by simp)
      · exact (ih h).imp_right (List.mem_cons_of_mem _)

theorem mem_of_mem_erase {key : κ} {m : List (κ × ν)} {e : κ × ν} (h : e ∈ erase key m) :
    e ∈ m := by
  induction m with
  | nil => simp at h
  | cons e' m ih =>
    obtain ⟨k, v⟩ := e'
    simp only [erase_cons] at h
    split_ifs at h with heq
    · exact List.mem_cons_of_mem _ h
    · rcases List.mem_cons.mp h with rfl | h
      · simp
      · exact List.mem_cons_of_mem _ (ih h)

theorem Sorted.insert {m : List (κ × ν)} (h : Sorted m) (key : κ) (value : ν) :
    Sorted (insert key value m) := by
  induction m with
  | nil => simp [Sorted]
  | cons e m ih =>
    obtain ⟨k, v⟩ := e
    simp only [insert_cons]
    split_ifs with hlt heq
    · refine List.pairwise_cons.mpr ⟨fun e' he' => ?_, h⟩
      rcases List.mem_cons.mp he' with rfl | he'
      · exact hlt
      · exact hlt.trans (h.head_lt _ he')
    · subst heq
      exact List.pairwise_cons.mpr ⟨h.head_lt, h.tail⟩
    · refine List.pairwise_cons.mpr ⟨fun e' he' => ?_, ih h.tail⟩
      rcases mem_insert he' with rfl | he'
      · exact lt_of_le_of_ne (not_lt.mp hlt) (Ne.symm heq)
      · exact h.head_lt _ he'

theorem Sorted.erase {m : List (κ × ν)} (h : Sorted m) (key : κ) : Sorted (erase key m) := by
  induction m with
  | nil => exact sorted_nil
  | cons e m ih =>
    obtain ⟨k, v⟩ := e
    simp only [erase_cons]
    split_ifs with heq
    · exact h.tail
    · exact List.pairwise_cons.mpr
        ⟨fun e' he' => h.head_lt _ (mem_of_mem_erase he'), ih h.tail⟩

theorem length_insert {m : List (κ × ν)} (h : Sorted m) (key : κ) (value : ν) :
    (insert key value m).length =
      if (find key m).isSome then m.length else m.length + 1 := by
  induction m with
  | nil => simp
  | cons e m ih =>
    obtain ⟨k, v⟩ := e
    by_cases hlt : key < k
    · have habsent : find key ((k, v) :: m) = none := by
        refine find_eq_none_of_lt fun e' he' => ?_
        rcases List.mem_cons.mp he' with rfl | he'
        · exact hlt
        · exact hlt.trans (h.head_lt _ he')
      simp [insert_cons, hlt, habsent]
    · by_cases heq : key = k
      · simp [insert_cons, heq, find_cons]
      · simp only [insert_cons, hlt, heq, if_false, List.length_cons, ih h.tail, find_cons]
        split <;> rfl

theorem length_erase (m : List (κ × ν)) (key : κ) :
    (erase key m).length = if (find key m).isSome then m.length - 1 else m.length := by
  induction m with
  | nil => simp
  | cons e m ih =>
    obtain ⟨k, v⟩ := e
    by_cases heq : key = k
    · simp [erase_cons, find_cons, heq]
    · simp only [erase_cons, find_cons, heq, if_false, List.length_cons, ih]
      split
      · rename_i hsome
        have hpos : 0 < m.length := by
          obtain ⟨v', hv'⟩ := Option.isSome_iff_exists.mp hsome
          exact List.length_pos_of_mem (mem_of_find hv')
        omega
      · rfl

theorem insert_eq_self {key : κ} {value : ν} {m : List (κ × ν)} (hs : Sorted m)
    (h : find key m = some value) : insert key value m = m := by
  induction m with
  | nil => simp at h
  | cons e m ih =>
    obtain ⟨k, v⟩ := e
    by_cases heq : key = k
    · subst heq
      have hv : v = value := by simpa [find_cons] using h
      simp [insert_cons, hv]
    · rw [find_cons, if_neg heq] at h
      have hlt := hs.head_lt _ (mem_of_find h)
      rw [insert_cons, if_neg hlt.not_gt, if_neg heq, ih hs.tail h]

theorem erase_eq_self {m : List (κ × ν)} {key : κ} (h : find key m = none) : erase key m = m := by
  induction m with
  | nil => rfl
  | cons e m ih =>
    obtain ⟨k, v⟩ := e
    by_cases heq : key = k
    · simp [find_cons, heq] at h
    · rw [find_cons, if_neg heq] at h
      rw [erase_cons, if_neg heq, ih h]

/-- The entry list of a sorted map is a function of its lookups. -/
theorem ext_of_find {m m' : List (κ × ν)} (h : Sorted m) (h' : Sorted m')
    (hfind : ∀ key, find key m = find key m') : m = m' := by
  induction m generalizing m' with
  | nil =>
    cases m' with
    | nil => rfl
    | cons e' m' =>
      obtain ⟨k', v'⟩ := e'
      have hhead := hfind k'
      simp [find_cons] at hhead
  | cons e m ih =>
    obtain ⟨k, v⟩ := e
    cases m' with
    | nil => simpa [find_cons] using hfind k
    | cons e' m' =>
      obtain ⟨k', v'⟩ := e'
      have hkey : k = k' := by
        -- the smaller of two distinct heads would be missing from the other map
        rcases lt_trichotomy k k' with hlt | heq | hgt
        · have hmiss : find k ((k', v') :: m') = none := by
            refine find_eq_none_of_lt fun e' he' => ?_
            rcases List.mem_cons.mp he' with rfl | he'
            · exact hlt
            · exact hlt.trans (h'.head_lt _ he')
          have hk := hfind k
          rw [hmiss] at hk
          simp [find_cons] at hk
        · exact heq
        · have hmiss : find k' ((k, v) :: m) = none := by
            refine find_eq_none_of_lt fun e' he' => ?_
            rcases List.mem_cons.mp he' with rfl | he'
            · exact hgt
            · exact hgt.trans (h.head_lt _ he')
          have hk := hfind k'
          rw [hmiss] at hk
          simp [find_cons] at hk
      subst hkey
      have hval : v = v' := by simpa [find_cons] using hfind k
      subst hval
      have htail : ∀ key, find key m = find key m' := by
        intro key
        by_cases heq : key = k
        · subst heq
          rw [find_eq_none_of_lt h.head_lt, find_eq_none_of_lt h'.head_lt]
        · simpa [find_cons, heq] using hfind key
      rw [ih h.tail h'.tail htail]

end SortedAssoc
