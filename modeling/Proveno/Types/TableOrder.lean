import Proveno.Types.TableRebuild

/-! The order in which a table lists its keys, and the walk through it from one key to the
next. Both are right exactly where the integer keys of the hash part do not get in the way. -/

namespace Proveno

open SortedAssoc

namespace LuaKey

theorem lt_iff_rank {a b : LuaKey} : a < b ↔ a.rank < b.rank := Iff.rfl

theorem integer_lt_integer {a b : Int64} : integer a < integer b ↔ a.toInt < b.toInt := by
  simp [lt_iff_rank, rank, Prod.Lex.toLex_lt_toLex]

theorem integer_lt_string (n : Int64) (s : Bytes) : integer n < string s := by
  simp [lt_iff_rank, rank, Prod.Lex.toLex_lt_toLex]

theorem integer_lt_boolean (n : Int64) (b : Bool) : integer n < boolean b := by
  simp [lt_iff_rank, rank, Prod.Lex.toLex_lt_toLex]

/-- An integer comes before every key that comes after an integer at least as large. -/
theorem integer_lt {n : Int64} {key : LuaKey} (h : ∀ i, key = integer i → n.toInt < i.toInt) :
    integer n < key := by
  cases key with
  | integer i => exact integer_lt_integer.mpr (h i rfl)
  | string s => exact integer_lt_string n s
  | boolean b => exact integer_lt_boolean n b

end LuaKey

namespace LuaTable

variable {V : Type}

/-- The entry after a key; a key that is not one of the array part stands for a place in the
hash part, whose first entry comes after every integer. -/
def nextSorted (t : LuaTable V) (after : Option LuaKey) : Option (LuaKey × V) :=
  let arrayStart : Int :=
    match after with
    | none => 1
    | some (.integer i) =>
      if 1 ≤ i.toInt ∧ i.toInt ≤ t.array.length then i.toInt + 1 else t.array.length + 1
    | some _ => t.array.length + 1
  if arrayStart ≤ t.array.length then
    (t.array[(arrayStart - 1).toNat]?).map fun v => (.integer (Int64.ofInt arrayStart), v)
  else
    match after with
    | none | some (.integer _) => t.hash.head?
    | some key => ((t.hash.filter fun e => key ≤ e.1).drop 1).head?

/-- The walk from a key on ends, after these entries. -/
inductive Walks (t : LuaTable V) : Option LuaKey → List (LuaKey × V) → Prop
  | done {after : Option LuaKey} (h : t.nextSorted after = none) : Walks t after []
  | next {after : Option LuaKey} {e : LuaKey × V} {es : List (LuaKey × V)}
      (h : t.nextSorted after = some e) (hrest : Walks t (some e.1) es) : Walks t after (e :: es)

/-- The walk ends after as many steps as the table has entries, and visits them in the order
of its keys. -/
def Enumerates (t : LuaTable V) : Prop :=
  ∃ es, t.Walks none es ∧ es.length = t.entryCount ∧ es.map Prod.fst = t.sortedKeys ∧
    ∀ e ∈ es, t.get e.1 = some e.2

/-- The keys ascend, and they are those of the table. -/
structure ListsKeys (t : LuaTable V) (keys : List LuaKey) : Prop where
  ascending : keys.Pairwise (· < ·)
  complete : ∀ key, key ∈ keys ↔ (t.get key).isSome

section Order

variable [HasNil V] {t : LuaTable V}

theorem mem_sortedKeys (h : t.Wf) {key : LuaKey} :
    key ∈ t.sortedKeys ↔ (t.get key).isSome := by
  rw [← entries_keys, List.mem_map, Option.isSome_iff_exists]
  constructor
  · rintro ⟨e, he, rfl⟩
    exact ⟨e.2, get_of_mem_entries h he⟩
  · rintro ⟨v, hv⟩
    exact ⟨(key, v), mem_entries_of_get h hv, rfl⟩

theorem toInt_ofNat_of_lt_length (h : t.Wf) {i : Nat} (hi : i < t.array.length) :
    (Int64.ofNat (i + 1)).toInt = (i + 1 : Nat) :=
  toInt_arrayKey (by have := h.bound; omega)

theorem arrayKeys_ascending (h : t.Wf) :
    ((List.range t.array.length).map fun i => arrayKey (i + 1)).Pairwise (· < ·) := by
  rw [List.pairwise_map]
  refine (List.pairwise_lt_range).imp_of_mem fun {i j} hi hj hlt => ?_
  have hi' := toInt_ofNat_of_lt_length h (List.mem_range.mp hi)
  have hj' := toInt_ofNat_of_lt_length h (List.mem_range.mp hj)
  rw [arrayKey, arrayKey, LuaKey.integer_lt_integer, hi', hj']
  omega

theorem hashKeys_ascending (h : t.Wf) : (t.hash.map Prod.fst).Pairwise (· < ·) := by
  rw [List.pairwise_map]
  exact h.sorted

/-- An integer key of the hash part is not one of the array part. -/
theorem not_mem_array_of_hash (h : t.Wf) {i : Int64} {v : V} (he : (LuaKey.integer i, v) ∈ t.hash) :
    ¬(1 ≤ i.toInt ∧ i.toInt ≤ t.array.length) := by
  rintro ⟨h1, hn⟩
  have hfind := find_of_mem h.sorted he
  rw [h.disjoint i h1 hn] at hfind
  cases hfind

theorem get_hash (h : t.Wf) {e : LuaKey × V} (he : e ∈ t.hash) : t.get e.1 = some e.2 :=
  get_of_mem_entries h (List.mem_append_right _ he)

/-- An element comes before an integer key below 1. -/
theorem not_listsKeys (h : t.Wf) {i : Int64} (hlength : t.length ≠ 0)
    (hsome : (t.get (.integer i)).isSome) (hi : i.toInt < 1) : ¬t.ListsKeys t.sortedKeys := by
  intro hlists
  have hbound := h.bound
  obtain ⟨v, hv⟩ := Option.isSome_iff_exists.mp hsome
  have hfirst : arrayKey 1 ∈ (List.range t.array.length).map fun i => arrayKey (i + 1) :=
    List.mem_map.mpr ⟨0, List.mem_range.mpr (Nat.pos_of_ne_zero hlength), rfl⟩
  have hkey : LuaKey.integer i ∈ t.hash.map Prod.fst := by
    rw [get_integer_of_not_mem (by omega)] at hv
    exact List.mem_map.mpr ⟨_, mem_of_find hv, rfl⟩
  have hlt := (List.pairwise_append.mp hlists.ascending).2.2 _ hfirst _ hkey
  rw [arrayKey, LuaKey.integer_lt_integer, toInt_arrayKey (by omega)] at hlt
  omega

theorem listsKeys (h : t.Wf)
    (hcond : t.length = 0 ∨ ∀ i, (t.get (.integer i)).isSome → 1 ≤ i.toInt) :
    t.ListsKeys t.sortedKeys := by
  refine ⟨List.pairwise_append.mpr ⟨arrayKeys_ascending h, hashKeys_ascending h, ?_⟩,
    fun key => mem_sortedKeys h⟩
  intro a ha b hb
  obtain ⟨i, hi, rfl⟩ := List.mem_map.mp ha
  obtain ⟨⟨b, v⟩, he, rfl⟩ := List.mem_map.mp hb
  have hi' := List.mem_range.mp hi
  refine LuaKey.integer_lt fun j hj => ?_
  subst hj
  have hout := not_mem_array_of_hash h he
  have hlow : 1 ≤ j.toInt := by
    rcases hcond with hzero | hlow
    · change t.array.length = 0 at hzero
      omega
    · exact hlow j (by rw [get_hash h he]; rfl)
  rw [toInt_ofNat_of_lt_length h hi']
  omega

end Order

section Walk

variable {t : LuaTable V}

theorem nextSorted_none : t.nextSorted none = if 0 < t.array.length then
    (t.array[0]?).map fun v => (arrayKey 1, v) else t.hash.head? := by
  unfold nextSorted
  dsimp only
  by_cases hpos : 0 < t.array.length
  · rw [if_pos (by omega), if_pos hpos]
    rfl
  · rw [if_neg (by omega), if_neg hpos]

/-- A walk visits every key that it has come to from that key on. -/
theorem Walks.from_mem {after : Option LuaKey} {es : List (LuaKey × V)} (h : t.Walks after es)
    {e : LuaKey × V} (he : e ∈ es) : ∃ rest, t.Walks (some e.1) rest := by
  induction h with
  | done => cases he
  | next _ hrest ih =>
    rcases List.mem_cons.mp he with rfl | he
    · exact ⟨_, hrest⟩
    · exact ih he

/-- A key that comes after itself is never left. -/
theorem Walks.not_loops {after : Option LuaKey} {es : List (LuaKey × V)} (h : t.Walks after es)
    {e : LuaKey × V} (hafter : after = some e.1) : t.nextSorted (some e.1) ≠ some e := by
  induction h with
  | done hnone =>
    subst hafter
    rw [hnone]
    nofun
  | next hnext _ ih =>
    subst hafter
    intro hloop
    rw [hloop] at hnext
    cases hnext
    exact ih rfl hloop

variable [HasNil V]

theorem nextSorted_arrayKey (h : t.Wf) {n : Nat} (h1 : 1 ≤ n) (hn : n ≤ t.array.length) :
    t.nextSorted (some (arrayKey n)) = if n < t.array.length then
      (t.array[n]?).map fun v => (arrayKey (n + 1), v) else t.hash.head? := by
  have hbound := h.bound
  have hint : (Int64.ofNat n).toInt = n := toInt_arrayKey (by omega)
  unfold nextSorted arrayKey
  dsimp only
  rw [hint, if_pos (show 1 ≤ (n : Int) ∧ (n : Int) ≤ t.array.length from ⟨by omega, by omega⟩)]
  by_cases hlt : n < t.array.length
  · rw [if_pos (show (n : Int) + 1 ≤ t.array.length by omega), if_pos hlt]
    congr 2
    omega
  · rw [if_neg (show ¬(n : Int) + 1 ≤ t.array.length by omega), if_neg hlt]

/-- The walk goes through the rest of the array part and then through the hash part. -/
theorem walks_array (h : t.Wf) {es : List (LuaKey × V)}
    (hempty : t.array.length = 0 → t.Walks none es)
    (hlast : 0 < t.array.length → t.Walks (some (arrayKey t.array.length)) es) :
    t.Walks none (arrayEntries 0 t.array ++ es) := by
  have hfrom (k : Nat) : ∀ n, n + k = t.array.length → 1 ≤ n →
      t.Walks (some (arrayKey n)) (arrayEntries n (t.array.drop n) ++ es) := by
    induction k with
    | zero =>
      intro n hn h1
      obtain rfl : n = t.array.length := hn
      rw [List.drop_length]
      exact hlast h1
    | succ k ih =>
      intro n hn h1
      have hlt : n < t.array.length := by omega
      rw [List.drop_eq_getElem_cons hlt]
      refine .next ?_ (ih (n + 1) (by omega) (by omega))
      rw [nextSorted_arrayKey h h1 hlt.le, if_pos hlt, List.getElem?_eq_getElem hlt]
      rfl
  by_cases hpos : 0 < t.array.length
  · have hdrop : t.array = t.array[0] :: t.array.drop 1 := by
      simpa using List.drop_eq_getElem_cons hpos
    rw [hdrop]
    refine .next ?_ (hfrom (t.array.length - 1) 1 (by omega) le_rfl)
    rw [nextSorted_none, if_pos hpos, List.getElem?_eq_getElem hpos]
    rfl
  · have hnil : t.array = [] := List.length_eq_zero_iff.mp (by omega)
    rw [hnil]
    exact hempty (by omega)

theorem nextSorted_hash (h : t.Wf) {before rest : List (LuaKey × V)} {e : LuaKey × V}
    (hsplit : t.hash = before ++ e :: rest) (hkey : ∀ i, e.1 ≠ .integer i) :
    t.nextSorted (some e.1) = rest.head? := by
  have hsorted := h.sorted
  rw [hsplit, Sorted, List.pairwise_append, List.pairwise_cons] at hsorted
  obtain ⟨-, ⟨hrest, -⟩, hbefore⟩ := hsorted
  have hfilter : (t.hash.filter fun e' => e.1 ≤ e'.1) = e :: rest := by
    rw [hsplit, List.filter_append, List.filter_cons_of_pos (by simp)]
    have hnone : (before.filter fun e' => e.1 ≤ e'.1) = [] :=
      List.filter_eq_nil_iff.mpr fun e' he' => by
        simpa using hbefore e' he' e List.mem_cons_self
    have hall : (rest.filter fun e' => e.1 ≤ e'.1) = rest :=
      List.filter_eq_self.mpr fun e' he' => by simpa using (hrest e' he').le
    rw [hnone, hall, List.nil_append]
  unfold nextSorted
  cases hcase : e.1 with
  | integer i => exact absurd hcase (hkey i)
  | string s =>
    rw [hcase] at hfilter
    dsimp only
    rw [if_neg (by omega), hfilter]
    rfl
  | boolean b =>
    rw [hcase] at hfilter
    dsimp only
    rw [if_neg (by omega), hfilter]
    rfl

theorem walks_hash (h : t.Wf) (hkeys : ∀ e ∈ t.hash, ∀ i, e.1 ≠ .integer i)
    {after : Option LuaKey} (before : List (LuaKey × V)) {rest : List (LuaKey × V)}
    (hsplit : t.hash = before ++ rest) (hafter : t.nextSorted after = rest.head?) :
    t.Walks after rest := by
  induction rest generalizing after before with
  | nil => exact .done hafter
  | cons e rest ih =>
    have he : e ∈ t.hash := hsplit ▸ List.mem_append_right _ List.mem_cons_self
    refine .next hafter (ih (before ++ [e]) ?_ ?_)
    · rw [hsplit, List.append_assoc, List.singleton_append]
    · exact nextSorted_hash h hsplit (hkeys e he)

/-- The first key of a hash part with an integer key is an integer key. -/
theorem head_integer (h : t.Wf) {i : Int64} {v : V} (he : (LuaKey.integer i, v) ∈ t.hash) :
    ∃ j w rest, t.hash = (LuaKey.integer j, w) :: rest := by
  have hsorted := h.sorted
  cases hhash : t.hash with
  | nil =>
    rw [hhash] at he
    cases he
  | cons e rest =>
    rw [hhash] at he hsorted
    obtain ⟨key, w⟩ := e
    rcases List.mem_cons.mp he with heq | he
    · cases heq
      exact ⟨i, v, rest, rfl⟩
    · have hlt : key < .integer i := hsorted.head_lt _ he
      cases key with
      | integer j => exact ⟨j, w, rest, rfl⟩
      | string s => exact absurd hlt (LuaKey.integer_lt_string i s).not_gt
      | boolean b => exact absurd hlt (LuaKey.integer_lt_boolean i b).not_gt

/-- From a key of the hash part that is an integer the walk never gets away. -/
theorem not_enumerates (h : t.Wf) {i : Int64} (hsome : (t.get (.integer i)).isSome)
    (hout : ¬(1 ≤ i.toInt ∧ i.toInt ≤ t.length)) : ¬t.Enumerates := by
  rintro ⟨es, hwalks, -, hkeys, -⟩
  obtain ⟨v, hv⟩ := Option.isSome_iff_exists.mp hsome
  rw [get_integer_of_not_mem hout] at hv
  obtain ⟨j, w, rest, hhash⟩ := head_integer h (mem_of_find hv)
  have hmem : LuaKey.integer j ∈ es.map Prod.fst := by
    rw [hkeys, sortedKeys, hhash]
    exact List.mem_append_right _ List.mem_cons_self
  obtain ⟨⟨key, w'⟩, he, rfl⟩ := List.mem_map.mp hmem
  obtain ⟨rest', hwalks'⟩ := hwalks.from_mem he
  have hout' := not_mem_array_of_hash h (hhash ▸ List.mem_cons_self)
  refine hwalks'.not_loops (e := (.integer j, w)) rfl ?_
  unfold nextSorted
  dsimp only
  rw [if_neg hout', if_neg (by omega), hhash]
  rfl

theorem enumerates (h : t.Wf) (hkeys : ∀ e ∈ t.hash, ∀ i, e.1 ≠ .integer i) : t.Enumerates := by
  refine ⟨t.entries, ?_, ?_, entries_keys t, fun e he => get_of_mem_entries h he⟩
  · refine walks_array h (fun hzero => ?_) fun hpos => ?_
    · refine walks_hash h hkeys [] rfl ?_
      rw [nextSorted_none, if_neg (by omega)]
    · refine walks_hash h hkeys [] rfl ?_
      rw [nextSorted_arrayKey h hpos le_rfl, if_neg (lt_irrefl _)]
  · rw [h.count, entries, List.length_append, ← List.length_map (f := Prod.snd),
      arrayEntries_values]

/-- The walk enumerates a table exactly where every integer key is one of the array part. -/
theorem enumerates_iff (h : t.Reachable) :
    t.Enumerates ↔ ∀ i, (t.get (.integer i)).isSome → 1 ≤ i.toInt ∧ i.toInt ≤ t.length := by
  constructor
  · intro henum i hsome
    by_contra hout
    exact not_enumerates h.wf hsome hout henum
  · intro hcond
    refine enumerates h.wf ?_
    rintro ⟨key, v⟩ he i rfl
    exact not_mem_array_of_hash h.wf he (hcond i (by rw [get_hash h.wf he]; rfl))

/-- One element and one string key. -/
def elementAndName : LuaTable LuaValue :=
  ((new.rawsetTracked (arrayKey 1) (.integer 10)).2.rawsetTracked
    (.string (ascii "n")) (.integer 1)).2

theorem elementAndName_reachable : elementAndName.Reachable :=
  .rawset _ _ (.rawset _ _ .new)

theorem enumerates_iff_elementAndName : elementAndName.Enumerates ↔
    ∀ i, (elementAndName.get (.integer i)).isSome →
      1 ≤ i.toInt ∧ i.toInt ≤ elementAndName.length :=
  enumerates_iff elementAndName_reachable

/-- A table with 5 as its only key. -/
def fiveOnly : LuaTable LuaValue := (new.rawsetTracked (arrayKey 5) (.boolean true)).2

theorem fiveOnly_not_enumerates : ¬∀ t : LuaTable LuaValue, t.Reachable → t.Enumerates := by
  intro hall
  have hreach : fiveOnly.Reachable := .rawset _ _ .new
  exact not_enumerates hreach.wf (i := 5) (by decide) (by decide) (hall _ hreach)

end Walk

end LuaTable

end Proveno
