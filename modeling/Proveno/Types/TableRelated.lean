import Proveno.Types.TableRebuild

/-! The operations of a table look at its values only to see which are nil, so that they
keep any relation between two tables place by place. -/

namespace Proveno.LuaTable

open SortedAssoc

variable {V W : Type} {R : V → W → Prop} {t : LuaTable V} {t' : LuaTable W} {v : V} {w : W}

/-- Entries under the same key with related values. -/
abbrev RelEntries (R : V → W → Prop) : List (LuaKey × V) → List (LuaKey × W) → Prop :=
  List.Forall₂ fun e e' => e.1 = e'.1 ∧ R e.2 e'.2

theorem Rel.imp {S : V → W → Prop} (h : Rel R t t') (himp : ∀ v w, R v w → S v w) : Rel S t t' :=
  ⟨h.array.imp himp, h.hash.imp fun _ _ he => ⟨he.1, himp _ _ he.2⟩, h.count, h.capacity⟩

section Hash

variable {m : List (LuaKey × V)} {m' : List (LuaKey × W)}

theorem insert_rel (h : RelEntries R m m') (key : LuaKey) (hv : R v w) :
    RelEntries R (SortedAssoc.insert key v m) (SortedAssoc.insert key w m') := by
  induction h with
  | nil => exact .cons ⟨rfl, hv⟩ .nil
  | @cons e e' m m' hentry hrest ih =>
    obtain ⟨k, x⟩ := e
    obtain ⟨k', y⟩ := e'
    obtain ⟨rfl, hx⟩ : k = k' ∧ R x y := hentry
    rw [SortedAssoc.insert_cons, SortedAssoc.insert_cons]
    split_ifs
    · exact .cons ⟨rfl, hv⟩ (.cons ⟨rfl, hx⟩ hrest)
    · exact .cons ⟨rfl, hv⟩ hrest
    · exact .cons ⟨rfl, hx⟩ ih

theorem erase_rel (h : RelEntries R m m') (key : LuaKey) :
    RelEntries R (erase key m) (erase key m') := by
  induction h with
  | nil => exact .nil
  | @cons e e' m m' hentry hrest ih =>
    obtain ⟨k, x⟩ := e
    obtain ⟨k', y⟩ := e'
    obtain ⟨rfl, hx⟩ : k = k' ∧ R x y := hentry
    rw [erase_cons, erase_cons]
    split_ifs
    · exact hrest
    · exact .cons ⟨rfl, hx⟩ ih

theorem isSome_find_rel (h : RelEntries R m m') (key : LuaKey) :
    (find key m).isSome = (find key m').isSome := by
  have hfind := find_rel h key
  generalize find key m = x at hfind ⊢
  generalize find key m' = y at hfind ⊢
  cases hfind <;> rfl

end Hash

theorem set_rel {xs : List V} {ys : List W} (h : List.Forall₂ R xs ys) (n : Nat) (hv : R v w) :
    List.Forall₂ R (xs.set n v) (ys.set n w) := by
  induction h generalizing n with
  | nil => exact .nil
  | cons hx hrest ih =>
    cases n with
    | zero => exact .cons hv hrest
    | succ n => exact .cons hx (ih n)

theorem eraseIdx_rel {xs : List V} {ys : List W} (h : List.Forall₂ R xs ys) (n : Nat) :
    List.Forall₂ R (xs.eraseIdx n) (ys.eraseIdx n) := by
  induction h generalizing n with
  | nil => exact .nil
  | cons hx hrest ih =>
    cases n with
    | zero => exact hrest
    | succ n => exact .cons hx (ih n)

theorem Rel.consolidate (h : Rel R t t') (fuel : Nat) :
    Rel R (consolidate fuel t) (consolidate fuel t') := by
  induction fuel generalizing t t' with
  | zero => exact h
  | succ fuel ih =>
    have hfind := find_rel h.hash (arrayKey (t.array.length + 1))
    rw [LuaTable.consolidate, LuaTable.consolidate, ← h.array.length_eq]
    generalize find (arrayKey (t.array.length + 1)) t.hash = x at hfind ⊢
    generalize find (arrayKey (t.array.length + 1)) t'.hash = y at hfind ⊢
    cases hfind with
    | none => exact h
    | some hx => exact ih ⟨List.rel_append h.array (.cons hx .nil), erase_rel h.hash _, h.count,
        h.capacity⟩

theorem Rel.append (h : Rel R t t') (hv : R v w) : Rel R (t.append v) (t'.append w) := by
  have hpushed : Rel R (t.pushed v) (t'.pushed w) :=
    ⟨List.rel_append h.array (.cons hv .nil), h.hash, congrArg (· + 1) h.count, h.capacity⟩
  rw [append_eq, append_eq, ← h.hash.length_eq]
  exact hpushed.consolidate _

theorem Rel.storeHash (h : Rel R t t') (key : LuaKey) (hv : R v w) :
    (t.storeHash key v).1 = (t'.storeHash key w).1 ∧
      Rel R (t.storeHash key v).2 (t'.storeHash key w).2 := by
  have hinsert := insert_rel h.hash key hv
  have hlen := hinsert.length_eq
  unfold LuaTable.storeHash
  dsimp only
  rw [← Option.not_isSome, ← Option.not_isSome, isSome_find_rel h.hash key]
  split_ifs
  · have hgrown : max t.hashCapacity (nextPowerOfTwoCapacity (SortedAssoc.insert key v t.hash).length) =
        max t'.hashCapacity (nextPowerOfTwoCapacity (SortedAssoc.insert key w t'.hash).length) := by
      rw [h.capacity, hlen]
    refine ⟨?_, h.array, hinsert, congrArg (· + 1) h.count, hgrown⟩
    have hresult {a a' b b' : Nat} (ha : a = a') (hb : b = b') :
        RawsetResult.inserted (decide (a < b)) b = .inserted (decide (a' < b')) b' := by
      rw [ha, hb]
    exact hresult h.capacity hgrown
  · exact ⟨rfl, h.array, hinsert, h.count, h.capacity⟩

theorem Rel.store (h : Rel R t t') (key : LuaKey) (hv : R v w) :
    (t.store key v).1 = (t'.store key w).1 ∧ Rel R (t.store key v).2 (t'.store key w).2 := by
  cases key with
  | string s => exact h.storeHash _ hv
  | boolean b => exact h.storeHash _ hv
  | integer i =>
    unfold LuaTable.store
    dsimp only
    rw [← h.array.length_eq]
    split_ifs
    · exact ⟨rfl, set_rel h.array _ hv, h.hash, h.count, h.capacity⟩
    · exact ⟨by rw [h.capacity], h.append hv⟩
    · exact h.storeHash _ hv

theorem Rel.rawremove (h : Rel R t t') (key : LuaKey) :
    Rel R (t.rawremove key) (t'.rawremove key) := by
  have herased : Rel R { t with hash := erase key t.hash, entryCount := t.entryCount - 1 }
      { t' with hash := erase key t'.hash, entryCount := t'.entryCount - 1 } :=
    ⟨h.array, erase_rel h.hash key, congrArg (· - 1) h.count, h.capacity⟩
  have hhash : Rel R (if (find key t.hash).isSome then
        { t with hash := erase key t.hash, entryCount := t.entryCount - 1 } else t)
      (if (find key t'.hash).isSome then
        { t' with hash := erase key t'.hash, entryCount := t'.entryCount - 1 } else t') := by
    rw [isSome_find_rel h.hash key]
    split_ifs
    · exact herased
    · exact h
  cases key with
  | string s => exact hhash
  | boolean b => exact hhash
  | integer i =>
    unfold LuaTable.rawremove
    dsimp only
    rw [← h.array.length_eq]
    by_cases hin : 1 ≤ i.toInt ∧ i.toInt ≤ t.array.length
    · rw [if_pos hin, if_pos hin]
      exact ⟨eraseIdx_rel h.array _, h.hash, congrArg (· - 1) h.count, h.capacity⟩
    · rw [if_neg hin, if_neg hin]
      exact hhash

theorem Rel.new : Rel R (new : LuaTable V) (new : LuaTable W) := ⟨.nil, .nil, rfl, rfl⟩

variable [HasNil V] [HasNil W]

/-- A write ends the same on both. -/
theorem Rel.rawsetTracked (h : Rel R t t') (key : LuaKey) (hv : R v w)
    (hnil : HasNil.isNil v = HasNil.isNil w) :
    (t.rawsetTracked key v).1 = (t'.rawsetTracked key w).1 ∧
      Rel R (t.rawsetTracked key v).2 (t'.rawsetTracked key w).2 := by
  obtain ⟨hresult, hstore⟩ := h.store key hv
  unfold LuaTable.rawsetTracked
  rw [hnil]
  dsimp only
  rw [hresult, hstore.count]
  split_ifs
  · exact ⟨rfl, h⟩
  · exact ⟨rfl, h.rawremove key⟩
  · exact ⟨rfl, hstore⟩
  · exact ⟨rfl, hstore⟩

end Proveno.LuaTable
