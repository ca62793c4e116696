import Proveno.Semantics.ExpressionCode
import Proveno.Semantics.Statements

/-! The variables of a store in the slots of a function that runs, and what declarations,
assignments and the ends of blocks do to them there. -/

namespace Proveno

open List (Forall₂)

namespace Locals

/-- The variables are at the first slots, in the order of their declarations, and no loop
around leaves anything on the stack. -/
structure Tidy (l : Locals) : Prop where
  slots : l.visible.map (·.slot.toNat) = (List.range l.nextSlot.toNat).reverse
  opened : l.blocks ≠ []
  loops : l.loops.headD 0 = 0

/-- So many variables more are declared in the innermost block. -/
structure Follows (d : Nat) (l l' : Locals) : Prop where
  tidy : l'.Tidy
  outside : l'.pop = l.pop
  loops : l'.loops = l.loops
  next : l'.nextSlot.toNat = l.nextSlot.toNat + d

def enter (l : Locals) : Locals := { l with blocks := [] :: l.blocks }

variable {l l' l'' : Locals} {d d' : Nat}

theorem pop_blocks (l : Locals) : l.pop.blocks = l.blocks.tail := by
  unfold pop
  cases h : l.blocks with
  | nil => exact h
  | cons block rest => rfl

theorem pop_loops (l : Locals) : l.pop.loops = l.loops := by
  unfold pop
  cases l.blocks <;> rfl

namespace Tidy

theorem length (h : l.Tidy) : l.visible.length = l.nextSlot.toNat := by
  have hlength := congrArg List.length h.slots
  rwa [List.length_map, List.length_reverse, List.length_range] at hlength

theorem nodup (h : l.Tidy) : (l.visible.map (·.slot)).Nodup := by
  refine List.Nodup.of_map UInt8.toNat ?_
  rw [List.map_map]
  change (l.visible.map (·.slot.toNat)).Nodup
  rw [h.slots]
  exact List.nodup_reverse.mpr List.nodup_range

theorem slot_lt (h : l.Tidy) {x : LocalVar} (hx : x ∈ l.visible) :
    x.slot.toNat < l.nextSlot.toNat := by
  have hmem : x.slot.toNat ∈ l.visible.map (·.slot.toNat) := List.mem_map_of_mem hx
  rwa [h.slots, List.mem_reverse, List.mem_range] at hmem

theorem enter (h : l.Tidy) : l.enter.Tidy := ⟨h.slots, List.cons_ne_nil _ _, h.loops⟩

/-- In a loop that leaves nothing on the stack. -/
theorem looped (h : l.Tidy) : Tidy { l with loops := 0 :: l.loops } := ⟨h.slots, h.opened, rfl⟩

end Tidy

theorem find_declare (h : l.Tidy) (name : Bytes) (hidden : Bool) (sought : Bytes) :
    (l.declare name hidden).find sought =
      if name = sought then some ⟨name, l.nextSlot, hidden⟩ else l.find sought := by
  obtain ⟨block, rest, hblocks⟩ := List.exists_cons_of_ne_nil h.opened
  rw [find, find, visible, visible, Locals.declare, push, hblocks]
  dsimp only
  rw [List.flatten_cons, List.cons_append, List.find?_cons, ← List.flatten_cons]
  split_ifs with hname
  · rw [decide_eq_true hname]
  · rw [decide_eq_false hname]

theorem pop_enter (l : Locals) : l.enter.pop = l := by
  rw [pop, enter]
  dsimp only
  rw [List.length_nil, show (UInt8.ofNat 0).toNat = 0 from rfl, Nat.sub_zero, UInt8.ofNat_toNat]

theorem next_succ {n : UInt8} (h : n.toNat < 255) : (n + 1).toNat = n.toNat + 1 := by
  rw [UInt8.toNat_add, Nat.mod_eq_of_lt]
  · rfl
  · exact Nat.succ_lt_succ h

namespace Follows

theorem refl (h : l.Tidy) : l.Follows 0 l := ⟨h, rfl, rfl, rfl⟩

theorem trans (h : l.Follows d l') (h' : l'.Follows d' l'') : l.Follows (d + d') l'' :=
  ⟨h'.tidy, h'.outside.trans h.outside, h'.loops.trans h.loops, by
    rw [h'.next, h.next, Nat.add_assoc]⟩

theorem declare (h : l.Tidy) (hroom : l.nextSlot.toNat < 255) (name : Bytes) (hidden : Bool) :
    l.Follows 1 (l.declare name hidden) := by
  obtain ⟨block, rest, hblocks⟩ := List.exists_cons_of_ne_nil h.opened
  have hdeclare : l.declare name hidden =
      { l with
        blocks := (⟨name, l.nextSlot, hidden⟩ :: block) :: rest
        nextSlot := l.nextSlot + 1 } := by
    rw [Locals.declare, push, hblocks]
  have hnext := next_succ hroom
  have hlength : block.length ≤ l.nextSlot.toNat := by
    rw [← h.length, visible, hblocks, List.flatten_cons, List.length_append]
    exact Nat.le_add_right _ _
  rw [hdeclare]
  refine ⟨⟨?_, List.cons_ne_nil _ _, h.loops⟩, ?_, rfl, hnext⟩
  · have hslots := h.slots
    rw [visible, hblocks, List.flatten_cons] at hslots
    rw [visible, List.flatten_cons, List.cons_append, List.map_cons, hslots, hnext,
      List.range_succ, List.reverse_append, List.reverse_singleton, List.singleton_append]
  · rw [pop, pop, hblocks]
    dsimp only
    have hsucc : block.length + 1 < 256 := by omega
    rw [hnext, List.length_cons, UInt8.toNat_ofNat_of_lt' hsucc,
      UInt8.toNat_ofNat_of_lt' (Nat.lt_of_succ_lt hsucc), Nat.add_sub_add_right]

end Follows

end Locals

namespace Activation

variable (a : Activation)

/-- The variable with its value is in its slot. -/
def Keeps (slots : List StackSlot) (x : LocalVar) (p : Bytes × LuaValue) : Prop :=
  x.name = p.1 ∧ slots[a.frame.base + x.slot.toNat]? = some (.value p.2)

/-- The variables are in their slots, and all slots of the function have values. -/
structure Holds (blocks : List (List LocalVar)) (σ : Store) (slots : List StackSlot) : Prop where
  kept : Forall₂ (Forall₂ (a.Keeps slots)) blocks σ
  values : ∀ i < a.proto.localCount.toNat, ∃ v, slots[a.frame.base + i]? = some (.value v)

variable {a} {blocks : List (List LocalVar)} {block : List LocalVar} {σ : Store}
  {slots : List StackSlot} {vars : List LocalVar} {ps : List (Bytes × LuaValue)} {name : Bytes}
  {names : List Bytes} {x y : LocalVar} {p : Bytes × LuaValue} {v : LuaValue} {l : Locals}

theorem find_kept (h : Forall₂ (a.Keeps slots) vars ps) (name : Bytes) :
    (vars.find? fun x => x.name = name) = none ∧ (ps.find? fun p => p.1 = name) = none ∨
      ∃ x p, (vars.find? fun x => x.name = name) = some x ∧
        (ps.find? fun p => p.1 = name) = some p ∧ a.Keeps slots x p := by
  induction h with
  | nil => exact .inl ⟨rfl, rfl⟩
  | @cons x p vars ps hxp _ ih =>
    rw [List.find?_cons, List.find?_cons, hxp.1]
    cases hname : decide (p.1 = name) with
    | true => exact .inr ⟨x, p, rfl, rfl, hxp⟩
    | false => exact ih

section Set

variable {n : UInt8}

theorem Keeps.set_ne (h : a.Keeps slots x p) (hne : x.slot ≠ n) (v : LuaValue) :
    a.Keeps (slots.set (a.frame.base + n.toNat) (.value v)) x p := by
  refine ⟨h.1, ?_⟩
  rw [List.getElem?_set_ne, h.2]
  intro heq
  exact hne (UInt8.toNat_inj.mp (Nat.add_left_cancel heq).symm)

theorem kept_set (h : Forall₂ (a.Keeps slots) vars ps) (hne : n ∉ vars.map (·.slot))
    (v : LuaValue) : Forall₂ (a.Keeps (slots.set (a.frame.base + n.toNat) (.value v))) vars ps := by
  induction h with
  | nil => exact .nil
  | @cons x p vars ps hxp _ ih =>
    rw [List.map_cons, List.mem_cons, not_or] at hne
    exact .cons (hxp.set_ne (Ne.symm hne.1) v) (ih hne.2)

theorem blocks_set (h : Forall₂ (Forall₂ (a.Keeps slots)) blocks σ)
    (hne : n ∉ blocks.flatten.map (·.slot)) (v : LuaValue) :
    Forall₂ (Forall₂ (a.Keeps (slots.set (a.frame.base + n.toNat) (.value v)))) blocks σ := by
  induction h with
  | nil => exact .nil
  | @cons block ps blocks σ hblock _ ih =>
    rw [List.flatten_cons, List.map_append, List.mem_append, not_or] at hne
    exact .cons (kept_set hblock hne.1 v) (ih hne.2)

theorem values_set (h : ∀ i < a.proto.localCount.toNat, ∃ w, slots[a.frame.base + i]? = some (.value w))
    (k : Nat) (v : LuaValue) : ∀ i < a.proto.localCount.toNat,
      ∃ w, (slots.set k (.value v))[a.frame.base + i]? = some (.value w) := by
  intro i hi
  obtain ⟨w, hw⟩ := h i hi
  by_cases heq : k = a.frame.base + i
  · exact ⟨v, by rw [heq, List.getElem?_set_self (List.getElem?_eq_some_iff.mp hw).1]⟩
  · exact ⟨w, by rw [List.getElem?_set_ne heq, hw]⟩

/-- An assignment to a variable of a block, whose slot no other variable has. -/
theorem kept_setIn (h : Forall₂ (a.Keeps slots) vars ps)
    (hfind : (vars.find? fun x => x.name = name) = some x) (hnodup : (vars.map (·.slot)).Nodup)
    (v : LuaValue) : ∃ ps', Store.setIn name v ps = some ps' ∧
      Forall₂ (a.Keeps (slots.set (a.frame.base + x.slot.toNat) (.value v))) vars ps' := by
  induction h with
  | nil => cases hfind
  | @cons y p vars ps hyp hrest ih =>
    rw [List.map_cons, List.nodup_cons] at hnodup
    rw [List.find?_cons, hyp.1] at hfind
    rw [Store.setIn]
    by_cases hname : p.1 = name
    · rw [decide_eq_true hname] at hfind
      cases hfind
      refine ⟨_, if_pos hname, .cons ⟨hyp.1.trans hname, ?_⟩ (kept_set hrest hnodup.1 v)⟩
      exact List.getElem?_set_self (List.getElem?_eq_some_iff.mp hyp.2).1
    · rw [decide_eq_false hname] at hfind
      obtain ⟨ps', hps', hkept⟩ := ih hfind hnodup.2
      have hne : y.slot ≠ x.slot := fun heq =>
        hnodup.1 (heq ▸ List.mem_map_of_mem (List.mem_of_find?_eq_some hfind))
      exact ⟨p :: ps', by rw [if_neg hname, hps']; rfl, .cons (hyp.set_ne hne v) hkept⟩

theorem setIn_none (h : Forall₂ (a.Keeps slots) vars ps)
    (hfind : (vars.find? fun x => x.name = name) = none) (v : LuaValue) :
    Store.setIn name v ps = none := by
  induction h with
  | nil => rfl
  | @cons y p vars ps hyp _ ih =>
    rw [List.find?_cons, hyp.1] at hfind
    rw [Store.setIn]
    by_cases hname : p.1 = name
    · rw [decide_eq_true hname] at hfind
      cases hfind
    · rw [decide_eq_false hname] at hfind
      rw [if_neg hname, ih hfind]
      rfl

theorem blocks_assign (h : Forall₂ (Forall₂ (a.Keeps slots)) blocks σ)
    (hfind : (blocks.flatten.find? fun x => x.name = name) = some x)
    (hnodup : (blocks.flatten.map (·.slot)).Nodup) (v : LuaValue) :
    ∃ σ', σ.set name v = some σ' ∧
      Forall₂ (Forall₂ (a.Keeps (slots.set (a.frame.base + x.slot.toNat) (.value v)))) blocks σ' := by
  induction h with
  | nil => cases hfind
  | @cons block ps blocks σ hblock hrest ih =>
    rw [List.flatten_cons, List.map_append, List.nodup_append] at hnodup
    obtain ⟨hinner, houter, hapart⟩ := hnodup
    rw [List.flatten_cons, List.find?_append] at hfind
    rw [Store.set]
    cases hinnerFind : block.find? fun x => x.name = name with
    | some y =>
      rw [hinnerFind] at hfind
      cases hfind
      obtain ⟨ps', hps', hkept⟩ := kept_setIn hblock hinnerFind hinner v
      refine ⟨ps' :: σ, by rw [hps'], .cons hkept (blocks_set hrest ?_ v)⟩
      exact fun hmem => hapart _ (List.mem_map_of_mem (List.mem_of_find?_eq_some hinnerFind)) _ hmem rfl
    | none =>
      rw [hinnerFind] at hfind
      obtain ⟨σ', hσ', hkept⟩ := ih hfind houter
      refine ⟨ps :: σ', by rw [setIn_none hblock hinnerFind, hσ']; rfl,
        .cons (kept_set hblock (fun hmem => ?_) v) hkept⟩
      exact hapart _ hmem _ (List.mem_map_of_mem (List.mem_of_find?_eq_some hfind)) rfl

theorem blocks_unassigned (h : Forall₂ (Forall₂ (a.Keeps slots)) blocks σ)
    (hfind : (blocks.flatten.find? fun x => x.name = name) = none) (v : LuaValue) :
    σ.set name v = none := by
  induction h with
  | nil => rfl
  | cons hblock _ ih =>
    rw [List.flatten_cons, List.find?_append, Option.or_eq_none_iff] at hfind
    rw [Store.set, setIn_none hblock hfind.1, ih hfind.2]
    rfl

end Set

namespace Holds

theorem flatten (h : a.Holds blocks σ slots) :
    Forall₂ (a.Keeps slots) blocks.flatten σ.flatten := List.rel_flatten h.kept

/-- What a name denotes has its value in the store. -/
theorem knows (h : a.Holds l.blocks σ slots) : a.Knows names ⟨l, []⟩ σ.get slots := by
  intro name
  have hresolve : Env.resolve ⟨l, []⟩ name =
      (l.blocks.flatten.find? fun x => x.name = name).map (Var.mk 0) := by
    rw [Env.resolve, Env.lookup, Locals.find, Locals.visible]
    cases l.blocks.flatten.find? fun x => x.name = name <;> rfl
  rw [hresolve]
  rcases find_kept h.flatten name with ⟨hnone, hnone'⟩ | ⟨x, p, hx, hp, hkeeps⟩
  · rw [hnone, Store.get, Store.find?, hnone']
    rfl
  · rw [hx, Store.get, Store.find?, hp]
    exact ⟨.value p.2, hkeeps.2, rfl⟩

theorem get (h : a.Holds blocks σ slots)
    (hfind : (blocks.flatten.find? fun x => x.name = name) = some x) :
    slots[a.frame.base + x.slot.toNat]? = some (.value (σ.get name)) := by
  rcases find_kept h.flatten name with ⟨hnone, -⟩ | ⟨y, p, hy, hp, hkeeps⟩
  · rw [hnone] at hfind
    cases hfind
  · rw [hy] at hfind
    cases hfind
    rw [Store.get, Store.find?, hp]
    exact hkeeps.2

/-- The slot of an assigned variable gets the value. -/
theorem assign (h : a.Holds l.blocks σ slots) (hl : l.Tidy)
    (hfind : (l.visible.find? fun x => x.name = name) = some x) (v : LuaValue) :
    ∃ σ', σ.set name v = some σ' ∧
      a.Holds l.blocks σ' (slots.set (a.frame.base + x.slot.toNat) (.value v)) := by
  obtain ⟨σ', hσ', hkept⟩ := blocks_assign h.kept hfind hl.nodup v
  exact ⟨σ', hσ', hkept, values_set h.values _ v⟩

/-- A declared variable gets the next slot. -/
theorem declare (h : a.Holds l.blocks σ slots) (hl : l.Tidy)
    (hroom : l.nextSlot.toNat < a.proto.localCount.toNat) (name : Bytes) (hidden : Bool)
    (v : LuaValue) :
    a.Holds (l.declare name hidden).blocks (σ.declare name v)
      (slots.set (a.frame.base + l.nextSlot.toNat) (.value v)) := by
  obtain ⟨w, hw⟩ := h.values _ hroom
  have hfresh : l.nextSlot ∉ l.blocks.flatten.map (·.slot) := by
    intro hmem
    obtain ⟨x, hx, hslot⟩ := List.mem_map.mp hmem
    exact absurd (hl.slot_lt hx) (hslot ▸ lt_irrefl _)
  have hkept := blocks_set h.kept hfresh v
  obtain ⟨block, rest, hblocks⟩ := List.exists_cons_of_ne_nil hl.opened
  have hdeclare : (l.declare name hidden).blocks =
      (⟨name, l.nextSlot, hidden⟩ :: block) :: rest := by
    rw [Locals.declare, Locals.push, hblocks]
  rw [hblocks] at hkept
  rw [hdeclare]
  cases hkept with
  | @cons _ ps _ σ hblock hrest =>
    refine ⟨.cons (.cons ⟨rfl, ?_⟩ hblock) hrest, values_set h.values _ v⟩
    exact List.getElem?_set_self (List.getElem?_eq_some_iff.mp hw).1

theorem enter (h : a.Holds blocks σ slots) : a.Holds ([] :: blocks) ([] :: σ) slots :=
  ⟨.cons .nil h.kept, h.values⟩

theorem tail (h : a.Holds blocks σ slots) : a.Holds blocks.tail σ.tail slots := by
  refine ⟨?_, h.values⟩
  have hkept := h.kept
  cases hkept with
  | nil => exact .nil
  | cons _ hrest => exact hrest

/-- Without the variable that has been declared last. -/
theorem forget (h : a.Holds ((x :: block) :: blocks) σ slots) :
    a.Holds (block :: blocks) σ.forget slots := by
  refine ⟨?_, h.values⟩
  have hkept := h.kept
  cases hkept with
  | cons hblock hrest =>
    cases hblock with
    | cons _ hblock => exact .cons hblock hrest

end Holds

end Activation

end Proveno
