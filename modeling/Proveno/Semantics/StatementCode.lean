import Proveno.Compiler.Loops
import Proveno.Semantics.Room
import Proveno.Semantics.StoreSlots

/-! The code of statements on local variables does what the statements mean, wherever it stands
in a function: on to its end, out of the loop around, to a return or to an error. -/

namespace Proveno

namespace Activation

variable (a : Activation)

/-- The way to a return with this value. -/
def Returns (pc : Nat) (slots : List StackSlot) (v : LuaValue) : Prop :=
  ∃ pc' slots', a.Goes pc slots pc' slots' ∧
    (a.proto.code[pc']? = some (.ret 0) ∧ v = .nil ∨
      a.proto.code[pc']? = some (.ret 1) ∧ ∃ rest, slots' = rest ++ [.value v])

/-- What holds of the variables and the slots. -/
abbrev Condition := Store → List StackSlot → Prop

/-- The way to where the outcome leads: to the end, or out of the loop around. -/
def Ends (out pc : Nat) (slots : List StackSlot) (pc' : Nat) (after broken : Condition)
    (breaks : Prop) : Outcome × Store → Prop
  | (.normal, σ) => ∃ slots', a.Goes pc slots pc' slots' ∧ after σ slots'
  | (.broke, σ) => breaks ∧ ∃ slots', a.Goes pc slots out slots' ∧ broken σ slots'
  | (.returned v, _) => a.Returns pc slots v
  | (.failed e, _) => a.Stops pc slots (.ofLuaError e)

/-- Wherever the code stands it does what is meant. -/
def Carries (names : List Bytes) (code : List Asm) (m : Meaning) (pre after broken : Condition) :
    Prop :=
  ∀ out pc σ slots r, pre σ slots → a.Placed names out pc code → m σ = some r →
    a.Ends out pc slots (pc + code.length) after broken (.breakOut ∈ code) r

/-- The value is on top of the stack. -/
def Pushed (v : LuaValue) (pre : Condition) : Condition := fun σ slots =>
  ∃ rest, slots = rest ++ [.value v] ∧ pre σ rest

variable {a} {out pc pc' pc'' : Nat} {slots slots' : List StackSlot}
  {pre mid after after' broken broken' : Condition} {breaks breaks' : Prop} {r : Outcome × Store}
  {names : List Bytes} {code code' : List Asm} {m k : Meaning} {e : Expr} {env : Env} {l : Locals}

namespace Ends

theorem start (h : a.Goes pc slots pc' slots') (hends : a.Ends out pc' slots' pc'' after broken breaks r) :
    a.Ends out pc slots pc'' after broken breaks r := by
  rcases r with ⟨- | - | v | e, σ⟩
  · obtain ⟨slots'', hgo, hafter⟩ := hends
    exact ⟨slots'', h.trans hgo, hafter⟩
  · obtain ⟨hbreaks, slots'', hgo, hbroken⟩ := hends
    exact ⟨hbreaks, slots'', h.trans hgo, hbroken⟩
  · obtain ⟨pcr, slots'', hgo, hret⟩ := hends
    exact ⟨pcr, slots'', h.trans hgo, hret⟩
  · exact h.stops hends

/-- What is done after the end. -/
theorem finish (h : a.Ends out pc slots pc' mid broken breaks r)
    (hfinish : ∀ σ slots', mid σ slots' → a.Goes pc' slots' pc'' slots')
    (hmid : ∀ σ slots', mid σ slots' → after σ slots') (hbreaks : breaks → breaks') :
    a.Ends out pc slots pc'' after broken breaks' r := by
  rcases r with ⟨- | - | v | e, σ⟩
  · obtain ⟨slots', hgo, hhold⟩ := h
    exact ⟨slots', hgo.trans (hfinish σ slots' hhold), hmid σ slots' hhold⟩
  · exact ⟨hbreaks h.1, h.2⟩
  · exact h
  · exact h

theorem map (f : Store → Store) (h : a.Ends out pc slots pc' mid broken breaks r)
    (hafter : ∀ σ slots', mid σ slots' → after (f σ) slots')
    (hbroken : ∀ σ slots', broken σ slots' → broken' (f σ) slots') :
    a.Ends out pc slots pc' after broken' breaks (r.1, f r.2) := by
  rcases r with ⟨- | - | v | e, σ⟩
  · obtain ⟨slots', hgo, hhold⟩ := h
    exact ⟨slots', hgo, hafter σ slots' hhold⟩
  · obtain ⟨hbreaks, slots', hgo, hhold⟩ := h
    exact ⟨hbreaks, slots', hgo, hbroken σ slots' hhold⟩
  · exact h
  · exact h

end Ends

namespace Carries

theorem mono (h : a.Carries names code m pre mid broken)
    (hafter : ∀ σ slots', mid σ slots' → after σ slots')
    (hbroken : ∀ σ slots', broken σ slots' → broken' σ slots') :
    a.Carries names code m pre after broken' :=
  fun out pc σ slots r hpre hplaced hm => (h out pc σ slots r hpre hplaced hm).map id hafter hbroken

theorem skip : a.Carries names [] Meaning.skip pre pre broken := by
  intro out pc σ slots r hpre _ hm
  cases hm
  exact ⟨slots, .refl _ _, hpre⟩

theorem seq (h : a.Carries names code m pre mid broken)
    (h' : a.Carries names code' k mid after broken) :
    a.Carries names (code ++ code') (m.seq k) pre after broken := by
  intro out pc σ slots r hpre hplaced hm
  obtain ⟨hfront, hback⟩ := placed_append.mp hplaced
  unfold Meaning.seq at hm
  rw [List.length_append, ← Nat.add_assoc]
  cases hmσ : m σ with
  | none =>
    rw [hmσ] at hm
    cases hm
  | some q =>
    have hends := h out pc σ slots q hpre hfront hmσ
    rw [hmσ] at hm
    rcases q with ⟨- | - | v | e, σ'⟩
    · obtain ⟨slots', hgo, hmid⟩ := hends
      refine .start hgo ((h' out _ σ' slots' r hmid hback hm).finish (fun _ _ _ => .refl _ _)
        (fun _ _ => id) fun hmem => List.mem_append_right _ hmem)
    · cases hm
      exact ⟨List.mem_append_left _ hends.1, hends.2⟩
    · cases hm
      exact hends
    · cases hm
      exact hends

/-- An expression is evaluated, and then something is done with its value. -/
theorem evaluated {k : LuaValue → Meaning} {σ : Store} (he : e.Plain)
    (hknows : a.Knows names env σ.get slots) (hplaced : a.Placed names out pc (e.gen.whole env).1)
    (hm : e.evaluate (.chained a.heap) k σ = some r) :
    (∃ err, r = (.failed err, σ) ∧ a.Stops pc slots (.ofLuaError err)) ∨
      ∃ v, k v σ = some r ∧
        a.Goes pc slots (pc + (e.gen.whole env).1.length) (slots ++ [.value v]) := by
  have hgives := he.leads.1 out pc slots hknows hplaced
  unfold Expr.evaluate Meaning.given Evaluator.chained at hm
  dsimp only at hm
  cases hv : e.chained a.heap σ.get with
  | error err =>
    rw [hv] at hm hgives
    cases hm
    exact .inl ⟨err, rfl, hgives⟩
  | ok v =>
    rw [hv] at hm hgives
    exact .inr ⟨v, hm, hgives⟩

theorem evaluate {k : LuaValue → Meaning} (he : e.Plain)
    (hknows : ∀ σ slots, pre σ slots → a.Knows names env σ.get slots)
    (h : ∀ v, a.Carries names code (k v) (Pushed v pre) after broken) :
    a.Carries names ((e.gen.whole env).1 ++ code) (e.evaluate (.chained a.heap) k) pre after
      broken := by
  intro out pc σ slots r hpre hplaced hm
  obtain ⟨hfront, hback⟩ := placed_append.mp hplaced
  rw [List.length_append, ← Nat.add_assoc]
  rcases evaluated he (hknows σ slots hpre) hfront hm with ⟨err, rfl, hstops⟩ | ⟨v, hm, hgo⟩
  · exact hstops
  · exact .start hgo ((h v out _ σ _ r ⟨slots, rfl, hpre⟩ hback hm).finish
      (fun _ _ _ => .refl _ _) (fun _ _ => id) fun hmem => List.mem_append_right _ hmem)

section Store

variable {name : Bytes} {v : LuaValue}

theorem declare (hl : l.Tidy) (hroom : l.nextSlot.toNat < a.proto.localCount.toNat) (name : Bytes)
    (hidden : Bool) (v : LuaValue) :
    a.Carries names [.plain (.storeLocal l.nextSlot)] (Meaning.declare name v)
      (Pushed v (a.Holds l.blocks)) (a.Holds (l.declare name hidden).blocks) broken := by
  rintro out pc σ _ r ⟨slots, rfl, hpre⟩ hplaced hm
  cases hm
  obtain ⟨w, hw⟩ := hpre.values _ hroom
  exact ⟨_, goes_storeLocal (has_plain hplaced.1) hw, hpre.declare hl hroom name hidden v⟩

theorem assign {x : LocalVar} (hl : l.Tidy) (hfind : l.find name = some x) (v : LuaValue) :
    a.Carries names [.store ⟨0, x⟩] (Meaning.assign name v) (Pushed v (a.Holds l.blocks))
      (a.Holds l.blocks) broken := by
  rintro out pc σ _ r ⟨slots, rfl, hpre⟩ hplaced hm
  obtain ⟨σ', hσ', hholds⟩ := hpre.assign hl hfind v
  rw [Meaning.assign, hσ'] at hm
  cases hm
  obtain ⟨_, hinstr, rfl⟩ := hplaced.1
  exact ⟨_, goes_storeLocal hinstr (hpre.get hfind), hholds⟩

theorem leave : a.Carries names [.breakOut] Meaning.leave (a.Holds l.blocks) after
    fun σ slots => a.Holds l.blocks.tail σ.tail slots := by
  rintro out pc σ slots r hpre hplaced hm
  cases hm
  obtain ⟨off, hinstr, htarget⟩ := hplaced.1
  exact ⟨List.mem_singleton_self _, slots, goes_jmp hinstr htarget, hpre.tail⟩

theorem ret_nil : a.Carries names [.plain (.ret 0)] (fun σ => some (.returned .nil, σ)) pre after
    broken := by
  rintro out pc σ slots r - hplaced hm
  cases hm
  exact ⟨pc, slots, .refl _ _, .inl ⟨has_plain hplaced.1, rfl⟩⟩

theorem ret_value : a.Carries names [.plain (.ret 1)] (fun σ => some (.returned v, σ))
    (Pushed v pre) after broken := by
  rintro out pc σ slots r ⟨rest, rfl, -⟩ hplaced hm
  cases hm
  exact ⟨pc, _, .refl _ _, .inr ⟨has_plain hplaced.1, rest, rfl⟩⟩

end Store

section Blocks

/-- The code of a block does what the statements in it do. -/
theorem enclosed (h : a.Carries names code m (a.Holds ([] :: l.blocks)) mid
      fun σ slots => a.Holds l.blocks σ.tail slots)
    (hmid : ∀ σ slots, mid σ slots → a.Holds l.blocks σ.tail slots) :
    a.Carries names code m.enclosed (a.Holds l.blocks) (a.Holds l.blocks) (a.Holds l.blocks) := by
  intro out pc σ slots r hpre hplaced hm
  obtain ⟨q, hq, rfl⟩ := Option.map_eq_some_iff.mp hm
  exact (h out pc _ slots q hpre.enter hplaced hq).map List.tail hmid fun _ _ => id

end Blocks

section Branches

theorem goes_jumpIfNot {n : Nat} (h : a.Has names out pc (.jump .jmpIfNot n)) (v : LuaValue) :
    a.Goes pc (slots ++ [.value v]) (if v.isTruthy then pc + 1 else pc + 1 + n) slots := by
  obtain ⟨_, hinstr, off, rfl, hoff⟩ := h
  have hgo : a.Goes pc (slots ++ [StackSlot.value v])
      (if v.isTruthy = false then pc + 1 + n else pc + 1) slots :=
    goes_jumpWhen hinstr trivial rfl (target_eq hoff) v
  cases hv : v.isTruthy <;> simpa [hv] using hgo

theorem goes_jump {n : Nat} (h : a.Has names out pc (.jump .jmp n)) :
    a.Goes pc slots (pc + 1 + n) slots := by
  obtain ⟨_, hinstr, off, rfl, hoff⟩ := h
  exact goes_jmp hinstr (target_eq hoff)

/-- Code that a condition may jump over. -/
theorem branch {v : LuaValue} (h : a.Carries names code m pre after broken)
    (hafter : ∀ σ slots, pre σ slots → after σ slots) :
    a.Carries names (.jump .jmpIfNot code.length :: code)
      (if v.isTruthy then m else Meaning.skip) (Pushed v pre) after broken := by
  rintro out pc σ _ r ⟨slots, rfl, hpre⟩ ⟨hjump, hplaced⟩ hm
  have hgo : a.Goes pc (slots ++ [StackSlot.value v]) _ slots := goes_jumpIfNot hjump v
  rw [List.length_cons, Nat.add_comm code.length, ← Nat.add_assoc]
  split_ifs at hm hgo
  · exact .start hgo ((h out _ σ slots r hpre hplaced hm).finish (fun _ _ _ => .refl _ _)
      (fun _ _ => id) (List.mem_cons_of_mem _))
  · cases hm
    exact ⟨slots, hgo, hafter σ slots hpre⟩

/-- One of two pieces of code, of which the first jumps over the second. -/
theorem branches {v : LuaValue} (h : a.Carries names code m pre after broken)
    (h' : a.Carries names code' k pre after broken) :
    a.Carries names (.jump .jmpIfNot (code.length + 1) :: (code ++ .jump .jmp code'.length :: code'))
      (if v.isTruthy then m else k) (Pushed v pre) after broken := by
  rintro out pc σ _ r ⟨slots, rfl, hpre⟩ ⟨hjump, hplaced⟩ hm
  have hgo : a.Goes pc (slots ++ [StackSlot.value v]) _ slots := goes_jumpIfNot hjump v
  obtain ⟨hfront, hskip, hback⟩ := placed_append.mp hplaced
  have hlength : pc + (Asm.jump .jmpIfNot (code.length + 1) ::
      (code ++ .jump .jmp code'.length :: code')).length =
        pc + 1 + code.length + 1 + code'.length := by
    simp only [List.length_cons, List.length_append]
    omega
  rw [hlength]
  split_ifs at hm hgo
  · refine .start hgo ((h out _ σ slots r hpre hfront hm).finish (fun _ _ _ => goes_jump hskip)
      (fun _ _ => id) fun hmem => ?_)
    exact List.mem_cons_of_mem _ (List.mem_append_left _ hmem)
  · rw [← Nat.add_assoc] at hgo
    refine .start hgo ((h' out _ σ slots r hpre hback hm).finish (fun _ _ _ => .refl _ _)
      (fun _ _ => id) fun hmem => ?_)
    exact List.mem_cons_of_mem _ (List.mem_append_right _ (List.mem_cons_of_mem _ hmem))

end Branches

section Loops

/-- In a loop that has been closed the jumps out of it lead to its end. -/
theorem placed_closeLoop {n : Int} {stop : Nat} (h : a.Placed names out pc (Gen.closeLoop n code))
    (hstop : (stop : Int) = pc + n) : a.Placed names stop pc code := by
  induction code generalizing pc n with
  | nil => trivial
  | cons asm code ih =>
    have hstop' : (stop : Int) = (pc + 1 : Nat) + (n - 1) := by omega
    by_cases hasm : asm = .breakOut
    · rw [hasm, Gen.closeLoop_breakOut] at h
      obtain ⟨⟨_, hinstr, off, rfl, hoff⟩, hrest⟩ := h
      rw [hasm]
      exact ⟨⟨off, hinstr, by rw [hoff, hstop']⟩, ih hrest hstop'⟩
    · rw [Gen.closeLoop_of_ne hasm] at h
      refine ⟨?_, ih h.2 hstop'⟩
      cases asm <;> first | exact h.1 | exact absurd rfl hasm

/-- A turn of a loop keeps the condition, and so does the loop. -/
theorem loop {turn : Meaning} {fuel : Nat}
    (hturn : ∀ pc σ slots r, pre σ slots → a.Placed names (pc + code.length + 1) pc code →
      turn σ = some r →
      a.Ends (pc + code.length + 1) pc slots (pc + code.length) pre pre True r) :
    a.Carries names (Gen.closedLoop code code.length) (Meaning.loop turn fuel) pre pre broken := by
  intro out pc σ slots r hpre hplaced hm
  obtain ⟨hbody, hback⟩ := placed_append.mp hplaced
  rw [Gen.length_closeLoop] at hback
  have hplaced' : a.Placed names (pc + code.length + 1) pc code :=
    placed_closeLoop hbody (by omega)
  have hjump (slots : List StackSlot) : a.Goes (pc + code.length) slots pc slots := by
    obtain ⟨⟨_, hinstr, off, rfl, hoff⟩, -⟩ := hback
    exact goes_jmp hinstr (by rw [hoff]; omega)
  have hlength : (Gen.closedLoop code code.length).length = code.length + 1 := by
    rw [Gen.closedLoop, List.length_append, Gen.length_closeLoop, List.length_singleton]
  rw [hlength, ← Nat.add_assoc]
  induction fuel generalizing σ slots with
  | zero => cases hm
  | succ fuel ih =>
    unfold Meaning.loop at hm
    cases hσ : turn σ with
    | none =>
      rw [hσ] at hm
      cases hm
    | some q =>
      have hends := hturn pc σ slots q hpre hplaced' hσ
      rw [hσ] at hm
      rcases q with ⟨- | - | v | e, σ'⟩
      · obtain ⟨slots', hgo, hpre'⟩ := hends
        exact .start (hgo.trans (hjump slots')) (ih σ' slots' hpre' hm)
      · cases hm
        exact hends.2
      · cases hm
        exact hends
      · cases hm
        exact hends

variable {v : LuaValue} {iSlot limSlot stepSlot varSlot : UInt8} {i limit step : LuaValue}

/-- A turn of a loop, from its condition. -/
theorem whileTurn {body : List Asm} {σ : Store}
    (hbody : body = (e.gen.whole env).1 ++ [.jump .jmpIfNot (code.length + 1)] ++ code)
    (he : e.Plain) (hknows : ∀ σ slots, pre σ slots → a.Knows names env σ.get slots)
    (h : a.Carries names code m pre pre pre) (hpre : pre σ slots)
    (hplaced : a.Placed names (pc + body.length + 1) pc body)
    (hm : e.evaluate (.chained a.heap) (fun v => if v.isTruthy then m else Meaning.leave) σ =
      some r) :
    a.Ends (pc + body.length + 1) pc slots (pc + body.length) pre pre True r := by
  have hlength : pc + body.length = pc + (e.gen.whole env).1.length + 1 + code.length := by
    rw [hbody]
    simp only [List.length_append, List.length_singleton]
    omega
  rw [hlength] at hplaced ⊢
  rw [hbody] at hplaced
  obtain ⟨hfront, hblock⟩ := placed_append.mp hplaced
  obtain ⟨hcondition, hjump, -⟩ := placed_append.mp hfront
  rw [List.length_append, List.length_singleton, ← Nat.add_assoc] at hblock
  rcases evaluated he (hknows σ slots hpre) hcondition hm with ⟨err, rfl, hstops⟩ | ⟨v, hm, hgo⟩
  · exact hstops
  · have hbranch := hgo.trans (goes_jumpIfNot hjump v)
    split_ifs at hm hbranch
    · exact .start hbranch ((h _ _ σ slots r hpre hblock hm).finish (fun _ _ _ => .refl _ _)
        (fun _ _ => id) fun _ => trivial)
    · cases hm
      exact ⟨trivial, slots, hbranch, hpre⟩

theorem goes_local {slot : UInt8} (h : a.Has names out pc (.plain (.loadLocal slot)))
    (hslot : slots[a.frame.base + slot.toNat]? = some (.value v)) :
    a.Goes pc slots (pc + 1) (slots ++ [.value v]) := goes_loadLocal (has_plain h) hslot

theorem getElem?_pushed {slot : UInt8} {w : LuaValue}
    (hslot : slots[a.frame.base + slot.toNat]? = some (.value v)) :
    (slots ++ [.value w])[a.frame.base + slot.toNat]? = some (.value v) := by
  rw [List.getElem?_append_left (List.getElem?_eq_some_iff.mp hslot).1, hslot]

/-- Two variables are compared. -/
theorem gives_comparison {op : BinOpKind} {instr : Instruction} {first second : UInt8}
    {x y : LuaValue} (hop : op.instruction = some instr)
    (hplaced : a.Placed names out pc [.plain (.loadLocal first), .plain (.loadLocal second),
      .plain instr])
    (hx : slots[a.frame.base + first.toNat]? = some (.value x))
    (hy : slots[a.frame.base + second.toNat]? = some (.value y)) :
    a.Gives pc slots (pc + 3) (fun v => slots ++ [.value v]) (op.apply x y) := by
  obtain ⟨hfirst, hsecond, hinstr, -⟩ := hplaced
  exact .after (goes_local hfirst hx)
    (.after (goes_local hsecond (getElem?_pushed hy)) (gives_strict hop hinstr x y))

theorem goes_jumpIf {n : Nat} (h : a.Has names out pc (.jump .jmpIf n)) (b : Bool) :
    a.Goes pc (slots ++ [.value (.boolean b)]) (if b then pc + 1 + n else pc + 1) slots := by
  obtain ⟨_, hinstr, off, rfl, hoff⟩ := h
  cases b
  · exact goes_jumpWhen hinstr trivial rfl (target_eq hoff) (.boolean false)
  · exact goes_jumpWhen hinstr trivial rfl (target_eq hoff) (.boolean true)

/-- The check of a numeric loop leads into the turn, or past so much code. -/
theorem forCheck {n : Nat} (hplaced : a.Placed names out pc (Gen.loopCheck iSlot limSlot stepSlot n))
    (hi : slots[a.frame.base + iSlot.toNat]? = some (.value i))
    (hlimit : slots[a.frame.base + limSlot.toNat]? = some (.value limit))
    (hstep : slots[a.frame.base + stepSlot.toNat]? = some (.value step)) :
    (∀ err, forOver i limit step = .error err → a.Stops pc slots (.ofLuaError err)) ∧
      ∀ b, forOver i limit step = .ok b → a.Goes pc slots (if b then pc + 13 + n else pc + 13) slots := by
  obtain ⟨hload, hzero, hlt, hpositive, hi₁, hlimit₁, hdown, hexit₁, hcontinue, hi₂, hlimit₂, hup,
    hexit₂, -⟩ := hplaced
  have hsign : a.Gives pc slots (pc + 3) (fun v => slots ++ [StackSlot.value v])
      (compared Ordering.isLT step (.integer 0)) :=
    .after (goes_local hload hstep)
      (.after (goes_constant hzero) (gives_strict (show BinOpKind.lt.instruction = some .lt from rfl) hlt step
        (.integer 0)))
  have hbelow : a.Gives (pc + 4) slots (pc + 7) (fun v => slots ++ [StackSlot.value v])
      (compared Ordering.isLT i limit) :=
    gives_comparison (show BinOpKind.lt.instruction = some .lt from rfl) ⟨hi₁, hlimit₁, hdown, trivial⟩ hi hlimit
  have habove : a.Gives (pc + 9) slots (pc + 12) (fun v => slots ++ [StackSlot.value v])
      (compared Ordering.isGT i limit) :=
    gives_comparison (show BinOpKind.gt.instruction = some .gt from rfl) ⟨hi₂, hlimit₂, hup, trivial⟩ hi hlimit
  have hover : forOver i limit step = step.luaCmp (.integer 0) >>= fun ord =>
      if ord.isLT then (i.luaCmp limit).map Ordering.isLT else (i.luaCmp limit).map Ordering.isGT :=
    rfl
  rw [hover]
  rw [compared] at hsign hbelow habove
  cases hsigned : step.luaCmp (.integer 0) with
  | error err =>
    rw [hsigned] at hsign
    refine ⟨fun err' h => ?_, fun _ => nofun⟩
    cases h
    exact hsign
  | ok ord =>
    rw [hsigned] at hsign
    change (∀ err, (if ord.isLT then (i.luaCmp limit).map Ordering.isLT
        else (i.luaCmp limit).map Ordering.isGT) = .error err → _) ∧
      ∀ b, (if ord.isLT then (i.luaCmp limit).map Ordering.isLT
        else (i.luaCmp limit).map Ordering.isGT) = .ok b → _
    have hsplit := Goes.trans hsign (goes_jumpIfNot (n := 5) hpositive (.boolean ord.isLT))
    cases hneg : ord.isLT
    · rw [hneg] at hsplit
      cases hcmp : i.luaCmp limit with
      | error err =>
        rw [hcmp] at habove
        exact ⟨fun err' h => by cases h; exact hsplit.stops habove, fun _ => nofun⟩
      | ok ord' =>
        rw [hcmp] at habove
        refine ⟨fun _ => nofun, fun b h => ?_⟩
        cases h
        exact hsplit.trans (Goes.trans habove (goes_jumpIf hexit₂ ord'.isGT))
    · rw [hneg] at hsplit
      cases hcmp : i.luaCmp limit with
      | error err =>
        rw [hcmp] at hbelow
        exact ⟨fun err' h => by cases h; exact hsplit.stops hbelow, fun _ => nofun⟩
      | ok ord' =>
        rw [hcmp] at hbelow
        refine ⟨fun _ => nofun, fun b h => ?_⟩
        cases h
        have hgo := hsplit.trans (Goes.trans hbelow (goes_jumpIf (n := n + 5) hexit₁ ord'.isLT))
        cases hless : ord'.isLT
        · rw [hless] at hgo
          exact hgo.trans (goes_jump (n := 4) hcontinue)
        · rw [hless] at hgo
          have htarget : pc + 13 + n = pc + 7 + 1 + (n + 5) := by omega
          rw [if_pos rfl, htarget]
          exact hgo

section NumericFor

variable {name : Bytes} {m : Meaning}

theorem given {α : Type} {f : Store → Except LuaError α} {k : α → Meaning} {σ : Store}
    (hm : Meaning.given f k σ = some r) :
    (∃ err, f σ = .error err ∧ r = (.failed err, σ)) ∨ ∃ x, f σ = .ok x ∧ k x σ = some r := by
  unfold Meaning.given at hm
  cases hf : f σ with
  | error err =>
    rw [hf] at hm
    cases hm
    exact .inl ⟨err, rfl, rfl⟩
  | ok x =>
    rw [hf] at hm
    exact .inr ⟨x, rfl, hm⟩

/-- The variable of a numeric loop lives for a turn. -/
theorem forBody {x : LocalVar} (hl : l.Tidy) (hroom : l.nextSlot.toNat < a.proto.localCount.toNat)
    (hfind : l.find forI = some x)
    (h : a.Carries names code m (a.Holds (l.declare name false).blocks)
      (a.Holds (l.declare name false).blocks) (a.Holds (l.declare name false).blocks)) :
    a.Carries names
      ([.plain (.loadLocal x.slot), .plain (.storeLocal l.nextSlot)] ++ code)
      (Meaning.given (fun σ => .ok (σ.get forI)) fun i => Meaning.binding name i m)
      (a.Holds l.blocks) (a.Holds l.blocks) (a.Holds l.blocks) := by
  intro out pc σ slots r hpre hplaced hm
  rcases given hm with ⟨_, herr, -⟩ | ⟨i, hi, hm⟩
  · cases herr
  cases hi
  obtain ⟨⟨hload, hstore, -⟩, hblock⟩ := placed_append.mp hplaced
  obtain ⟨q, hq, rfl⟩ := Option.map_eq_some_iff.mp hm
  obtain ⟨w, hw⟩ := hpre.values _ hroom
  have hgo := (goes_local hload (hpre.get hfind)).trans (goes_storeLocal (has_plain hstore) hw)
  have hforget (σ : Store) (slots : List StackSlot)
      (hholds : a.Holds (l.declare name false).blocks σ slots) : a.Holds l.blocks σ.forget slots := by
    obtain ⟨block, rest, hblocks⟩ := List.exists_cons_of_ne_nil hl.opened
    rw [Locals.declare, Locals.push, hblocks] at hholds
    rw [hblocks]
    exact hholds.forget
  rw [List.length_append, ← Nat.add_assoc]
  refine .start hgo (((h out _ _ _ q (hpre.declare hl hroom name false _) hblock hq).finish
    (fun _ _ _ => .refl _ _) (fun _ _ => id) fun hmem => ?_).map Store.forget hforget hforget)
  exact List.mem_append_right _ hmem

/-- The step of a numeric loop is added to its state. -/
theorem forNext {x y : LocalVar} (hl : l.Tidy) (hi : l.find forI = some x)
    (hstep : l.find forStep = some y) :
    a.Carries names [.plain (.loadLocal x.slot), .plain (.loadLocal y.slot), .plain .add,
        .plain (.storeLocal x.slot)]
      (Meaning.given (fun σ => (σ.get forI).luaAdd (σ.get forStep)) fun i => Meaning.assign forI i)
      (a.Holds l.blocks) (a.Holds l.blocks) broken := by
  rintro out pc σ slots r hpre ⟨hload₁, hload₂, hadd, hstore, -⟩ hm
  have hsum : a.Gives pc slots (pc + 3) (fun v => slots ++ [StackSlot.value v])
      (BinOpKind.add.apply (σ.get forI) (σ.get forStep)) :=
    gives_comparison (show BinOpKind.add.instruction = some .add from rfl)
      ⟨hload₁, hload₂, hadd, trivial⟩ (hpre.get hi) (hpre.get hstep)
  rcases given hm with ⟨err, herr, rfl⟩ | ⟨sum, hok, hm⟩
  · rw [show BinOpKind.add.apply (σ.get forI) (σ.get forStep) = .error err from herr] at hsum
    exact hsum
  · rw [show BinOpKind.add.apply (σ.get forI) (σ.get forStep) = .ok sum from hok] at hsum
    obtain ⟨σ', hσ', hholds⟩ := hpre.assign hl hi sum
    rw [Meaning.assign, hσ'] at hm
    cases hm
    exact ⟨_, Goes.trans hsum (goes_storeLocal (has_plain hstore) (hpre.get hi)), hholds⟩

/-- A turn of a numeric loop, from its check. -/
theorem forTurn {x y z : LocalVar} {body : List Asm} {rest : Meaning} {σ : Store}
    (hbody : body = Gen.loopCheck x.slot y.slot z.slot (code.length + 1) ++ code)
    (hi : l.find forI = some x) (hlimit : l.find forLimit = some y)
    (hstep : l.find forStep = some z)
    (h : a.Carries names code rest (a.Holds l.blocks) (a.Holds l.blocks) (a.Holds l.blocks))
    (hpre : a.Holds l.blocks σ slots)
    (hplaced : a.Placed names (pc + body.length + 1) pc body)
    (hm : Meaning.given (fun σ => forOver (σ.get forI) (σ.get forLimit) (σ.get forStep))
      (fun ends => if ends then Meaning.leave else rest) σ = some r) :
    a.Ends (pc + body.length + 1) pc slots (pc + body.length) (a.Holds l.blocks) (a.Holds l.blocks)
      True r := by
  have hlength : pc + body.length = pc + 13 + code.length := by
    rw [hbody, List.length_append, ← Nat.add_assoc]
    rfl
  rw [hlength] at hplaced ⊢
  rw [hbody] at hplaced
  obtain ⟨hcheck, hcode⟩ := placed_append.mp hplaced
  obtain ⟨hstops, hgoes⟩ := forCheck hcheck (hpre.get hi) (hpre.get hlimit) (hpre.get hstep)
  rcases given hm with ⟨err, herr, rfl⟩ | ⟨ends, hends, hm⟩
  · exact hstops err herr
  · have hgo := hgoes ends hends
    cases ends
    · exact .start hgo ((h _ _ σ slots r hpre hcode hm).finish (fun _ _ _ => .refl _ _)
        (fun _ _ => id) fun _ => trivial)
    · cases hm
      exact ⟨trivial, slots, hgo, hpre⟩

end NumericFor

end Loops

end Carries

end Activation

end Proveno
