import Proveno.Compiler.Exactness
import Proveno.Vm.Routes

/-! The code of an expression that calls nothing and makes nothing leads to its value on the
stack, or to its error, wherever it stands in a function. -/

namespace Proveno

open Gen (inOrder)

namespace Activation

variable (a : Activation) (names : List Bytes)

/-- The symbolic instruction stands at this position; where it leaves the innermost loop it
jumps to the one given. -/
def Has (out pc : Nat) : Asm → Prop
  | .breakOut => ∃ off : Int16, a.proto.code[pc]? = some (.jmp off) ∧
      (out : Int) = (pc + 1 : Nat) + off.toInt
  | asm => ∃ instr, a.proto.code[pc]? = some instr ∧
      asm.Exact a.program.prototypes a.proto.constants names instr

/-- The code stands from this position on. -/
def Placed (out : Nat) : Nat → List Asm → Prop
  | _, [] => True
  | pc, asm :: rest => a.Has names out pc asm ∧ Placed out (pc + 1) rest

/-- What is read from a slot. -/
def Shows (slot : StackSlot) (v : LuaValue) : Prop :=
  match slot with
  | .value w => w = v
  | .shared cell => a.heap.cell cell = v
  | .iterHandle _ => False

/-- The variable has this value, in its slot or in the cell of an upvalue. -/
def Reads (slots : List StackSlot) (x : Var) (v : LuaValue) : Prop :=
  if x.level = 0 then ∃ slot, slots[a.frame.base + x.decl.slot.toNat]? = some slot ∧ a.Shows slot v
  else ∀ i : Nat, names[i]? = some x.decl.name →
    ∃ cell, a.frame.upvalues[i]? = some cell ∧ a.heap.cell cell = v

/-- The names have these values; a name that denotes no variable stands for a builtin. -/
def Knows (env : Env) (ρ : Bytes → LuaValue) (slots : List StackSlot) : Prop :=
  ∀ name, match env.resolve name with
    | some x => a.Reads names slots x (ρ name)
    | none => ρ name = .string (sentinel name)

variable {a names} {out pc : Nat} {code rest : List Asm} {slots temps : List StackSlot} {x : Var}
  {v : LuaValue} {env : Env} {ρ : Bytes → LuaValue} {asm : Asm}

theorem placed_append :
    a.Placed names out pc (code ++ rest) ↔
      a.Placed names out pc code ∧ a.Placed names out (pc + code.length) rest := by
  induction code generalizing pc with
  | nil => exact ⟨fun h => ⟨trivial, h⟩, fun h => h.2⟩
  | cons asm code ih =>
    rw [List.cons_append, Placed, Placed, ih, List.length_cons, and_assoc, Nat.add_assoc,
      Nat.add_comm 1]

theorem Reads.append (h : a.Reads names slots x v) : a.Reads names (slots ++ temps) x v := by
  unfold Reads at h ⊢
  split_ifs with hlevel
  · rw [if_pos hlevel] at h
    obtain ⟨slot, hslot, hshows⟩ := h
    exact ⟨slot, by rw [List.getElem?_append_left (List.getElem?_eq_some_iff.mp hslot).1, hslot],
      hshows⟩
  · rwa [if_neg hlevel] at h

theorem Knows.append (h : a.Knows names env ρ slots) : a.Knows names env ρ (slots ++ temps) := by
  intro name
  have hname := h name
  cases hx : env.resolve name with
  | some x =>
    rw [hx] at hname
    exact Reads.append hname
  | none =>
    rw [hx] at hname
    exact hname

section Load

theorem has_plain {instr : Instruction} (h : a.Has names out pc (.plain instr)) :
    a.proto.code[pc]? = some instr := by
  obtain ⟨_, hinstr, rfl⟩ := h
  exact hinstr

theorem goes_constant {k : Constant} (h : a.Has names out pc (.constant k)) :
    a.Goes pc slots (pc + 1) (slots ++ [.value (Engine.constantToValue k)]) := by
  obtain ⟨_, hinstr, idx, rfl, hk⟩ := h
  exact goes_pushK hinstr hk

/-- A variable is loaded from where it is. -/
theorem goes_load (h : a.Has names out pc (.load x)) (hreads : a.Reads names slots x v) :
    a.Goes pc slots (pc + 1) (slots ++ [.value v]) := by
  obtain ⟨instr, hinstr, haccess⟩ := h
  unfold Asm.Exact Var.ExactlyAccessed at haccess
  unfold Reads at hreads
  split_ifs at haccess hreads with hlevel
  · obtain ⟨slot, hslot, hshows⟩ := hreads
    rw [haccess] at hinstr
    cases slot with
    | value w =>
      obtain rfl : w = v := hshows
      exact goes_loadLocal hinstr hslot
    | shared cell =>
      obtain rfl : a.heap.cell cell = v := hshows
      exact goes_loadShared hinstr hslot
    | iterHandle => exact hshows.elim
  · obtain ⟨i, rfl, hname⟩ := haccess
    obtain ⟨cell, hcell, rfl⟩ := hreads _ hname
    exact goes_loadUp hinstr hcell

end Load

section Operators

theorem gives_strict {op : BinOpKind} {instr : Instruction} (hop : op.instruction = some instr)
    (h : a.Has names out pc (.plain instr)) (x y : LuaValue) :
    a.Gives pc (slots ++ [.value x] ++ [.value y]) (pc + 1) (fun v => slots ++ [.value v])
      (op.apply x y) := by
  have hinstr := has_plain h
  cases op
  case and | or | concat => cases hop
  all_goals
    cases hop
    exact gives_binary hinstr trivial rfl x y

theorem gives_unOp (op : UnOpKind) (h : a.Has names out pc (.plain op.instruction)) (x : LuaValue) :
    a.Gives pc (slots ++ [.value x]) (pc + 1) (fun v => slots ++ [.value v])
      (op.apply a.heap x) := by
  have hinstr := has_plain h
  cases op with
  | neg => exact gives_unary hinstr trivial rfl x
  | not => exact gives_unary hinstr trivial rfl x
  | len => exact gives_len hinstr x

/-- A distance, as the offset of a jump has it. -/
theorem target_eq {off : Int16} {n : Nat} (hoff : off.toInt = n) :
    ((pc + 1 + n : Nat) : Int) = (pc + 1 : Nat) + off.toInt := by
  rw [hoff]
  omega

theorem goes_and {n : Nat} (h : a.Has names out pc (.jump .and n)) (v : LuaValue) :
    a.Goes pc (slots ++ [.value v]) (if !v.isTruthy then pc + 1 + n else pc + 1)
      (slots ++ [.value v]) := by
  obtain ⟨_, hinstr, off, rfl, hoff⟩ := h
  have hgo : a.Goes pc (slots ++ [.value v]) (if v.isTruthy = false then pc + 1 + n else pc + 1)
      (slots ++ [.value v]) := goes_shortCircuit hinstr trivial rfl (target_eq hoff) v
  cases hv : v.isTruthy <;> simpa [hv] using hgo

theorem goes_or {n : Nat} (h : a.Has names out pc (.jump .or n)) (v : LuaValue) :
    a.Goes pc (slots ++ [.value v]) (if v.isTruthy then pc + 1 + n else pc + 1)
      (slots ++ [.value v]) := by
  obtain ⟨_, hinstr, off, rfl, hoff⟩ := h
  exact goes_shortCircuit hinstr trivial rfl (target_eq hoff) v

end Operators

end Activation

namespace Gen

/-- What is generated leaves the variables as they are. -/
def Quiet {α : Type} (g : Gen α) : Prop := ∀ env, (g env).2 = env

theorem quiet_pure {α : Type} (x : α) : Quiet (pure x) := fun _ => rfl

theorem Quiet.bind {α β : Type} {g : Gen α} {f : α → Gen β} (hg : Quiet g)
    (hf : ∀ x, Quiet (f x)) : Quiet (g >>= f) := by
  intro env
  change (f (g env).1 (g env).2).2 = env
  rw [hg env]
  exact hf _ env

theorem gen_name (name : Bytes) (env : Env) : Gen.name name env =
    ((env.resolve name).elim [.constant (.string (sentinel name))] fun x => [.load x], env) := by
  have hname : Gen.name name = (get >>= fun env => (env.resolve name).elim
      (Pure.pure [.constant (.string (sentinel name))]) fun x => Pure.pure [.load x]) :=
    congrArg _ (funext fun env => by cases env.resolve name <;> rfl)
  rw [hname]
  change (env.resolve name).elim (Pure.pure _ : Gen (List Asm)) _ env = _
  cases env.resolve name <;> rfl

theorem quiet_name (name : Bytes) : Quiet (Gen.name name) := by
  refine Quiet.bind (g := get) (fun _ => rfl) fun env => ?_
  cases env.resolve name <;> exact quiet_pure _

section Quiet

variable {left right : Gen (List Asm)} {env : Env}

theorem shortCircuit_code (hleft : Quiet left) (kind : JumpKind) :
    (Gen.shortCircuit kind left right env).1 = (left env).1 ++
      [.jump kind ((right env).1.length + 1), .plain .pop] ++ (right env).1 := by
  change (left env).1 ++ [.jump kind ((right (left env).2).1.length + 1), .plain .pop] ++
    (right (left env).2).1 = _
  rw [hleft]

theorem strict_code (hleft : Quiet left) (instr : Instruction) :
    (Gen.strict instr left right env).1 = (left env).1 ++ (right env).1 ++ [.plain instr] := by
  change (left env).1 ++ (right (left env).2).1 ++ [.plain instr] = _
  rw [hleft]

theorem inOrder_append {gs : List (Gen (List Asm))} (hgs : ∀ g ∈ gs, Quiet g)
    (gs' : List (Gen (List Asm))) :
    (inOrder (gs ++ gs') env).1 = (inOrder gs env).1 ++ (inOrder gs' env).1 := by
  induction gs with
  | nil => rfl
  | cons g gs ih =>
    rw [List.forall_mem_cons] at hgs
    have hcons (rest : List (Gen (List Asm))) :
        (inOrder (g :: rest) env).1 = (g env).1 ++ (inOrder rest (g env).2).1 := rfl
    rw [List.cons_append, hcons, hcons, hgs.1, ih hgs.2, List.append_assoc]

end Quiet

theorem quiet_inOrder {gs : List (Gen (List Asm))} (h : ∀ g ∈ gs, Quiet g) :
    Quiet (inOrder gs) := by
  induction gs with
  | nil => exact quiet_pure _
  | cons g gs ih =>
    rw [List.forall_mem_cons] at h
    exact h.1.bind fun _ => (ih h.2).bind fun _ => quiet_pure _

end Gen

namespace Expr.Plain

variable {e : Expr}

open Gen

theorem quiet (h : e.Plain) : Quiet e.gen.whole ∧ ∀ g ∈ e.gen.parts, Quiet g := by
  have hsingle {g : Gen (List Asm)} (hg : Quiet g) :
      Quiet (Parts.single g).whole ∧ ∀ g' ∈ (Parts.single g).parts, Quiet g' :=
    ⟨hg, List.forall_mem_singleton.mpr hg⟩
  induction h with
  | nil | true | false | integer | stringLit => exact hsingle (quiet_pure _)
  | name name s => exact hsingle (quiet_name name)
  | @binOp op left right s _ _ ihleft ihright =>
    cases op
    case concat =>
      have hparts : ∀ g ∈ left.gen.parts ++ right.gen.parts, Quiet g :=
        List.forall_mem_append.mpr ⟨ihleft.2, ihright.2⟩
      exact ⟨(quiet_inOrder hparts).bind fun _ => quiet_pure _, hparts⟩
    all_goals
      exact hsingle (ihleft.1.bind fun _ => ihright.1.bind fun _ => quiet_pure _)
  | unOp op s _ ih => exact hsingle (ih.1.bind fun _ => quiet_pure _)

theorem length_parts {heap : Heap} {ρ : Bytes → LuaValue} {vs : List LuaValue} (h : e.Plain)
    (hvs : e.values heap ρ = .ok vs) : e.gen.parts.length = vs.length := by
  have hone {r : Except LuaError LuaValue} {ws : List LuaValue} (h : r.map ([·]) = .ok ws) :
      1 = ws.length := by
    cases r with
    | error e => cases h
    | ok v =>
      cases h
      rfl
  induction h generalizing vs with
  | @binOp op left right s _ _ ihleft ihright =>
    cases op
    case concat =>
      obtain ⟨front, hfront, hvs⟩ := bind_eq_ok.mp hvs
      obtain ⟨back, hback, hvs⟩ := bind_eq_ok.mp hvs
      cases hvs
      change (left.gen.parts ++ right.gen.parts).length = (front ++ back).length
      rw [List.length_append, List.length_append, ihleft hfront, ihright hback]
    case and | or =>
      obtain ⟨x, -, hvs⟩ := bind_eq_ok.mp hvs
      split_ifs at hvs
      all_goals first | exact hone hvs | (cases hvs; rfl)
    all_goals
      obtain ⟨x, -, hvs⟩ := bind_eq_ok.mp hvs
      obtain ⟨y, -, hvs⟩ := bind_eq_ok.mp hvs
      exact hone hvs
  | unOp op s _ _ =>
    obtain ⟨x, -, hvs⟩ := bind_eq_ok.mp hvs
    exact hone hvs
  | _ =>
    cases hvs
    rfl

end Expr.Plain

namespace Activation

variable {a : Activation} {names : List Bytes} {env : Env} {ρ : Bytes → LuaValue}

/-- Wherever the code stands it leads to what the computation comes to. -/
def Leads {α : Type} (a : Activation) (names : List Bytes) (env : Env) (ρ : Bytes → LuaValue)
    (code : List Asm) (onto : α → List LuaValue) (r : Except LuaError α) : Prop :=
  ∀ out pc slots, a.Knows names env ρ slots → a.Placed names out pc code →
    a.Gives pc slots (pc + code.length) (fun x => slots ++ (onto x).map .value) r

section Leads

variable {α β γ : Type} {code code' : List Asm} {onto : α → List LuaValue}
  {onto' : β → List LuaValue} {onto'' : γ → List LuaValue} {r : Except LuaError α}
  {r' : Except LuaError β} {asm : Asm}

theorem leads_push {v : LuaValue} (h : ∀ out pc slots, a.Knows names env ρ slots →
    a.Has names out pc asm → a.Goes pc slots (pc + 1) (slots ++ [.value v])) :
    a.Leads names env ρ [asm] ([·]) (.ok v) :=
  fun out pc slots hknows hplaced => h out pc slots hknows hplaced.1

theorem Leads.append (f : α → β → γ) (honto : ∀ x y, onto'' (f x y) = onto x ++ onto' y)
    (h : a.Leads names env ρ code onto r) (h' : a.Leads names env ρ code' onto' r') :
    a.Leads names env ρ (code ++ code') onto'' (do
      let x ← r
      let y ← r'
      .ok (f x y)) := by
  intro out pc slots hknows hplaced
  obtain ⟨hfront, hback⟩ := placed_append.mp hplaced
  refine (h out pc slots hknows hfront).bind fun x _ => ?_
  refine (h' out _ _ hknows.append hback).bind fun y _ => ?_
  change a.Goes _ _ _ (slots ++ (onto'' (f x y)).map .value)
  rw [List.length_append, ← Nat.add_assoc, honto, List.map_append, ← List.append_assoc]
  exact Goes.refl _ _

/-- An instruction that works on what is there. -/
theorem Leads.operate {f : α → Except LuaError β} (h : a.Leads names env ρ code onto r)
    (hop : ∀ out pc slots x, r = .ok x → a.Has names out pc asm →
      a.Gives pc (slots ++ (onto x).map .value) (pc + 1) (fun y => slots ++ (onto' y).map .value)
        (f x)) :
    a.Leads names env ρ (code ++ [asm]) onto' (r >>= f) := by
  intro out pc slots hknows hplaced
  obtain ⟨hfront, hback⟩ := placed_append.mp hplaced
  rw [List.length_append, ← Nat.add_assoc]
  exact (h out pc slots hknows hfront).bind fun x hx => hop out _ slots x hx hback.1

theorem Leads.operateBoth {r r' : Except LuaError LuaValue}
    {f : LuaValue → LuaValue → Except LuaError LuaValue} (h : a.Leads names env ρ code ([·]) r)
    (h' : a.Leads names env ρ code' ([·]) r')
    (hop : ∀ out pc slots x y, a.Has names out pc asm →
      a.Gives pc (slots ++ [.value x] ++ [.value y]) (pc + 1) (fun v => slots ++ [.value v]) (f x y)) :
    a.Leads names env ρ (code ++ code' ++ [asm]) ([·]) (do
      let x ← r
      let y ← r'
      f x y) := by
  intro out pc slots hknows hplaced
  obtain ⟨hfront, hlast⟩ := placed_append.mp hplaced
  obtain ⟨hfront, hback⟩ := placed_append.mp hfront
  rw [List.length_append, List.length_append, ← Nat.add_assoc, ← Nat.add_assoc]
  rw [List.length_append, ← Nat.add_assoc] at hlast
  refine (h out pc slots hknows hfront).bind fun x _ => ?_
  exact (h' out _ _ hknows.append hback).bind fun y _ => hop out _ slots x y hlast.1

theorem Leads.single {r : Except LuaError LuaValue} (h : a.Leads names env ρ code ([·]) r) :
    a.Leads names env ρ (code ++ []) id (r.map ([·])) := by
  intro out pc slots hknows hplaced
  rw [List.append_nil] at hplaced ⊢
  have hgives := h out pc slots hknows hplaced
  cases r with
  | error e => exact hgives
  | ok v => exact hgives

/-- `and` and `or`: the code of the second operand is left out where the first decides. -/
theorem Leads.shortCircuit {kind : JumpKind} {decides : LuaValue → Bool}
    {r r' : Except LuaError LuaValue} (h : a.Leads names env ρ code ([·]) r)
    (h' : a.Leads names env ρ code' ([·]) r')
    (hjump : ∀ out pc slots v, a.Has names out pc (.jump kind (code'.length + 1)) →
      a.Goes pc (slots ++ [.value v]) (if decides v then pc + 1 + (code'.length + 1) else pc + 1)
        (slots ++ [.value v])) :
    a.Leads names env ρ (code ++ [.jump kind (code'.length + 1), .plain .pop] ++ code') ([·]) (do
      let v ← r
      if decides v then .ok v else r') := by
  intro out pc slots hknows hplaced
  obtain ⟨hfront, hback⟩ := placed_append.mp hplaced
  obtain ⟨hfront, hjumped, hpop, -⟩ := placed_append.mp hfront
  have hmid : pc + (code ++ [Asm.jump kind (code'.length + 1), .plain .pop]).length =
      pc + code.length + 1 + 1 := by simp [Nat.add_assoc]
  rw [List.length_append, ← Nat.add_assoc, hmid]
  rw [hmid] at hback
  refine (h out pc slots hknows hfront).bind fun v _ => ?_
  have hgo := hjump out _ slots v hjumped
  split_ifs at hgo ⊢ with hv
  · rwa [Nat.add_comm code'.length, ← Nat.add_assoc] at hgo
  · exact .after (hgo.trans (goes_pop (has_plain hpop))) (h' out _ slots hknows hback)

end Leads

end Activation

namespace Expr.Plain

open Activation Gen

variable {e : Expr} {a : Activation} {names : List Bytes} {env : Env} {ρ : Bytes → LuaValue}

/-- The code of an expression, and that of its parts. -/
theorem leads (h : e.Plain) :
    a.Leads names env ρ (e.gen.whole env).1 ([·]) (e.chained a.heap ρ) ∧
      a.Leads names env ρ (inOrder e.gen.parts env).1 id (e.values a.heap ρ) := by
  have hpush {v : LuaValue} {instr : Instruction} (hperformed : instr.IsPerformed)
      (hperform : Engine.perform a.program instr = Engine.push v) :
      a.Leads names env ρ [.plain instr] ([·]) (.ok v) ∧
        a.Leads names env ρ ([.plain instr] ++ []) id ((Except.ok v).map ([·])) := by
    have hleads : a.Leads names env ρ [.plain instr] ([·]) (.ok v) :=
      leads_push fun _ _ _ _ hhas => goes_push (has_plain hhas) hperformed hperform
    exact ⟨hleads, hleads.single⟩
  have hconstant (k : Constant) :
      a.Leads names env ρ [.constant k] ([·]) (.ok (Engine.constantToValue k)) :=
    leads_push fun _ _ _ _ hhas => goes_constant hhas
  induction h with
  | nil s => exact hpush trivial rfl
  | true s => exact hpush trivial rfl
  | false s => exact hpush trivial rfl
  | integer n s => exact ⟨hconstant _, (hconstant _).single⟩
  | stringLit bytes s => exact ⟨hconstant _, (hconstant _).single⟩
  | name name s =>
    have hname : a.Leads names env ρ (Gen.name name env).1 ([·]) (.ok (ρ name)) := by
      intro out pc slots hknows hplaced
      have hvalue := hknows name
      cases hx : env.resolve name with
      | some x =>
        have hcode : (Gen.name name env).1 = [.load x] := by
          rw [gen_name, hx]
          rfl
        rw [hx] at hvalue
        rw [hcode] at hplaced ⊢
        exact goes_load hplaced.1 hvalue
      | none =>
        have hcode : (Gen.name name env).1 = [.constant (.string (sentinel name))] := by
          rw [gen_name, hx]
          rfl
        rw [hx] at hvalue
        rw [hcode] at hplaced ⊢
        rw [show ρ name = .string (sentinel name) from hvalue]
        exact goes_constant hplaced.1
    exact ⟨hname, hname.single⟩
  | @binOp op left right s hleft hright ihleft ihright =>
    have hsingle (hwhole : a.Leads names env ρ ((Expr.binOp op left right s).gen.whole env).1 ([·])
          ((Expr.binOp op left right s).chained a.heap ρ)) (hop : op ≠ .concat)
        (hparts : (Expr.binOp op left right s).gen.parts = [(Expr.binOp op left right s).gen.whole]) :
        a.Leads names env ρ ((Expr.binOp op left right s).gen.whole env).1 ([·])
            ((Expr.binOp op left right s).chained a.heap ρ) ∧
          a.Leads names env ρ (inOrder (Expr.binOp op left right s).gen.parts env).1 id
            ((Expr.binOp op left right s).values a.heap ρ) := by
      refine ⟨hwhole, ?_⟩
      rw [values_eq_map (.binOp op s hleft hright) fun _ _ _ h => hop (Expr.binOp.inj h).1, hparts]
      exact hwhole.single
    have hstrict (hop : op.IsStrict) (instr : Instruction) (hinstr : op.instruction = some instr)
        (hgen : (Expr.binOp op left right s).gen.whole =
          Gen.strict instr left.gen.whole right.gen.whole) :
        a.Leads names env ρ ((Expr.binOp op left right s).gen.whole env).1 ([·])
          ((Expr.binOp op left right s).chained a.heap ρ) := by
      rw [hgen, strict_code hleft.quiet.1, chained_strict hop]
      exact ihleft.1.operateBoth ihright.1 fun _ _ _ x y hhas => gives_strict hinstr hhas x y
    cases op
    case concat =>
      have hparts : a.Leads names env ρ (inOrder (left.gen.parts ++ right.gen.parts) env).1 id
          ((Expr.binOp .concat left right s).values a.heap ρ) := by
        rw [inOrder_append hleft.quiet.2]
        exact ihleft.2.append (· ++ ·) (fun _ _ => rfl) ihright.2
      refine ⟨?_, hparts⟩
      rw [show ((Expr.binOp .concat left right s).gen.whole env).1 =
        (inOrder (left.gen.parts ++ right.gen.parts) env).1 ++
          [.concat (left.gen.parts ++ right.gen.parts).length] from rfl]
      refine hparts.operate fun out pc slots vs hvs hhas => ?_
      obtain ⟨_, hinstr, n, rfl, hn⟩ := hhas
      have hplain := hleft.binOp .concat s hright
      refine gives_concat hinstr vs (hn.trans (hplain.length_parts hvs)) (values_ne_nil hplain hvs)
    case and =>
      refine hsingle ?_ nofun rfl
      rw [show (Expr.binOp .and left right s).gen.whole = Gen.shortCircuit .and _ _ from rfl,
        shortCircuit_code hleft.quiet.1, chained_and]
      have hflip : (do
          let x ← left.chained a.heap ρ
          if x.isTruthy then right.chained a.heap ρ else .ok x) = (do
          let x ← left.chained a.heap ρ
          if !x.isTruthy then .ok x else right.chained a.heap ρ) :=
        congrArg _ (funext fun x => by cases x.isTruthy <;> rfl)
      rw [hflip]
      exact ihleft.1.shortCircuit ihright.1 fun _ _ _ v hhas => goes_and hhas v
    case or =>
      refine hsingle ?_ nofun rfl
      rw [show (Expr.binOp .or left right s).gen.whole = Gen.shortCircuit .or _ _ from rfl,
        shortCircuit_code hleft.quiet.1, chained_or]
      exact ihleft.1.shortCircuit ihright.1 fun _ _ _ v hhas => goes_or hhas v
    all_goals exact hsingle (hstrict trivial _ rfl rfl) nofun rfl
  | @unOp op operand s hoperand ih =>
    have hcode : ((Expr.unOp op operand s).gen.whole env).1 =
        (operand.gen.whole env).1 ++ [.plain op.instruction] := rfl
    have hwhole : a.Leads names env ρ ((Expr.unOp op operand s).gen.whole env).1 ([·])
        ((Expr.unOp op operand s).chained a.heap ρ) := by
      rw [hcode, chained_unOp]
      exact ih.1.operate fun _ _ _ x _ hhas => gives_unOp op hhas x
    refine ⟨hwhole, ?_⟩
    rw [values_eq_map (.unOp op s hoperand) nofun]
    exact hwhole.single

end Expr.Plain

end Proveno
