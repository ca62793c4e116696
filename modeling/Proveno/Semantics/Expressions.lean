import Proveno.Parser.Ast
import Proveno.Types.Heap

/-! What expressions mean that call nothing and make nothing, by a direct evaluator; and what
their chains of concatenations come to when the parts are evaluated first and then joined. -/

namespace Proveno

/-- The length of a string, or of the array part of a table. -/
def lengthOf (heap : Heap) : LuaValue → Except LuaError LuaValue
  | .string s => .ok (.integer (Int64.ofNat s.length))
  | .table t => .ok (.integer (Int64.ofNat (heap.table t).length))
  | _ => .error .type

def UnOpKind.apply (heap : Heap) : UnOpKind → LuaValue → Except LuaError LuaValue
  | .neg => LuaValue.luaUnm
  | .not => fun v => .ok (.boolean (!v.isTruthy))
  | .len => lengthOf heap

/-- Whether one value comes so before or after another. -/
def compared (test : Ordering → Bool) (a b : LuaValue) : Except LuaError LuaValue :=
  (a.luaCmp b).map fun ord => .boolean (test ord)

/-- An operator on two values; `and` and `or` have the second then. -/
def BinOpKind.apply : BinOpKind → LuaValue → LuaValue → Except LuaError LuaValue
  | .add => LuaValue.luaAdd
  | .sub => LuaValue.luaSub
  | .mul => LuaValue.luaMul
  | .iDiv => LuaValue.luaIdiv
  | .mod => LuaValue.luaMod
  | .eq => fun a b => .ok (.boolean (a == b))
  | .ne => fun a b => .ok (.boolean (a != b))
  | .lt => compared Ordering.isLT
  | .le => compared Ordering.isLE
  | .gt => compared Ordering.isGT
  | .ge => compared Ordering.isGE
  | .concat => LuaValue.luaConcat
  | .and | .or => fun _ b => .ok b

/-- The operators that evaluate both operands and are not part of a chain. -/
def BinOpKind.IsStrict : BinOpKind → Prop
  | .and | .or | .concat => False
  | _ => True

/-- The values joined from the left. -/
def joined : List LuaValue → Except LuaError LuaValue
  | [] => .error .runtime
  | first :: rest => rest.foldlM LuaValue.luaConcat first

namespace Expr

/-- Expressions that call nothing and make nothing. -/
inductive Plain : Expr → Prop
  | nil (s : Span) : Plain (.nil s)
  | true (s : Span) : Plain (.true s)
  | false (s : Span) : Plain (.false s)
  | integer (n : Int64) (s : Span) : Plain (.integer n s)
  | stringLit (bytes : Bytes) (s : Span) : Plain (.stringLit bytes s)
  | name (name : Bytes) (s : Span) : Plain (.name name s)
  | binOp (op : BinOpKind) {left right : Expr} (s : Span) (hleft : Plain left)
      (hright : Plain right) : Plain (.binOp op left right s)
  | unOp (op : UnOpKind) {operand : Expr} (s : Span) (h : Plain operand) :
      Plain (.unOp op operand s)

/-- The value of an expression, given those of the names. -/
def value (heap : Heap) (ρ : Bytes → LuaValue) : Expr → Except LuaError LuaValue
  | .nil _ => .ok .nil
  | .true _ => .ok (.boolean Bool.true)
  | .false _ => .ok (.boolean Bool.false)
  | .integer n _ => .ok (.integer n)
  | .stringLit bytes _ => .ok (.string bytes)
  | .name x _ => .ok (ρ x)
  | .binOp op left right _ => do
    let a ← left.value heap ρ
    match op with
    | .and => if a.isTruthy then right.value heap ρ else .ok a
    | .or => if a.isTruthy then .ok a else right.value heap ρ
    | op => do
      let b ← right.value heap ρ
      op.apply a b
  | .unOp op operand _ => do
    let a ← operand.value heap ρ
    op.apply heap a
  | _ => .error .runtime

/-- The values of the parts of a chain of concatenations; any other expression is a part of
its own. -/
def values (heap : Heap) (ρ : Bytes → LuaValue) : Expr → Except LuaError (List LuaValue)
  | .nil _ => .ok [.nil]
  | .true _ => .ok [.boolean Bool.true]
  | .false _ => .ok [.boolean Bool.false]
  | .integer n _ => .ok [.integer n]
  | .stringLit bytes _ => .ok [.string bytes]
  | .name x _ => .ok [ρ x]
  | .binOp op left right _ =>
    match op with
    | .concat => do
      let vs ← left.values heap ρ
      let ws ← right.values heap ρ
      .ok (vs ++ ws)
    | .and => do
      let a ← left.values heap ρ >>= joined
      if a.isTruthy then (right.values heap ρ >>= joined).map ([·]) else .ok [a]
    | .or => do
      let a ← left.values heap ρ >>= joined
      if a.isTruthy then .ok [a] else (right.values heap ρ >>= joined).map ([·])
    | op => do
      let a ← left.values heap ρ >>= joined
      let b ← right.values heap ρ >>= joined
      (op.apply a b).map ([·])
  | .unOp op operand _ => do
    let a ← operand.values heap ρ >>= joined
    (op.apply heap a).map ([·])
  | _ => .error .runtime

/-- The value of an expression whose chains are joined once all of their parts are there. -/
def chained (heap : Heap) (ρ : Bytes → LuaValue) (e : Expr) : Except LuaError LuaValue :=
  e.values heap ρ >>= joined

end Expr

section Joined

variable {a b c v : LuaValue} {vs ws : List LuaValue}

theorem bind_eq_ok {α β : Type} {r : Except LuaError α} {f : α → Except LuaError β} {y : β} :
    (r >>= f) = .ok y ↔ ∃ x, r = .ok x ∧ f x = .ok y := by
  cases r with
  | error e => exact ⟨nofun, fun ⟨_, h, _⟩ => by cases h⟩
  | ok x => exact ⟨fun h => ⟨x, rfl, h⟩, fun ⟨_, h, h'⟩ => by cases h; exact h'⟩

end Joined

namespace Expr

variable {heap : Heap} {ρ : Bytes → LuaValue} {e left right : Expr} {v : LuaValue}
  {vs : List LuaValue}

theorem map_bind_joined (r : Except LuaError LuaValue) : (r.map ([·]) >>= joined) = r := by
  cases r <;> rfl

theorem values_and (left right : Expr) (s : Span) :
    (Expr.binOp .and left right s).values heap ρ = (do
      let a ← left.chained heap ρ
      if a.isTruthy then (right.chained heap ρ).map ([·]) else .ok [a]) := rfl

theorem values_or (left right : Expr) (s : Span) :
    (Expr.binOp .or left right s).values heap ρ = (do
      let a ← left.chained heap ρ
      if a.isTruthy then .ok [a] else (right.chained heap ρ).map ([·])) := rfl

theorem values_unOp (op : UnOpKind) (operand : Expr) (s : Span) :
    (Expr.unOp op operand s).values heap ρ = (do
      let a ← operand.chained heap ρ
      (op.apply heap a).map ([·])) := rfl

theorem chained_and (left right : Expr) (s : Span) :
    (Expr.binOp .and left right s).chained heap ρ = (do
      let a ← left.chained heap ρ
      if a.isTruthy then right.chained heap ρ else .ok a) := by
  rw [chained, values_and, bind_assoc]
  refine congrArg _ (funext fun a => ?_)
  split_ifs
  · exact map_bind_joined _
  · rfl

theorem chained_or (left right : Expr) (s : Span) :
    (Expr.binOp .or left right s).chained heap ρ = (do
      let a ← left.chained heap ρ
      if a.isTruthy then .ok a else right.chained heap ρ) := by
  rw [chained, values_or, bind_assoc]
  refine congrArg _ (funext fun a => ?_)
  split_ifs
  · rfl
  · exact map_bind_joined _

theorem values_strict {op : BinOpKind} (hop : op.IsStrict) (left right : Expr) (s : Span) :
    (Expr.binOp op left right s).values heap ρ = (do
      let a ← left.chained heap ρ
      let b ← right.chained heap ρ
      (op.apply a b).map ([·])) := by
  cases op
  case and | or | concat => exact hop.elim
  all_goals rfl

theorem chained_strict {op : BinOpKind} (hop : op.IsStrict) (left right : Expr) (s : Span) :
    (Expr.binOp op left right s).chained heap ρ = (do
      let a ← left.chained heap ρ
      let b ← right.chained heap ρ
      op.apply a b) := by
  rw [chained, values_strict hop, bind_assoc]
  refine congrArg _ (funext fun a => ?_)
  rw [bind_assoc]
  exact congrArg _ (funext fun b => map_bind_joined _)

theorem chained_unOp (op : UnOpKind) (operand : Expr) (s : Span) :
    (Expr.unOp op operand s).chained heap ρ = (do
      let a ← operand.chained heap ρ
      op.apply heap a) := by
  rw [chained, values_unOp, bind_assoc]
  exact congrArg _ (funext fun a => map_bind_joined _)

theorem values_ne_nil (hplain : e.Plain) (h : e.values heap ρ = .ok vs) : vs ≠ [] := by
  have hone {r : Except LuaError LuaValue} {ws : List LuaValue} (h : r.map ([·]) = .ok ws) :
      ws ≠ [] := by
    cases r with
    | error e => cases h
    | ok v =>
      cases h
      exact List.cons_ne_nil _ _
  induction hplain generalizing vs with
  | @binOp op left right s _ _ ihleft _ =>
    cases op
    case concat =>
      obtain ⟨front, hfront, h⟩ := bind_eq_ok.mp h
      obtain ⟨back, -, h⟩ := bind_eq_ok.mp h
      cases h
      exact List.append_ne_nil_of_left_ne_nil (ihleft hfront) _
    case and | or =>
      obtain ⟨a, -, h⟩ := bind_eq_ok.mp h
      split_ifs at h
      all_goals first | exact hone h | (cases h; exact List.cons_ne_nil _ _)
    all_goals
      obtain ⟨a, -, h⟩ := bind_eq_ok.mp h
      obtain ⟨b, -, h⟩ := bind_eq_ok.mp h
      exact hone h
  | unOp op s _ _ =>
    obtain ⟨a, -, h⟩ := bind_eq_ok.mp h
    exact hone h
  | _ =>
    cases h
    exact List.cons_ne_nil _ _

/-- An expression that is no chain is a part of its own. -/
theorem values_eq_map (hplain : e.Plain) (hchain : ∀ left right s, e ≠ .binOp .concat left right s) :
    e.values heap ρ = (e.chained heap ρ).map ([·]) := by
  have hbind {r : Except LuaError LuaValue} (f : LuaValue → Except LuaError LuaValue) :
      (r >>= fun a => (f a).map ([·])) = (r >>= f).map ([·]) := by
    cases r <;> rfl
  cases hplain with
  | @binOp op left right s _ _ =>
    cases op
    case concat => exact absurd rfl (hchain left right s)
    case and =>
      rw [chained_and, values_and, ← hbind]
      refine congrArg _ (funext fun a => ?_)
      split_ifs <;> rfl
    case or =>
      rw [chained_or, values_or, ← hbind]
      refine congrArg _ (funext fun a => ?_)
      split_ifs <;> rfl
    all_goals
      rw [chained_strict]
      · rw [values_strict, ← hbind]
        · exact congrArg _ (funext fun a => hbind _)
        · trivial
      · trivial
  | unOp op s _ =>
    rw [chained_unOp, ← hbind]
    rfl
  | _ => rfl

end Expr

end Proveno
