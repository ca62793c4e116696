import Proveno.Parser.Productions

/-! Trees of operators over operands that are no longer looked into, how they are read in order
from the tokens, and which of them respect precedence and associativity. -/

namespace Proveno.Parser

/-- How tightly a binary operator binds. -/
def prec : BinOpKind → Nat
  | .or => 1
  | .and => 2
  | .lt | .le | .gt | .ge | .eq | .ne => 3
  | .concat => 4
  | .add | .sub => 5
  | .mul | .iDiv | .mod => 6

def rightAssoc (op : BinOpKind) : Bool := op = .concat

theorem rightAssoc_of_prec {op op' : BinOpKind} (h : prec op = prec op') :
    rightAssoc op = rightAssoc op' := by
  cases op <;> cases op' <;> first | rfl | cases h

theorem binOpOf_spec {t : Token} {op : BinOpKind} {p : Nat} {assoc : Bool}
    (h : binOpOf t = some (op, p, assoc)) : p = prec op ∧ assoc = rightAssoc op := by
  cases t
  all_goals first
    | cases h
      exact ⟨rfl, rfl⟩
    | cases h

theorem unOpOf_ne_eof {t : Token} {op : UnOpKind} (h : unOpOf t = some op) : t ≠ .eof := by
  rintro rfl
  cases h

theorem binOpOf_ne_eof {t : Token} {r : BinOpKind × Nat × Bool} (h : binOpOf t = some r) :
    t ≠ .eof := by
  rintro rfl
  cases h

/-- The tokens with which a suffix of an operand begins. -/
def startsSuffix : Token → Bool
  | .dot | .lBracket | .colon | .lParen | .stringLit _ | .lBrace => true
  | _ => false

/-- An operand stands for the whole of a suffixed expression, parenthesised ones included. -/
inductive OpTree
  | operand (expr : Expr)
  | unary (op : UnOpKind) (span : Span) (x : OpTree)
  | binary (op : BinOpKind) (span : Span) (l r : OpTree)

namespace OpTree

def expr : OpTree → Expr
  | operand e => e
  | unary op span x => .unOp op x.expr span
  | binary op span l r => .binOp op l.expr r.expr span

/-- The operator of a binary node. -/
def root : OpTree → Option BinOpKind
  | binary op _ _ _ => some op
  | _ => none

/-- What may stand to the left of a binary operator. -/
def FitsLeft (op : BinOpKind) (child : OpTree) : Prop :=
  ∀ op', child.root = some op' →
    ¬prec op' < prec op ∧ ¬(prec op' = prec op ∧ rightAssoc op = true)

/-- What may stand to the right of a binary operator. -/
def FitsRight (op : BinOpKind) (child : OpTree) : Prop :=
  ∀ op', child.root = some op' →
    ¬prec op' < prec op ∧ ¬(prec op' = prec op ∧ rightAssoc op = false)

/-- Every node of the tree respects precedence and associativity. -/
def WellShaped : OpTree → Prop
  | operand _ => True
  | unary _ _ x => x.root = none ∧ x.WellShaped
  | binary op _ l r => FitsLeft op l ∧ FitsRight op r ∧ l.WellShaped ∧ r.WellShaped

end OpTree

/-- The tokens from `i` to `j` are one operand. -/
def IsOperand (tokens : List SpannedToken) (i j : Nat) (e : Expr) : Prop :=
  ∃ depth, (parseSuffixedExpr (productions depth)).run ⟨tokens, i⟩ = (.ok e, ⟨tokens, j⟩)

/-- The tokens from `i` to `j` are the operators and operands of the tree, in order. -/
inductive Reads (tokens : List SpannedToken) : OpTree → Nat → Nat → Prop
  | operand {e : Expr} {i j : Nat} (h : IsOperand tokens i j e) : Reads tokens (.operand e) i j
  | unary {op : UnOpKind} {t : SpannedToken} {x : OpTree} {i j : Nat} (ht : tokens[i]? = some t)
      (hop : unOpOf t.token = some op) (hx : Reads tokens x (i + 1) j) :
      Reads tokens (.unary op t.span x) i j
  | binary {op : BinOpKind} {t : SpannedToken} {l r : OpTree} {i k j p : Nat} {assoc : Bool}
      (hl : Reads tokens l i k) (ht : tokens[k]? = some t)
      (hop : binOpOf t.token = some (op, p, assoc)) (hr : Reads tokens r (k + 1) j) :
      Reads tokens (.binary op t.span l r) i j

/-- No suffix follows, and no operator that binds at least as tightly as asked for. -/
def Stops (tokens : List SpannedToken) (minPrec q : Nat) : Prop :=
  ∀ t, tokens[q]? = some t → startsSuffix t.token = false ∧
    ∀ op p assoc, binOpOf t.token = some (op, p, assoc) → p < minPrec

def NoSuffix (tokens : List SpannedToken) (q : Nat) : Prop :=
  ∀ t, tokens[q]? = some t → startsSuffix t.token = false

/-- What `parse_unop` gives from `p` to `q`. -/
def UnopPost (tokens : List SpannedToken) (p : Nat) (e : Expr) (q : Nat) : Prop :=
  p < q ∧ NoSuffix tokens q ∧
    ∃ tree : OpTree, tree.expr = e ∧ Reads tokens tree p q ∧ tree.WellShaped ∧ tree.root = none

/-- What `parse_binop` gives from `p` to `q`. -/
def BinopPost (tokens : List SpannedToken) (minPrec p : Nat) (e : Expr) (q : Nat) : Prop :=
  p < q ∧ Stops tokens minPrec q ∧
    ∃ tree : OpTree, tree.expr = e ∧ Reads tokens tree p q ∧ tree.WellShaped ∧
      ∀ op, tree.root = some op → minPrec ≤ prec op

/-- The tree read so far, to the left of the operator at hand if there is one. -/
def LeftPost (tokens : List SpannedToken) (minPrec p : Nat) (e : Expr) (k : Nat) : Prop :=
  p < k ∧ NoSuffix tokens k ∧
    ∃ tree : OpTree, tree.expr = e ∧ Reads tokens tree p k ∧ tree.WellShaped ∧
      (∀ op, tree.root = some op → minPrec ≤ prec op) ∧
      ∀ t op pr assoc, tokens[k]? = some t → binOpOf t.token = some (op, pr, assoc) →
        tree.FitsLeft op

section

variable {tokens : List SpannedToken} {minPrec p k q : Nat} {left right : Expr}

theorem UnopPost.leftPost (h : UnopPost tokens p left k) : LeftPost tokens minPrec p left k := by
  obtain ⟨hlt, hsuffix, tree, hexpr, hreads, hshaped, hroot⟩ := h
  have hnone (op : BinOpKind) : tree.root ≠ some op := by rw [hroot]; nofun
  exact ⟨hlt, hsuffix, tree, hexpr, hreads, hshaped, fun op h => absurd h (hnone op),
    fun _ _ _ _ _ _ op' h => absurd h (hnone op')⟩

/-- The loop ends: no operator follows, or one that binds too loosely. -/
theorem LeftPost.stop (h : LeftPost tokens minPrec p left k)
    (hstop : ∀ t op pr assoc, tokens[k]? = some t → binOpOf t.token = some (op, pr, assoc) →
      pr < minPrec) : BinopPost tokens minPrec p left k := by
  obtain ⟨hlt, hsuffix, tree, hexpr, hreads, hshaped, hroot, -⟩ := h
  exact ⟨hlt, fun t ht => ⟨hsuffix t ht, fun op pr assoc hop => hstop t op pr assoc ht hop⟩,
    tree, hexpr, hreads, hshaped, hroot⟩

/-- The loop goes on: what has been read becomes the left operand of the operator at hand. -/
theorem LeftPost.extend {t : SpannedToken} {op : BinOpKind} {pr : Nat} {assoc : Bool}
    (h : LeftPost tokens minPrec p left k) (ht : tokens[k]? = some t)
    (hop : binOpOf t.token = some (op, pr, assoc)) (hmin : minPrec ≤ pr)
    (hright : BinopPost tokens (if assoc then pr else pr + 1) (k + 1) right q) :
    LeftPost tokens minPrec p (.binOp op left right t.span) q := by
  obtain ⟨hlt, -, l, rfl, hl, hlshaped, -, hfits⟩ := h
  obtain ⟨hkq, hstops, r, rfl, hr, hrshaped, hroot⟩ := hright
  obtain ⟨rfl, rfl⟩ := binOpOf_spec hop
  have hfitsRight : r.FitsRight op := by
    intro op' hop'
    have hle := hroot op' hop'
    cases hassoc : rightAssoc op with
    | true =>
      rw [hassoc, if_pos rfl] at hle
      exact ⟨by omega, nofun⟩
    | false =>
      rw [hassoc, if_neg (by decide)] at hle
      exact ⟨by omega, by omega⟩
  refine ⟨by omega, fun t' ht' => (hstops t' ht').1, .binary op t.span l r, rfl,
    .binary hl ht hop hr, ⟨hfits t op _ _ ht hop, hfitsRight, hlshaped, hrshaped⟩, ?_, ?_⟩
  · rintro op' ⟨⟩
    exact hmin
  · rintro t' op' pr' assoc' ht' hop' op'' ⟨⟩
    have hlt' := (hstops t' ht').2 op' pr' assoc' hop'
    obtain ⟨rfl, rfl⟩ := binOpOf_spec hop'
    cases hassoc : rightAssoc op with
    | true =>
      rw [hassoc, if_pos rfl] at hlt'
      exact ⟨by omega, by omega⟩
    | false =>
      rw [hassoc, if_neg (by decide)] at hlt'
      refine ⟨by omega, fun hsame => ?_⟩
      rw [← rightAssoc_of_prec hsame.1, hassoc] at hsame
      cases hsame.2

end

end Proveno.Parser
