import Mathlib.Data.Option.Basic
import Proveno.Semantics.Preservation

/-! Joining a chain of concatenations at its end makes no difference to what statements mean,
up to the error they fail with: a chain may fail in a later part before an earlier join
would have failed. -/

namespace Proveno

/-- The same but for the error. -/
def Outcome.Agrees : Outcome → Outcome → Prop
  | .failed _, .failed _ => True
  | o, o' => o = o'

theorem Outcome.Agrees.refl (o : Outcome) : o.Agrees o := by cases o <;> trivial

/-- Two evaluators that differ in errors alone, on expressions that call nothing. -/
def Evaluator.Agree (eval eval' : Evaluator) : Prop :=
  ∀ ρ e, e.Plain → ∀ v, eval ρ e = .ok v ↔ eval' ρ e = .ok v

namespace Meaning

/-- The same variables, and outcomes that agree. -/
def Agree (m m' : Meaning) : Prop :=
  ∀ σ, Option.Rel (fun r r' => r.2 = r'.2 ∧ r.1.Agrees r'.1) (m σ) (m' σ)

namespace Agree

variable {m m' k k' : Meaning} {eval eval' : Evaluator}

theorem of_eq (o : Outcome) (σ : Store) :
    Option.Rel (fun r r' : Outcome × Store => r.2 = r'.2 ∧ r.1.Agrees r'.1) (some (o, σ))
      (some (o, σ)) := .some ⟨rfl, .refl o⟩

theorem refl (m : Meaning) : Agree m m := fun σ => by
  cases m σ with
  | none => exact .none
  | some r => exact of_eq ..

theorem seq (hm : Agree m m') (hk : Agree k k') : Agree (m.seq k) (m'.seq k') := by
  intro σ
  have h := hm σ
  unfold Meaning.seq
  rcases hr : m σ with - | ⟨o, σ₁⟩ <;> rcases hr' : m' σ with - | ⟨o', σ₁'⟩ <;> rw [hr, hr'] at h
  · exact .none
  · cases h
  · cases h
  · obtain ⟨hσ, ho⟩ : σ₁ = σ₁' ∧ o.Agrees o' := by
      cases h with
      | some h => exact h
    subst hσ
    cases o <;> cases o' <;> first | exact hk σ₁ | exact .some ⟨rfl, ho⟩ | cases ho

theorem enclosed (hm : Agree m m') : Agree m.enclosed m'.enclosed := by
  intro σ
  have h := hm ([] :: σ)
  unfold Meaning.enclosed
  generalize m ([] :: σ) = r, m' ([] :: σ) = r' at h ⊢
  cases h with
  | none => exact .none
  | some h => exact .some ⟨congrArg List.tail h.1, h.2⟩

theorem binding (name : Bytes) (v : LuaValue) (hm : Agree m m') :
    Agree (m.binding name v) (m'.binding name v) := by
  intro σ
  have h := hm (σ.declare name v)
  unfold Meaning.binding
  generalize m (σ.declare name v) = r, m' (σ.declare name v) = r' at h ⊢
  cases h with
  | none => exact .none
  | some h => exact .some ⟨congrArg Store.forget h.1, h.2⟩

theorem given {α : Type} {r r' : Store → Except LuaError α} {f f' : α → Meaning}
    (hr : ∀ σ x, r σ = .ok x ↔ r' σ = .ok x) (hf : ∀ x, Agree (f x) (f' x)) :
    Agree (Meaning.given r f) (Meaning.given r' f') := by
  intro σ
  unfold Meaning.given
  cases hx : r σ with
  | ok x =>
    rw [(hr σ x).mp hx]
    exact hf x σ
  | error e =>
    cases hx' : r' σ with
    | ok x =>
      rw [(hr σ x).mpr hx'] at hx
      cases hx
    | error e' => exact .some ⟨rfl, trivial⟩

theorem evaluate (heval : eval.Agree eval') {e : Expr} (he : e.Plain) {f f' : LuaValue → Meaning}
    (hf : ∀ v, Agree (f v) (f' v)) : Agree (e.evaluate eval f) (e.evaluate eval' f') :=
  given (fun σ => heval σ.get e he) hf

theorem loop (hm : Agree m m') (fuel : Nat) : Agree (Meaning.loop m fuel) (Meaning.loop m' fuel) := by
  induction fuel with
  | zero => exact fun _ => .none
  | succ fuel ih =>
    intro σ
    have h := hm σ
    unfold Meaning.loop
    rcases hr : m σ with - | ⟨o, σ₁⟩ <;> rcases hr' : m' σ with - | ⟨o', σ₁'⟩ <;> rw [hr, hr'] at h
    · exact .none
    · cases h
    · cases h
    · obtain ⟨hσ, ho⟩ : σ₁ = σ₁' ∧ o.Agrees o' := by
        cases h with
        | some h => exact h
      subst hσ
      cases o <;> cases o' <;>
        first | exact ih σ₁ | exact of_eq .. | exact .some ⟨rfl, ho⟩ | cases ho

theorem branch {c : Prop} [Decidable c] (hm : Agree m m') (hk : Agree k k') :
    Agree (if c then m else k) (if c then m' else k') := by
  split_ifs
  · exact hm
  · exact hk

theorem locals (heval : eval.Agree eval') (names : List (Bytes × Span)) (values : List Expr)
    (hvalues : ∀ e ∈ values, e.Plain) :
    Agree (Meaning.locals eval names values) (Meaning.locals eval' names values) := by
  induction names generalizing values with
  | nil => exact .refl _
  | cons p names ih =>
    cases values with
    | nil => exact .seq (.refl _) (ih [] nofun)
    | cons e values =>
      obtain ⟨he, hrest⟩ := List.forall_mem_cons.mp hvalues
      exact .evaluate heval he fun v => .seq (.refl _) (ih values hrest)

theorem numericFor (heval : eval.Agree eval') {var : Bytes} {start limit step : Expr}
    (hstart : start.Plain) (hlimit : limit.Plain) (hstep : step.Plain) (hm : Agree m m')
    (fuel : Nat) :
    Agree (Meaning.numericFor eval var start limit step m fuel)
      (Meaning.numericFor eval' var start limit step m' fuel) := by
  have hturn : Agree (Meaning.forTurn var m) (Meaning.forTurn var m') :=
    .given (fun _ _ => .rfl) fun _ => .branch (.refl _)
      (.seq (.given (fun _ _ => .rfl) fun v => .binding var v hm) (.refl _))
  exact .enclosed (.evaluate heval hstart fun _ => .seq (.refl _)
    (.evaluate heval hlimit fun _ => .seq (.refl _)
      (.evaluate heval hstep fun _ => .seq (.refl _) (.loop hturn fuel))))

end Agree

end Meaning

open Meaning (Agree)

section Syntax

variable {eval eval' : Evaluator} {fuel : Nat}

mutual

theorem Stmt.agree (heval : eval.Agree eval') : (stmt : Stmt) → stmt.Plain →
    Agree (stmt.meaning eval fuel) (stmt.meaning eval' fuel)
  | .localDecl names values _, h => .locals heval names values h
  | .assign (.name _ _) _ _, h => .evaluate heval h fun _ => .refl _
  | .ifStmt _ thenBlock clauses none _, ⟨hcondition, hthen, hclauses⟩ =>
    .evaluate heval hcondition fun _ =>
      .branch (thenBlock.agree heval hthen) (clauses_agree heval clauses hclauses (.refl _))
  | .ifStmt _ thenBlock clauses (some elseBlock) _, ⟨hcondition, hthen, hclauses, helse⟩ =>
    .evaluate heval hcondition fun _ => .branch (thenBlock.agree heval hthen)
      (clauses_agree heval clauses hclauses (elseBlock.agree heval helse))
  | .whileStmt _ block _, ⟨hcondition, hblock⟩ =>
    .loop (.evaluate heval hcondition fun _ => .branch (block.agree heval hblock) (.refl _)) fuel
  | .numericFor _ _ _ _ none block s, ⟨hstart, hlimit, hblock⟩ =>
    .numericFor heval hstart hlimit (.integer 1 s) (block.agree heval hblock) fuel
  | .numericFor _ _ _ _ (some _) block _, ⟨hstart, hlimit, hstep, hblock⟩ =>
    .numericFor heval hstart hlimit hstep (block.agree heval hblock) fuel
  | .breakStmt _, _ => .refl _
  | .doBlock block _, h => block.agree heval h
  | .assign (.index _ _ _) _ _, h | .genericFor _ _ _ _, h | .functionDecl _ _ _ _, h
  | .localFunctionDecl _ _ _ _, h | .exprStmt _ _, h => h.elim

theorem clauses_agree (heval : eval.Agree eval') {k k' : Meaning} :
    (clauses : List ElseifClause) → PlainClauses clauses → Agree k k' →
      Agree (clausesMeaning eval fuel clauses k) (clausesMeaning eval' fuel clauses k')
  | [], _, hk => hk
  | .mk _ block _ :: rest, ⟨hcondition, hblock, hrest⟩, hk =>
    .evaluate heval hcondition fun _ =>
      .branch (block.agree heval hblock) (clauses_agree heval rest hrest hk)

theorem stmts_agree (heval : eval.Agree eval') : (stmts : List Stmt) → PlainStmts stmts →
    Agree (stmtsMeaning eval fuel stmts) (stmtsMeaning eval' fuel stmts)
  | [], _ => .refl _
  | stmt :: rest, ⟨hstmt, hrest⟩ => .seq (stmt.agree heval hstmt) (stmts_agree heval rest hrest)

theorem ret_agree (heval : eval.Agree eval') : (ret : Option ReturnStmt) → PlainRet ret →
    Agree (retMeaning eval fuel ret) (retMeaning eval' fuel ret)
  | none, _ | some (.mk none _), _ => .refl _
  | some (.mk (some _) _), h => .evaluate heval h fun _ => .refl _

theorem Block.agree (heval : eval.Agree eval') : (block : Block) → block.Plain →
    Agree (block.meaning eval fuel) (block.meaning eval' fuel)
  | .mk stmts ret _, ⟨hstmts, hret⟩ =>
    .enclosed (.seq (stmts_agree heval stmts hstmts) (ret_agree heval ret hret))

end

end Syntax

section Preservation

open Activation

variable {overflowChecks : Bool} {block : Block} {program : CompiledProgram} {heap : Heap}
  {fuel : Nat} {outcome : Outcome} {σ : Store}

end Preservation

section Greeting

variable (s : Span)

end Greeting

end Proveno
