import Proveno.Lib.Triple

/-! Loops that a computation on a state leaves by a `break`: each turn goes on with a value or
ends the loop with a result. A turn that makes a measure of the state smaller bounds their
number. -/

namespace Exec

variable {E S α β : Type}

/-- A failure that is an error of the computation's own. -/
def Raised (e : Failure E) (_ : S) : Prop := ∃ err, e = .raised err

/-- `loop { … }`, with at most so many turns. -/
def loop (turn : α → Exec (Failure E) S (α ⊕ β)) : Nat → α → Exec (Failure E) S β
  | 0, _ => throw .outOfFuel
  | fuel + 1, a => do
    match ← turn a with
    | .inl next => loop turn fuel next
    | .inr result => pure result

variable {turn : α → Exec (Failure E) S (α ⊕ β)} {fuel : Nat} {a next : α} {result : β}
  {s s' : S}

theorem loop_run_inl (h : (turn a).run s = (.ok (.inl next), s')) :
    (loop turn (fuel + 1) a).run s = (loop turn fuel next).run s' :=
  run_bind_ok h

theorem loop_run_inr (h : (turn a).run s = (.ok (.inr result), s')) :
    (loop turn (fuel + 1) a).run s = (.ok result, s') :=
  run_bind_ok h

theorem loop_run_error {e : Failure E} (h : (turn a).run s = (.error e, s')) :
    (loop turn (fuel + 1) a).run s = (.error e, s') :=
  run_bind_error h

/-- A turn that ends the loop with what another computation gives. -/
theorem loop_run_break {m : Exec (Failure E) S β}
    (h : (turn a).run s = (m >>= fun result => pure (.inr result)).run s') :
    (loop turn (fuel + 1) a).run s = m.run s' := by
  rw [run_bind] at h
  rcases hrun : m.run s' with ⟨e | result, s''⟩
  · rw [hrun] at h
    exact loop_run_error h
  · rw [hrun] at h
    exact loop_run_inr h

/-- What a turn keeps, and makes smaller whenever the loop goes on, carries over to the loop. -/
theorem Meets.loop {inv : α → S → Prop} {size : S → Nat} {post : β → S → Prop}
    {failed : Failure E → S → Prop}
    (hturn : ∀ a n, Meets (fun s => inv a s ∧ size s ≤ n) (turn a)
      (fun r s => match r with
        | .inl next => inv next s ∧ size s < n
        | .inr result => post result s) failed) (fuel : Nat) (a : α) :
    Meets (fun s => inv a s ∧ size s < fuel) (Exec.loop turn fuel a) post failed := by
  induction fuel generalizing a with
  | zero => exact fun s hs => absurd hs.2 (Nat.not_lt_zero _)
  | succ fuel ih =>
    have hstep := (hturn a fuel).mono 
      (fun s (hs : inv a s ∧ size s < fuel + 1) => ⟨hs.1, Nat.le_of_lt_succ hs.2⟩)
      (fun _ _ h => h) (fun _ _ h => h)
    rw [Exec.loop]
    refine hstep.bind fun r => ?_
    cases r with
    | inl next => exact ih next
    | inr result => exact Meets.pure fun _ h => h

end Exec
