import Proveno.Compiler.Expressions

/-! Jumps forward are emitted before it is known how far they go: once what they jump over
has been emitted they are given their distance. -/

namespace Proveno

open List (Forall₂)

/-- Code with a jump over it. -/
def Gen.jumpOver (kind : JumpKind) (g : Gen (List Asm)) : Gen (List Asm) := do
  let code ← g
  pure (.jump kind code.length :: code)

theorem captures_jump (front back : List Asm) (kind kind' : JumpKind) (d d' : Int) :
    captures (front ++ .jump kind d :: back) = captures (front ++ .jump kind' d' :: back) := by
  rw [captures_append, captures_append]
  rfl

namespace Compiler

variable {c c' c'' : Compiler} {front back code : List Asm} {A : Set (Bytes × Nat)}
  {kind : JumpKind} {d : Int} {line : UInt32}

theorem positions_jump (base : Nat) (front back : List Asm) (kind : JumpKind) (d d' : Int) :
    positions base (front ++ .jump kind d :: back) =
      positions base (front ++ .jump kind d' :: back) := by
  rw [positions_append, positions_append]
  rfl

theorem run_patchJump (idx : Nat) (c : Compiler) :
    (patchJump idx).run c = (patchJumpTo idx c.codeLen).run c := rfl

/-- A jump that has been emitted is given its distance. -/
theorem Emission.patch {target : Nat} (h : c.Emission (front ++ .jump kind d :: back) A c')
    (hrun : (patchJumpTo (c.codeLen + front.length) target).run c' = (.ok (), c'')) :
    c.Emission (front ++ .jump kind ((target : Int) - (c.codeLen + front.length : Nat) - 1) :: back)
      A c'' ∧ c''.env = c'.env ∧ c''.codeLen = c'.codeLen := by
  obtain ⟨hgrown, more, rfl⟩ := h.toGrown.patch (.inr ⟨d, rfl⟩) hrun
  refine ⟨⟨hgrown, ?_, ?_⟩, rfl, ?_⟩
  · rw [positions_jump _ _ _ _ _ d]
    exact h.breaks
  · intro hnil hmem
    refine h.inLoop hnil ?_
    simpa using hmem
  · rw [hgrown.codeLen, h.toGrown.codeLen]
    simp

theorem Emission.patch_end (h : c.Emission (front ++ .jump kind d :: back) A c')
    (hrun : (patchJump (c.codeLen + front.length)).run c' = (.ok (), c'')) :
    c.Emission (front ++ .jump kind back.length :: back) A c'' ∧ c''.env = c'.env := by
  rw [run_patchJump] at hrun
  obtain ⟨hpatched, henv, -⟩ := h.patch hrun
  have hdistance : (c'.codeLen : Int) - (c.codeLen + front.length : Nat) - 1 = back.length := by
    rw [h.toGrown.codeLen, List.length_append, List.length_cons]
    omega
  rw [hdistance] at hpatched
  exact ⟨hpatched, henv⟩

theorem emission_emit_jump (h : c.Valid) (kind : JumpKind) {idx : Nat}
    (hrun : (emit (kind.instruction 0) line).run c = (.ok idx, c')) :
    idx = c.codeLen ∧ c.Emission [.jump kind 0] ∅ c' ∧ c'.env = c.env := by
  cases hrun
  refine ⟨rfl, .of_grown (.of_work h rfl List.prefix_rfl rfl h.pool rfl ?_) rfl (by simp), rfl⟩
  exact ⟨rfl, trivial⟩

variable (line) in
theorem emits_jumpOver {m : Codegen Unit} {g : Gen (List Asm)} (hm : Emits m g)
    (kind : JumpKind) :
    Emits (do
      let idx ← emit (kind.instruction 0) line
      m
      patchJump idx) (Gen.jumpOver kind g) := by
  intro c c' hvalid hrun
  obtain ⟨idx, c₁, hrun₁, hrun⟩ := Exec.run_bind_eq_ok.mp hrun
  obtain ⟨rfl, h₁, henv₁⟩ := emission_emit_jump hvalid kind hrun₁
  obtain ⟨_, c₂, hrun₂, hrun₃⟩ := Exec.run_bind_eq_ok.mp hrun
  have h₂ := hm c₁ c₂ h₁.valid hrun₂
  have h₁₂ := h₁.trans h₂.emission
  rw [Set.empty_union, henv₁] at h₁₂
  obtain ⟨h₃, henv₃⟩ := Emission.patch_end (show c.Emission ([] ++ _) _ _ from h₁₂) hrun₃
  exact ⟨h₃, by rw [henv₃, h₂.env, henv₁]; rfl⟩

theorem emits_compileShortCircuit {m k : Codegen Unit} {g h : Gen (List Asm)} (hm : Emits m g)
    (hk : Emits k h) (kind : JumpKind) :
    Emits (compileShortCircuit (kind.instruction 0) m k line) (Gen.shortCircuit kind g h) := by
  have hright := emits_jumpOver line ((emits_plain line [.pop]).seq hk) kind
  simp only [Exec.bind_assoc] at hright
  have hgen : Gen.shortCircuit kind g h =
      Gen.seq g (Gen.jumpOver kind (Gen.seq (pure [.plain .pop]) h)) := by
    funext env
    refine Prod.ext ?_ rfl
    change (_ ++ _ ++ _ : List Asm) = _
    rw [List.append_assoc]
    rfl
  rw [hgen]
  exact hm.seq hright

end Compiler

end Proveno
