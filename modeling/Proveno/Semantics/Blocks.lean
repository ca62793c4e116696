import Proveno.Semantics.StatementCode

/-! What is generated for blocks and statements on local variables does what they mean, by
induction over the syntax tree. -/

namespace Proveno

namespace Locals

theorem Follows.tail {l l' : Locals} {d : Nat} (h : l.Follows d l') :
    l'.blocks.tail = l.blocks.tail := by
  rw [← pop_blocks, ← pop_blocks, h.outside]

end Locals

namespace Activation

variable (a : Activation) (names : List Bytes)

/-- The code that is generated with these variables does what is meant, and so many variables
more are declared then. -/
def Implements (l : Locals) (d : Nat) (g : Gen (List Asm)) (m : Meaning) : Prop :=
  ∃ l', (g ⟨l, []⟩).2 = ⟨l', []⟩ ∧ l.Follows d l' ∧
    a.Carries names (g ⟨l, []⟩).1 m (a.Holds l.blocks) (a.Holds l'.blocks)
      fun σ slots => a.Holds l.blocks.tail σ.tail slots

/-- So it does, and the variables are the same then. -/
structure Encloses (l : Locals) (g : Gen (List Asm)) (m : Meaning) : Prop where
  env : (g ⟨l, []⟩).2 = ⟨l, []⟩
  carries : a.Carries names (g ⟨l, []⟩).1 m (a.Holds l.blocks) (a.Holds l.blocks)
    (a.Holds l.blocks)

variable {a names} {l l' : Locals} {d d' : Nat} {g h : Gen (List Asm)} {m k : Meaning} {e : Expr}
  {name : Bytes} {fuel : Nat}

theorem Encloses.implements (hl : l.Tidy) (hg : a.Encloses names l g m) :
    a.Implements names l 0 g m :=
  ⟨l, hg.env, .refl hl, hg.carries.mono (fun _ _ => id) fun _ _ hholds => hholds.tail⟩

namespace Implements

theorem skip (hl : l.Tidy) : a.Implements names l 0 (pure []) Meaning.skip :=
  ⟨l, rfl, .refl hl, .skip⟩

theorem seq (hg : a.Implements names l d g m)
    (hh : ∀ l', l.Follows d l' → a.Implements names l' d' h k) :
    a.Implements names l (d + d') (Gen.seq g h) (m.seq k) := by
  obtain ⟨l', henv, hfollows, hcarries⟩ := hg
  obtain ⟨l'', henv', hfollows', hcarries'⟩ := hh l' hfollows
  have hcode : ((Gen.seq g h) ⟨l, []⟩).1 = (g ⟨l, []⟩).1 ++ (h ⟨l', []⟩).1 := by
    rw [← henv]
    rfl
  refine ⟨l'', ?_, hfollows.trans hfollows', ?_⟩
  · rw [← henv', ← henv]
    rfl
  · rw [hcode]
    rw [hfollows.tail] at hcarries'
    exact hcarries.seq hcarries'

/-- The statements of a block do what they mean in a block of their own. -/
theorem enclosed {stmts ret : Gen (List Asm)} (hg : a.Implements names l.enter d (Gen.seq stmts ret) m) :
    a.Encloses names l (Gen.block stmts ret) m.enclosed := by
  obtain ⟨l', henv, hfollows, hcarries⟩ := hg
  refine ⟨?_, ?_⟩
  · have henv' : (Gen.block stmts ret ⟨l, []⟩).2 =
        (Gen.exitBlock ((Gen.seq stmts ret) ⟨l.enter, []⟩).2).2 := rfl
    rw [henv', henv]
    change Env.mk l'.pop [] = _
    rw [hfollows.outside, Locals.pop_enter]
  · refine hcarries.enclosed fun σ slots hholds => ?_
    have htail := hholds.tail
    rwa [hfollows.tail] at htail

end Implements

section Statements

theorem resolve_local (l : Locals) (name : Bytes) :
    Env.resolve ⟨l, []⟩ name = (l.find name).map (Var.mk 0) := by
  rw [Env.resolve, Env.lookup]
  cases l.find name <;> rfl

theorem gen_assignName (name : Bytes) (g : Gen (List Asm)) (env : Env) :
    Gen.assignName name g env =
      ((env.resolve name).elim (g env).1 fun x => (g env).1 ++ [.store x], (g env).2) := by
  have hassign : Gen.assignName name g = (get >>= fun env => g >>= fun value =>
      pure ((env.resolve name).elim value fun x => value ++ [Asm.store x])) :=
    congrArg _ (funext fun env => congrArg _ (funext fun value => by cases env.resolve name <;> rfl))
  rw [hassign]
  rfl

theorem assignName (he : e.Plain) (hl : l.Tidy) :
    a.Encloses names l (Gen.assignName name e.gen.whole)
      (e.evaluate (.chained a.heap) fun v => Meaning.assign name v) := by
  refine ⟨by rw [gen_assignName, he.quiet.1], ?_⟩
  rw [gen_assignName, resolve_local]
  cases hfind : l.find name with
  | some x => exact .evaluate he (fun _ _ => Holds.knows) fun v => .assign hl hfind v
  | none =>
    have hnothing (v : LuaValue) : a.Carries names [] (Meaning.assign name v)
        (Pushed v (a.Holds l.blocks)) (a.Holds l.blocks) (a.Holds l.blocks) := by
      rintro out pc σ _ r ⟨slots, rfl, hpre⟩ - hm
      rw [Meaning.assign, blocks_unassigned hpre.kept hfind v] at hm
      cases hm
    have hcarries : a.Carries names ((e.gen.whole ⟨l, []⟩).1 ++ []) _ _ _ _ :=
      Carries.evaluate he (fun _ _ => Holds.knows) hnothing
    rwa [List.append_nil] at hcarries

/-- A value goes into the slot of a new variable. -/
theorem storeNew {hidden : Bool} (hl : l.Tidy) (hroom : l.nextSlot.toNat < a.proto.localCount.toNat)
    (name : Bytes) (v : LuaValue) :
    a.Carries names (Gen.storeNew name hidden ⟨l, []⟩).1 (Meaning.declare name v)
      (Pushed v (a.Holds l.blocks)) (a.Holds (l.declare name hidden).blocks)
      fun σ slots => a.Holds l.blocks.tail σ.tail slots := .declare hl hroom name hidden v

theorem pushNil {pre after broken : Condition} {code : List Asm}
    (h : a.Carries names code m (Pushed .nil pre) after broken) :
    a.Carries names (.plain .pushNil :: code) m pre after broken := by
  rintro out pc σ slots r hpre ⟨hpush, hplaced⟩ hm
  have hgo : a.Goes pc slots (pc + 1) (slots ++ [.value .nil]) :=
    goes_push (has_plain hpush) trivial rfl
  rw [List.length_cons, Nat.add_comm code.length, ← Nat.add_assoc]
  exact .start hgo ((h out _ σ _ r ⟨slots, rfl, hpre⟩ hplaced hm).finish (fun _ _ _ => .refl _ _)
    (fun _ _ => id) (List.mem_cons_of_mem _))

theorem gen_locals (p : Bytes × Span) (vars : List (Bytes × Span)) (g : Gen (List Asm))
    (gs : List (Gen (List Asm))) (env : Env) :
    Gen.locals (p :: vars) (g :: gs) env =
      ((g env).1 ++ (Gen.storeNew p.1 false (g env).2).1 ++
          (Gen.locals vars gs (Gen.storeNew p.1 false (g env).2).2).1,
        (Gen.locals vars gs (Gen.storeNew p.1 false (g env).2).2).2) := rfl

theorem locals (vars : List (Bytes × Span)) {values : List Expr} (hvalues : ∀ e ∈ values, e.Plain)
    (hl : l.Tidy) (hroom : ∀ i < vars.length, l.nextSlot.toNat + i < a.proto.localCount.toNat) :
    a.Implements names l vars.length (Gen.locals vars (values.map fun e => e.gen.whole))
      (Meaning.locals (.chained a.heap) vars values) := by
  induction vars generalizing l values with
  | nil => exact .skip hl
  | cons p vars ih =>
    have hfirst : l.nextSlot.toNat < a.proto.localCount.toNat := hroom 0 (Nat.succ_pos _)
    have hfollows : l.Follows 1 (l.declare p.1 false) :=
      .declare hl (hfirst.trans_le (Nat.le_of_lt_succ a.proto.localCount.toNat_lt)) p.1 false
    have hrest (rest : List Expr) (hrest : ∀ e ∈ rest, e.Plain) :
        ∃ l', ((Gen.locals vars (rest.map fun e => e.gen.whole)) ⟨l.declare p.1 false, []⟩).2 =
          ⟨l', []⟩ ∧ l.Follows (vars.length + 1) l' ∧ ∀ v, a.Carries names
            ((Gen.storeNew p.1 false ⟨l, []⟩).1 ++
              ((Gen.locals vars (rest.map fun e => e.gen.whole)) ⟨l.declare p.1 false, []⟩).1)
            ((Meaning.declare p.1 v).seq (Meaning.locals (.chained a.heap) vars rest))
            (Pushed v (a.Holds l.blocks)) (a.Holds l'.blocks)
            fun σ slots => a.Holds l.blocks.tail σ.tail slots := by
      obtain ⟨l', henv, hfollows', hcarries⟩ := ih hrest hfollows.tidy fun i hi => by
        have hi' := hroom (i + 1) (Nat.succ_lt_succ hi)
        rw [hfollows.next]
        omega
      rw [hfollows.tail] at hcarries
      refine ⟨l', henv, ?_, fun v => (storeNew hl hfirst p.1 v).seq hcarries⟩
      rw [Nat.add_comm]
      exact hfollows.trans hfollows'
    cases values with
    | nil =>
      obtain ⟨l', henv, hfollows', hcarries⟩ := hrest [] nofun
      exact ⟨l', henv, hfollows', pushNil (hcarries .nil)⟩
    | cons e values =>
      rw [List.forall_mem_cons] at hvalues
      obtain ⟨l', henv, hfollows', hcarries⟩ := hrest values hvalues.2
      have hgen : Gen.locals (p :: vars) ((e :: values).map fun e => e.gen.whole) ⟨l, []⟩ =
          ((e.gen.whole ⟨l, []⟩).1 ++ ((Gen.storeNew p.1 false ⟨l, []⟩).1 ++
            ((Gen.locals vars (values.map fun e => e.gen.whole)) ⟨l.declare p.1 false, []⟩).1),
            ⟨l', []⟩) := by
        rw [List.map_cons, gen_locals, hvalues.1.quiet.1, ← henv, ← List.append_assoc]
        rfl
      refine ⟨l', by rw [hgen], hfollows', ?_⟩
      rw [hgen]
      exact .evaluate hvalues.1 (fun _ _ => Holds.knows) hcarries

/-- Code and meaning of an `elseif` chain, whatever is at its end. -/
def Clauses (a : Activation) (names : List Bytes) (l : Locals)
    (gs : List (Gen (List Asm) × Gen (List Asm))) (m : Meaning → Meaning) : Prop :=
  (Gen.elseifs gs ⟨l, []⟩).2 = ⟨l, []⟩ ∧ ∀ rest k,
    a.Carries names rest k (a.Holds l.blocks) (a.Holds l.blocks) (a.Holds l.blocks) →
    a.Carries names (Gen.layoutClauses (Gen.elseifs gs ⟨l, []⟩).1 rest) (m k) (a.Holds l.blocks)
      (a.Holds l.blocks) (a.Holds l.blocks)

theorem choose (he : e.Plain) {block after : List Asm}
    (hblock : a.Carries names block m (a.Holds l.blocks) (a.Holds l.blocks) (a.Holds l.blocks))
    (hafter : a.Carries names after k (a.Holds l.blocks) (a.Holds l.blocks) (a.Holds l.blocks)) :
    a.Carries names ((e.gen.whole ⟨l, []⟩).1 ++ [.jump .jmpIfNot (block.length + 1)] ++ block ++
        [.jump .jmp after.length] ++ after)
      (e.evaluate (.chained a.heap) fun v => if v.isTruthy then m else k) (a.Holds l.blocks)
      (a.Holds l.blocks) (a.Holds l.blocks) := by
  have hcarries : a.Carries names ((e.gen.whole ⟨l, []⟩).1 ++ _) _ _ _ _ :=
    Carries.evaluate he (fun _ _ => Holds.knows) fun v => hblock.branches (v := v) hafter
  simpa only [List.append_assoc, List.singleton_append, List.cons_append, List.nil_append]
    using hcarries

theorem clauses_cons {gs : List (Gen (List Asm) × Gen (List Asm))} {ms : Meaning → Meaning}
    (he : e.Plain) (hblock : a.Encloses names l g m) (hrest : Clauses a names l gs ms) :
    Clauses a names l ((e.gen.whole, g) :: gs) fun k =>
      e.evaluate (.chained a.heap) fun v => if v.isTruthy then m else ms k := by
  have hgen : Gen.elseifs ((e.gen.whole, g) :: gs) ⟨l, []⟩ =
      (((e.gen.whole ⟨l, []⟩).1, (g ⟨l, []⟩).1) :: (Gen.elseifs gs ⟨l, []⟩).1, ⟨l, []⟩) := by
    have hcons (env : Env) : Gen.elseifs ((e.gen.whole, g) :: gs) env =
        (((e.gen.whole env).1, (g (e.gen.whole env).2).1) ::
            (Gen.elseifs gs (g (e.gen.whole env).2).2).1,
          (Gen.elseifs gs (g (e.gen.whole env).2).2).2) := rfl
    rw [hcons, he.quiet.1, hblock.env, hrest.1]
  refine ⟨by rw [hgen], fun rest k hk => ?_⟩
  rw [hgen]
  exact choose he hblock.carries (hrest.2 rest k hk)

theorem ifStmt {gs : List (Gen (List Asm) × Gen (List Asm))} {ms : Meaning → Meaning}
    {gElse : Option (Gen (List Asm))} (he : e.Plain) (hthen : a.Encloses names l g m)
    (hclauses : Clauses a names l gs ms) (helse : a.Encloses names l (Gen.optional gElse) k)
    (hnone : gs = [] → gElse = none → ms k = Meaning.skip) :
    a.Encloses names l (Gen.ifStmt e.gen.whole g gs gElse)
      (e.evaluate (.chained a.heap) fun v => if v.isTruthy then m else ms k) := by
  have hafter := hclauses.2 _ k helse.carries
  by_cases hmore : gs ≠ [] ∨ gElse.isSome
  · have hcode (env : Env) : Gen.ifStmt e.gen.whole g gs gElse env =
        let thenPart := g (e.gen.whole env).2
        let clauses := Gen.elseifs gs thenPart.2
        let elsePart := Gen.optional gElse clauses.2
        let after := Gen.layoutClauses clauses.1 elsePart.1
        ((e.gen.whole env).1 ++ [Asm.jump .jmpIfNot (thenPart.1.length + 1)] ++ thenPart.1 ++
          [Asm.jump .jmp after.length] ++ after, elsePart.2) := by
      unfold Gen.ifStmt
      simp only [if_pos hmore]
      rfl
    have hgen := hcode ⟨l, []⟩
    rw [he.quiet.1] at hgen
    dsimp only at hgen
    rw [hthen.env, hclauses.1, helse.env] at hgen
    refine ⟨by rw [hgen], ?_⟩
    rw [hgen]
    exact choose he hthen.carries hafter
  · have hcode (env : Env) : Gen.ifStmt e.gen.whole g gs gElse env =
        let thenPart := g (e.gen.whole env).2
        ((e.gen.whole env).1 ++ [Asm.jump .jmpIfNot thenPart.1.length] ++ thenPart.1,
          (Gen.optional gElse (Gen.elseifs gs thenPart.2).2).2) := by
      unfold Gen.ifStmt
      simp only [if_neg hmore]
      rfl
    have hgen := hcode ⟨l, []⟩
    rw [he.quiet.1] at hgen
    dsimp only at hgen
    rw [hthen.env, hclauses.1, helse.env] at hgen
    rw [not_or, not_not] at hmore
    refine ⟨by rw [hgen], ?_⟩
    rw [hgen, hnone hmore.1 (by simpa using hmore.2), List.append_assoc]
    exact .evaluate he (fun _ _ => Holds.knows) fun v => hthen.carries.branch fun _ _ => id

theorem whileStmt (he : e.Plain) (hblock : a.Encloses names { l with loops := 0 :: l.loops } g m) :
    a.Encloses names l (Gen.whileStmt e.gen.whole g)
      (Meaning.loop (e.evaluate (.chained a.heap) fun v => if v.isTruthy then m else Meaning.leave)
        fuel) := by
  have hcode : Gen.whileStmt e.gen.whole g ⟨l, []⟩ =
      let looped : Env := ⟨{ l with loops := 0 :: l.loops }, []⟩
      let block := g (e.gen.whole looped).2
      let body := (e.gen.whole looped).1 ++ [Asm.jump .jmpIfNot (block.1.length + 1)] ++ block.1
      (Gen.closedLoop body body.length, (Gen.exitLoop block.2).2) := rfl
  dsimp only at hcode
  rw [he.quiet.1, hblock.env] at hcode
  refine ⟨by rw [hcode]; rfl, ?_⟩
  rw [hcode]
  exact .loop fun pc σ slots r hpre hplaced hm =>
    Carries.whileTurn rfl he (fun _ _ hholds => Holds.knows hholds) hblock.carries hpre hplaced hm

theorem breakStmt (hl : l.Tidy) : a.Implements names l 0 Gen.breakStmt Meaning.leave := by
  refine ⟨l, rfl, .refl hl, ?_⟩
  have hcode : (Gen.breakStmt ⟨l, []⟩).1 = [.breakOut] := by
    change List.replicate (l.loops.headD 0) (Asm.plain .pop) ++ [Asm.breakOut] = _
    rw [hl.loops]
    rfl
  rw [hcode]
  exact .leave

/-- A value goes into a variable of the compiler's own. -/
theorem hidden {code : List Asm} {after broken : Condition} {k : LuaValue → Meaning} (he : e.Plain)
    (hl : l.Tidy) (hroom : l.nextSlot.toNat < a.proto.localCount.toNat)
    (h : ∀ v, a.Carries names code (k v) (a.Holds (l.declare name true).blocks) after broken) :
    a.Carries names ((e.gen.whole ⟨l, []⟩).1 ++ [.plain (.storeLocal l.nextSlot)] ++ code)
      (e.evaluate (.chained a.heap) fun v => (Meaning.declare name v).seq (k v)) (a.Holds l.blocks)
      after broken := by
  rw [List.append_assoc]
  exact .evaluate he (fun _ _ => Holds.knows) fun v =>
    (Carries.declare hl hroom name true v).seq (h v)

theorem numericFor {start limit step : Expr} {gStep : Option (Gen (List Asm))}
    (hstart : start.Plain) (hlimit : limit.Plain) (hstep : step.Plain)
    (hgStep : Gen.step gStep = step.gen.whole) (hl : l.Tidy)
    (hroom : l.nextSlot.toNat + 4 ≤ a.proto.localCount.toNat)
    (hblock : ∀ l' : Locals, l'.Tidy → l'.nextSlot.toNat = l.nextSlot.toNat + 4 →
      a.Encloses names l' g m) :
    a.Encloses names l (Gen.numericFor name start.gen.whole limit.gen.whole gStep g)
      (Meaning.numericFor (.chained a.heap) name start limit step m fuel) := by
  have htop := a.proto.localCount.toNat_lt
  have hl₁ : l.enter.Tidy := hl.enter
  have h₂ : l.enter.Follows 1 (l.enter.declare forI true) :=
    .declare hl₁ (show l.nextSlot.toNat < 255 by omega) forI true
  have h₃ := h₂.trans (.declare h₂.tidy (by rw [h₂.next]; change l.nextSlot.toNat + 1 < 255; omega)
    forLimit true)
  have h₄ := h₃.trans (.declare h₃.tidy (by rw [h₃.next]; change l.nextSlot.toNat + 2 < 255; omega)
    forStep true)
  have h₅ := h₄.trans (.declare h₄.tidy (by rw [h₄.next]; change l.nextSlot.toNat + 3 < 255; omega)
    name false)
  set l₂ := l.enter.declare forI true
  set l₃ := l₂.declare forLimit true
  set l₄ := l₃.declare forStep true
  set l₅ := l₄.declare name false
  have hinner := hblock { l₅ with loops := 0 :: l₅.loops } h₅.tidy.looped h₅.next
  set block := (g ⟨{ l₅ with loops := 0 :: l₅.loops }, []⟩).1
  set body := Gen.loopCheck l.nextSlot l₂.nextSlot l₃.nextSlot (block.length + 7) ++
    [Asm.plain (.loadLocal l.nextSlot), .plain (.storeLocal l₄.nextSlot)] ++ block ++
    [Asm.plain (.loadLocal l.nextSlot), .plain (.loadLocal l₃.nextSlot), .plain .add,
      .plain (.storeLocal l.nextSlot)]
  have hgen : Gen.numericFor name start.gen.whole limit.gen.whole gStep g ⟨l, []⟩ =
      ((start.gen.whole ⟨l.enter, []⟩).1 ++ [Asm.plain (.storeLocal l.nextSlot)] ++
        ((limit.gen.whole ⟨l₂, []⟩).1 ++ [Asm.plain (.storeLocal l₂.nextSlot)] ++
        ((step.gen.whole ⟨l₃, []⟩).1 ++ [Asm.plain (.storeLocal l₃.nextSlot)] ++
        Gen.closedLoop body body.length)), ⟨l, []⟩) := by
    have hquiet {e : Expr} (he : e.Plain) : e.gen.whole = fun env => ((e.gen.whole env).1, env) :=
      funext fun env => Prod.ext rfl (he.quiet.1 env)
    unfold Gen.numericFor
    rw [hgStep, hquiet hstart, hquiet hlimit, hquiet hstep]
    have hexit : (Gen.exitBlock (Gen.exitLoop (g ⟨{ l₅ with loops := 0 :: l₅.loops }, []⟩).2).2).2 =
        ⟨l, []⟩ := by
      rw [hinner.env]
      change Env.mk l₅.pop [] = _
      rw [h₅.outside, Locals.pop_enter]
    refine Prod.ext ?_ hexit
    change (_ ++ _ ++ _ ++ _ : List Asm) = _ ++ (_ ++ (_ ++ _))
    rw [List.append_assoc, List.append_assoc]
    rfl
  have hstepLimit : forStep ≠ forLimit := by decide
  have hstepI : forStep ≠ forI := by decide
  have hlimitI : forLimit ≠ forI := by decide
  have hstepVar : l₄.find forStep = some ⟨forStep, l₃.nextSlot, true⟩ := by
    rw [Locals.find_declare h₃.tidy, if_pos rfl]
  have hlimitVar : l₄.find forLimit = some ⟨forLimit, l₂.nextSlot, true⟩ := by
    rw [Locals.find_declare h₃.tidy, if_neg hstepLimit, Locals.find_declare h₂.tidy, if_pos rfl]
  have hi : l₄.find forI = some ⟨forI, l.nextSlot, true⟩ := by
    rw [Locals.find_declare h₃.tidy, if_neg hstepI, Locals.find_declare h₂.tidy, if_neg hlimitI,
      Locals.find_declare hl₁, if_pos rfl]
    rfl
  have hturn : a.Carries names
      ([Asm.plain (.loadLocal l.nextSlot), .plain (.storeLocal l₄.nextSlot)] ++
      block ++ [Asm.plain (.loadLocal l.nextSlot), .plain (.loadLocal l₃.nextSlot), .plain .add,
        .plain (.storeLocal l.nextSlot)])
      ((Meaning.given (fun σ => .ok (σ.get forI)) fun i => Meaning.binding name i m).seq
        (Meaning.given (fun σ => (σ.get forI).luaAdd (σ.get forStep)) fun i => Meaning.assign forI i))
      (a.Holds l₄.blocks) (a.Holds l₄.blocks) (a.Holds l₄.blocks) :=
    (Carries.forBody h₄.tidy (by rw [h₄.next]; change l.nextSlot.toNat + 3 < _; omega) hi
      hinner.carries).seq (.forNext h₄.tidy hi hstepVar)
  refine ⟨by rw [hgen], ?_⟩
  rw [hgen]
  refine .enclosed ?_ fun σ slots (hholds : a.Holds l₄.blocks σ slots) => hholds.tail
  refine hidden hstart hl₁ (show l.nextSlot.toNat < _ by omega) fun v => ?_
  refine hidden hlimit h₂.tidy (by rw [h₂.next]; change l.nextSlot.toNat + 1 < _; omega) fun v => ?_
  refine hidden hstep h₃.tidy (by rw [h₃.next]; change l.nextSlot.toNat + 2 < _; omega) fun v => ?_
  refine .loop fun pc σ slots r hpre hplaced hm => ?_
  refine Carries.forTurn ?_ hi hlimitVar hstepVar hturn hpre hplaced hm
  have hlength : block.length + 7 = ([Asm.plain (.loadLocal l.nextSlot),
      .plain (.storeLocal l₄.nextSlot)] ++ block ++ [Asm.plain (.loadLocal l.nextSlot),
        .plain (.loadLocal l₃.nextSlot), .plain .add, .plain (.storeLocal l.nextSlot)] :
          List Asm).length + 1 := by
    simp only [List.length_append, List.length_cons, List.length_nil]
    omega
  rw [← hlength]
  simp only [body, List.append_assoc]

end Statements

section Syntax

theorem genExprs_eq_map (es : List Expr) : genExprs es = es.map Expr.gen := by
  induction es with
  | nil => rfl
  | cons e rest ih => rw [genExprs, ih, List.map_cons]

theorem gen_localDecl {vars : List (Bytes × Span)} {values : List Expr}
    (h : ∀ e ∈ values, e.Plain) :
    Gen.localDecl vars values (genExprs values) =
      Gen.locals vars (values.map fun e => e.gen.whole) := by
  have hmap : (genExprs values).map (·.whole) = values.map fun e => e.gen.whole := by
    rw [genExprs_eq_map, List.map_map]
    rfl
  rw [← hmap]
  unfold Gen.localDecl
  split
  · have hcall := h _ (List.mem_singleton_self _)
    cases hcall
  · rfl

theorem genRet_implements (fuel : Nat) : (ret : Option ReturnStmt) → (l : Locals) → PlainRet ret →
    l.Tidy → a.Implements names l 0 (genRet ret) (retMeaning (.chained a.heap) fuel ret)
  | none, _, _, hl => .skip hl
  | some (.mk none _), l, _, hl => ⟨l, rfl, .refl hl, .ret_nil⟩
  | some (.mk (some value) s), l, h, hl => by
    have hvalue : value.Plain := h
    have hgen : genRet (some (.mk (some value) s)) ⟨l, []⟩ =
        ((value.gen.whole ⟨l, []⟩).1 ++ [Asm.plain (.ret 1)], (value.gen.whole ⟨l, []⟩).2) := rfl
    refine ⟨l, by rw [hgen, hvalue.quiet.1], .refl hl, ?_⟩
    rw [hgen]
    exact .evaluate hvalue (fun _ _ => Holds.knows) fun v => .ret_value

end Syntax

end Activation

section Syntax

open Activation

mutual

theorem Stmt.implements (a : Activation) (names : List Bytes) (fuel : Nat) :
    (stmt : Stmt) → (l : Locals) → stmt.Plain → l.Tidy →
      stmt.Room a.proto.localCount.toNat l.nextSlot.toNat →
      a.Implements names l stmt.declared stmt.gen (stmt.meaning (.chained a.heap) fuel)
  | .localDecl vars values s, l, h, hl, hroom => by
    rw [Stmt.gen, gen_localDecl h]
    exact Activation.locals vars h hl hroom
  | .assign (.name _ _) _ _, _, h, hl, _ => (assignName h hl).implements hl
  | .ifStmt _ thenBlock clauses none _, l, h, hl, hroom => by
    refine Encloses.implements hl (Activation.ifStmt h.1
      (thenBlock.encloses a names fuel l h.2.1 hl hroom.1)
      (clauses_enclose a names fuel clauses l h.2.2 hl hroom.2) ⟨rfl, .skip⟩ fun hnone _ => ?_)
    cases clauses with
    | nil => rfl
    | cons clause rest =>
      cases clause
      cases hnone
  | .ifStmt _ thenBlock clauses (some elseBlock) _, l, h, hl, hroom => by
    have helse : a.Encloses names l (Gen.optional (some elseBlock.gen))
        (elseBlock.meaning (.chained a.heap) fuel) :=
      elseBlock.encloses a names fuel l h.2.2.2 hl hroom.2.2
    exact Encloses.implements hl (Activation.ifStmt h.1
      (thenBlock.encloses a names fuel l h.2.1 hl hroom.1)
      (clauses_enclose a names fuel clauses l h.2.2.1 hl hroom.2.1) helse fun _ h => by cases h)
  | .whileStmt _ block _, l, h, hl, hroom =>
    (Activation.whileStmt h.1 (block.encloses a names fuel _ h.2 hl.looped hroom)).implements hl
  | .numericFor _ _ _ _ none block s, l, h, hl, hroom =>
    (Activation.numericFor h.1 h.2.1 (.integer 1 s) rfl hl hroom.1 fun l' hl' hnext =>
      block.encloses a names fuel l' h.2.2 hl' (hnext ▸ hroom.2)).implements hl
  | .numericFor _ _ _ _ (some _) block _, l, h, hl, hroom =>
    (Activation.numericFor h.1 h.2.1 h.2.2.1 rfl hl hroom.1 fun l' hl' hnext =>
      block.encloses a names fuel l' h.2.2.2 hl' (hnext ▸ hroom.2)).implements hl
  | .breakStmt _, _, _, hl, _ => Activation.breakStmt hl
  | .doBlock block _, l, h, hl, hroom => (block.encloses a names fuel l h hl hroom).implements hl

theorem clauses_enclose (a : Activation) (names : List Bytes) (fuel : Nat) :
    (clauses : List ElseifClause) → (l : Locals) → PlainClauses clauses → l.Tidy →
      RoomClauses a.proto.localCount.toNat clauses l.nextSlot.toNat →
      Clauses a names l (genClauses clauses) (clausesMeaning (.chained a.heap) fuel clauses)
  | [], _, _, _, _ => ⟨rfl, fun _ _ hk => hk⟩
  | .mk _ block _ :: rest, l, h, hl, hroom =>
    clauses_cons h.1 (block.encloses a names fuel l h.2.1 hl hroom.1)
      (clauses_enclose a names fuel rest l h.2.2 hl hroom.2)

theorem stmts_implement (a : Activation) (names : List Bytes) (fuel : Nat) :
    (stmts : List Stmt) → (l : Locals) → PlainStmts stmts → l.Tidy →
      RoomStmts a.proto.localCount.toNat stmts l.nextSlot.toNat →
      a.Implements names l (stmts.map Stmt.declared).sum (genStmts stmts)
        (stmtsMeaning (.chained a.heap) fuel stmts)
  | [], _, _, hl, _ => .skip hl
  | stmt :: rest, l, h, hl, hroom =>
    (stmt.implements a names fuel l h.1 hl hroom.1).seq fun l' hfollows =>
      stmts_implement a names fuel rest l' h.2 hfollows.tidy (hfollows.next ▸ hroom.2)

theorem Block.encloses (a : Activation) (names : List Bytes) (fuel : Nat) :
    (block : Block) → (l : Locals) → block.Plain → l.Tidy →
      block.Room a.proto.localCount.toNat l.nextSlot.toNat →
      a.Encloses names l block.gen (block.meaning (.chained a.heap) fuel)
  | .mk stmts ret _, l, h, hl, hroom =>
    Implements.enclosed ((stmts_implement a names fuel stmts l.enter h.1 hl.enter hroom).seq
      fun l' hfollows => genRet_implements fuel ret l' h.2 hfollows.tidy)

end

end Syntax

end Proveno
