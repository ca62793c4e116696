import Proveno.Vm.BuiltinsComposed

/-! The JSON builtins always have enough fuel, since every level and every turn of a
loop reads a byte. -/

namespace Proveno.Vm

namespace Json

variable {mode : NumberMode} {total : Nat}

/-- A parser that leaves at most so many bytes, composed of primitive steps. -/
structure Reads {α : Type} (m : Vm (α × Bytes)) (n : Nat) : Prop where
  composed : Composed m
  length : ∀ r, m.Yields r → r.2.length ≤ n

namespace Reads

variable {α β : Type} {n : Nat}

theorem pure {r : α × Bytes} (h : r.2.length ≤ n) : Reads (Pure.pure r) n :=
  ⟨.pure r, fun _ hr => hr.of_pure ▸ h⟩

theorem raise {e : VmError} (h : e.cause ≠ .gasExhausted) : Reads (raise e : Vm (α × Bytes)) n :=
  ⟨.raise h, fun _ hr => absurd hr not_yields_raise⟩

theorem bind {m : Vm β} {f : β → Vm (α × Bytes)} (hm : Composed m)
    (hf : ∀ b, m.Yields b → Reads (f b) n) : Reads (m >>= f) n where
  composed := .bind hm fun b hb => (hf b hb).composed
  length r hr := by
    obtain ⟨b, hb, hr⟩ := hr.of_bind
    exact (hf b hb).length r hr

theorem mono {m : Vm (α × Bytes)} {k : Nat} (h : Reads m k) (hk : k ≤ n) : Reads m n :=
  ⟨h.composed, fun r hr => (h.length r hr).trans hk⟩

theorem ite {c : Prop} [Decidable c] {m m' : Vm (α × Bytes)} (h : c → Reads m n)
    (h' : ¬c → Reads m' n) : Reads (if c then m else m') n := by
  split_ifs with hc
  · exact h hc
  · exact h' hc

end Reads

theorem length_skipWs_le (s : Bytes) : (skipWs s).length ≤ s.length :=
  (List.dropWhile_suffix _).length_le

theorem expect_yields {b : UInt8} {s rest : Bytes} (h : (expect total b s).Yields rest) :
    rest.length < s.length := by
  unfold expect at h
  split_ifs at h with hhead
  · cases s with
    | nil => cases hhead
    | cons c s => rw [← Exec.Yields.of_pure h]; exact Nat.lt_succ_self _
  · exact absurd h not_yields_raise

theorem expect_composed (b : UInt8) (s : Bytes) : Composed (expect total b s) := by
  unfold expect
  split_ifs
  · exact .pure _
  · exact .raise nofun

theorem expectLit_reads (literal : Bytes) (v : LuaValue) (s : Bytes) :
    Reads (expectLit total literal v s) s.length := by
  unfold expectLit
  split_ifs
  · exact .pure (by simp)
  · exact .raise nofun

theorem stringBody_length {out s : Bytes} {r : Bytes × Bytes} (h : stringBody out s = .ok r) :
    r.2.length < s.length := by
  fun_induction stringBody out s with
  | case2 => cases h; exact Nat.lt_succ_self _
  | case4 _ _ _ _ _ _ ih => exact (ih h).trans (by simp)
  | case5 _ _ _ _ _ _ _ _ _ _ ih => exact (ih h).trans (by simp; omega)
  | case9 _ _ _ _ _ ih => exact (ih h).trans (Nat.lt_succ_self _)
  | _ => cases h

theorem stringBody_mild (out s : Bytes) : Mild (stringBody out s) := by
  fun_induction stringBody out s with
  | case2 => exact .ok _
  | case4 _ _ _ _ _ _ ih => exact ih
  | case5 _ _ _ _ _ _ _ _ _ _ ih => exact ih
  | case9 _ _ _ _ _ ih => exact ih
  | _ => exact .runtimeErr _

theorem parseString_reads (total : Nat) (s : Bytes) : Reads (parseString total s) (s.length - 1) :=
  .bind (expect_composed _ _) fun rest hrest =>
    .bind (.liftError (stringBody_mild _ _)) fun r hr => .bind (.trackAlloc _) fun _ _ =>
      .pure <| by
        have hlt := expect_yields hrest
        have hbody := stringBody_length (yields_liftError hr)
        simp only
        omega

theorem requireDigits_mild (missing : String) (read s : Bytes) :
    Mild (requireDigits missing read s) := by
  unfold requireDigits
  dsimp only
  split_ifs
  · exact .runtimeErr _
  · exact .ok _

theorem fractionText_mild (read s : Bytes) : Mild (fractionText read s) := by
  unfold fractionText
  split_ifs
  · exact requireDigits_mild ..
  · exact .ok _

theorem exponentText_mild (read s : Bytes) : Mild (exponentText read s) := by
  unfold exponentText
  split
  · exact .ok _
  · split_ifs
    · split
      · exact requireDigits_mild ..
      · split_ifs <;> exact requireDigits_mild ..
    · exact .ok _

theorem numberText_mild (s : Bytes) : Mild (numberText s) :=
  .bind (requireDigits_mild ..) fun _ => .bind (fractionText_mild ..) fun _ =>
    exponentText_mild ..

theorem requireDigits_length {missing : String} {read s : Bytes} {r : Bytes × Bytes}
    (h : requireDigits missing read s = .ok r) : r.2.length ≤ s.length := by
  unfold requireDigits at h
  dsimp only at h
  split_ifs at h
  cases h
  exact (List.dropWhile_suffix _).length_le

theorem fractionText_length {read s : Bytes} {r : Bytes × Bytes}
    (h : fractionText read s = .ok r) : r.2.length ≤ s.length := by
  unfold fractionText at h
  split_ifs at h
  · exact (requireDigits_length h).trans (by simp)
  · cases h
    exact le_rfl

theorem exponentText_length {read s : Bytes} {r : Bytes × Bytes}
    (h : exponentText read s = .ok r) : r.2.length ≤ s.length := by
  unfold exponentText at h
  split at h
  · cases h
    exact le_rfl
  · split_ifs at h
    · split at h
      · exact (requireDigits_length h).trans (Nat.zero_le _)
      · split_ifs at h
        · exact (requireDigits_length h).trans (by simp; omega)
        · exact (requireDigits_length h).trans (by simp)
    · cases h
      exact le_rfl

theorem splitSign_length (s : Bytes) : (splitSign s).2.length ≤ s.length := by
  unfold splitSign
  split_ifs
  · simp
  · exact le_rfl

theorem numberText_length {s : Bytes} {r : Bytes × Bytes} (h : numberText s = .ok r) :
    r.2.length ≤ s.length := by
  unfold numberText at h
  cases hint : requireDigits "integer part" (splitSign s).1 (splitSign s).2 with
  | error e => simp [hint, bind, Except.bind] at h
  | ok p =>
    cases hfrac : fractionText p.1 p.2 with
    | error e => simp [hint, hfrac, bind, Except.bind] at h
    | ok q =>
      simp only [hint, hfrac, bind, Except.bind] at h
      exact (exponentText_length h).trans ((fractionText_length hfrac).trans
        ((requireDigits_length hint).trans (splitSign_length s)))

theorem parseNumber_reads (s : Bytes) : Reads (parseNumber mode s) s.length := by
  cases mode with
  | integer =>
    unfold parseNumber parseNumberAsInteger
    dsimp only
    split_ifs
    · exact .raise (by rintro ⟨⟩)
    · split
      · exact .pure ((List.dropWhile_suffix _).length_le.trans (splitSign_length s))
      · exact .raise (by rintro ⟨⟩)
  | verbatim =>
    exact .bind (.liftError (numberText_mild _)) fun r hr => .bind (.trackAlloc _) fun _ _ =>
      .pure (numberText_length (yields_liftError hr))

theorem newTable_composed : Composed newTable :=
  .bind .newTable fun _ _ => .bind (.trackAlloc _) fun _ _ => .pure _

/-- What a call of a parser may rely on when it has fuel for what is left to read. -/
structure Fuelled (mode : NumberMode) (total fuel : Nat) : Prop where
  value : ∀ depth s, 2 * s.length + 2 ≤ fuel → Reads (parseValue mode total fuel depth s) s.length
  array : ∀ depth t idx s, 2 * s.length + 3 ≤ fuel →
    Reads (parseArray mode total fuel depth t idx s) s.length
  object : ∀ depth t s, 2 * s.length + 3 ≤ fuel →
    Reads (parseObject mode total fuel depth t s) s.length

section Step

variable {fuel : Nat} (ih : Fuelled mode total fuel)
include ih

theorem parseValue_reads (depth : Nat) (s : Bytes) (h : 2 * s.length + 2 ≤ fuel + 1) :
    Reads (parseValue mode total (fuel + 1) depth s) s.length := by
  rw [parseValue]
  refine .ite (fun _ => .raise (by rintro ⟨⟩)) fun _ => ?_
  have hskip := length_skipWs_le s
  cases hs : skipWs s with
  | nil => exact .raise (by rintro ⟨⟩)
  | cons b rest =>
    rw [hs, List.length_cons] at hskip
    have hlen : (b :: rest).length ≤ s.length := by simpa using hskip
    have hrest := length_skipWs_le rest
    refine .ite (fun _ => ?_) fun _ => .ite (fun _ => ?_) fun _ => .ite (fun _ => ?_) fun _ =>
      .ite (fun _ => ?_) fun _ => .ite (fun _ => ?_) fun _ => .ite (fun _ => ?_) fun _ =>
        .ite (fun _ => ?_) fun _ => .raise (by rintro ⟨⟩)
    · refine .bind (parseString_reads _ _).composed fun r hr => .pure ?_
      exact ((parseString_reads _ _).length r hr).trans ((Nat.sub_le _ _).trans hlen)
    · refine .bind newTable_composed fun t _ => .ite (fun _ => .pure ?_) fun _ => ?_
      · simp only [List.length_tail]
        omega
      · exact (ih.object _ _ _ (by omega)).mono (by omega)
    · refine .bind newTable_composed fun t _ => .ite (fun _ => .pure ?_) fun _ => ?_
      · simp only [List.length_tail]
        omega
      · exact (ih.array _ _ _ _ (by omega)).mono (by omega)
    · exact (expectLit_reads _ _ _).mono hlen
    · exact (expectLit_reads _ _ _).mono hlen
    · exact (expectLit_reads _ _ _).mono hlen
    · exact (parseNumber_reads _).mono hlen

theorem parseArray_reads (depth : Nat) (t : TableRef) (idx : Nat) (s : Bytes)
    (h : 2 * s.length + 3 ≤ fuel + 1) :
    Reads (parseArray mode total (fuel + 1) depth t idx s) s.length := by
  rw [parseArray]
  have hvalue := ih.value depth s (by omega)
  refine .bind hvalue.composed fun out hr => ?_
  obtain ⟨v, after⟩ := out
  refine .bind (.rawsetCharged _ _ _) fun _ _ => ?_
  have hafter := hvalue.length _ hr
  have hskip := length_skipWs_le after
  simp only at hafter
  refine .ite (fun hcomma => ?_) fun _ => .ite (fun _ => .pure ?_) fun _ => .raise (by rintro ⟨⟩)
  · have hpos : (skipWs after).length ≠ 0 := fun h0 => by
      simp [List.length_eq_zero_iff.mp h0] at hcomma
    have htail : (skipWs after).tail.length = (skipWs after).length - 1 := List.length_tail
    exact (ih.array _ _ _ _ (by omega)).mono (by omega)
  · simp only [List.length_tail]
    omega

theorem parseObject_reads (depth : Nat) (t : TableRef) (s : Bytes)
    (h : 2 * s.length + 3 ≤ fuel + 1) :
    Reads (parseObject mode total (fuel + 1) depth t s) s.length := by
  rw [parseObject]
  have hs := length_skipWs_le s
  have hkey := parseString_reads total (skipWs s)
  refine .bind hkey.composed fun out hk => ?_
  obtain ⟨key, afterKey⟩ := out
  refine .bind (expect_composed _ _) fun rest hrest => ?_
  have hafterKey := hkey.length _ hk
  have hskipKey := length_skipWs_le afterKey
  have hrest := expect_yields hrest
  simp only at hafterKey
  have hvalue := ih.value depth rest (by omega)
  refine .bind hvalue.composed fun out hr => ?_
  obtain ⟨v, after⟩ := out
  refine .bind (.rawsetCharged _ _ _) fun _ _ => ?_
  have hafter := hvalue.length _ hr
  have hskip := length_skipWs_le after
  simp only at hafter
  refine .ite (fun _ => ?_) fun _ => .ite (fun _ => .pure ?_) fun _ => .raise (by rintro ⟨⟩)
  · have htail : (skipWs after).tail.length = (skipWs after).length - 1 := List.length_tail
    exact (ih.object _ _ _ (by omega)).mono (by omega)
  · simp only [List.length_tail]
    omega

end Step

theorem fuelled (fuel : Nat) : Fuelled mode total fuel := by
  induction fuel with
  | zero => exact ⟨fun _ _ h => by omega, fun _ _ _ _ h => by omega, fun _ _ _ h => by omega⟩
  | succ fuel ih => exact ⟨parseValue_reads ih, parseArray_reads ih, parseObject_reads ih⟩

end Json

theorem jsonEncode_composed (args : List LuaValue) : Composed (jsonEncode args) := by
  refine .bind (.liftError (requireArg_mild ..)) fun v _ =>
    .get_bind (fun c => ?_) fun _ _ _ => rfl
  dsimp only
  split
  · rename_i e _
    cases e <;> exact .raise nofun
  · exact .bind (.liftError (checkStringLen_mild _)) fun _ _ => .bind (.charge _) fun _ _ =>
      .bind (.trackAlloc _) fun _ _ => .pure _

theorem jsonDecodeWith_composed (mode : Json.NumberMode) (fname : String) (args : List LuaValue) :
    Composed (jsonDecodeWith mode fname args) :=
  .bind (.liftError (requireString_mild ..)) fun input _ => .bind (.charge _) fun _ _ =>
    .bind ((Json.fuelled _).value _ _ le_rfl).composed fun _ _ => by
      dsimp only
      split_ifs
      · exact .raise nofun
      · exact .pure _

/-- Every builtin is composed of primitive steps. -/
theorem callBuiltin_composed (id : BuiltinId) (args : List LuaValue) :
    Composed (callBuiltin id args) := by
  cases id with
  | type => exact .bind (.liftError (requireArg_mild ..)) fun _ _ => .pure _
  | tostring => exact .bind (.liftError (requireArg_mild ..)) fun _ _ => .pure _
  | tonumber =>
    refine .bind (.liftError (requireArg_mild ..)) fun v _ => ?_
    cases v with
    | string s => dsimp only; split <;> exact .pure _
    | _ => exact .pure _
  | select => exact select_composed args
  | unpack => exact unpack_composed args
  | stringLen => exact stringLen_composed args
  | stringSub => exact stringSub_composed args
  | stringFind => exact stringFind_composed args
  | stringFindLiteral => exact stringFindLiteral_composed args
  | stringUpper => exact mapBytes_composed ..
  | stringLower => exact mapBytes_composed ..
  | stringRep => exact stringRep_composed args
  | stringByte => exact stringByte_composed args
  | stringChar => exact stringChar_composed args
  | stringFormat => exact stringFormat_composed args
  | stringUnsupported => exact .raise (by rintro ⟨⟩)
  | mathAbs => exact mathAbs_composed args
  | mathMin => exact mathExtremum_composed ..
  | mathMax => exact mathExtremum_composed ..
  | mathScaleDiv => exact mathScaleDiv_composed args
  | tableInsert => exact tableInsert_composed args
  | tableRemove => exact tableRemove_composed args
  | tableConcat => exact tableConcat_composed args
  | tableMove => exact tableMove_composed args
  | tableSort => exact .raise (by rintro ⟨⟩)
  | jsonEncode => exact jsonEncode_composed args
  | jsonDecode => exact jsonDecodeWith_composed ..
  | jsonDecodeStrings => exact jsonDecodeWith_composed ..
  | decimalParse => exact decimalParse_composed args
  | decimalFormat => exact decimalFormat_composed args
  | decimalRescale => exact decimalRescale_composed args

end Proveno.Vm
