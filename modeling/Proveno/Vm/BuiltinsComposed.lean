import Proveno.Vm.Composed

/-! Every builtin is composed of primitive steps, and none raises an unrecoverable error
other than through the meters and the tables. -/

namespace Proveno.Vm

section Arguments

variable {α : Type} (args : List LuaValue) (idx : Nat) (fname : String)

theorem requireArg_mild : Mild (requireArg args idx fname) := by
  unfold requireArg
  split
  · exact .ok _
  · exact .runtimeErr _

theorem requireInteger_mild : Mild (requireInteger args idx fname) :=
  .bind (requireArg_mild args idx fname) fun v => by
    cases v with
    | integer n => exact .ok n
    | _ => exact .typeError _

theorem requireString_mild : Mild (requireString args idx fname) :=
  .bind (requireArg_mild args idx fname) fun v => by
    cases v with
    | string s => exact .ok s
    | _ => exact .typeError _

theorem requireTable_mild : Mild (requireTable args idx fname) :=
  .bind (requireArg_mild args idx fname) fun v => by
    cases v with
    | table t => exact .ok t
    | _ => exact .typeError _

theorem optionalInteger_mild (purpose : String) (default : Int64) :
    Mild (optionalInteger args idx fname purpose default) := by
  unfold optionalInteger
  split
  · exact .ok _
  · exact .ok _
  · exact .typeError _

theorem checkStringLen_mild (len : Nat) : Mild (checkStringLen len) := by
  unfold checkStringLen
  split_ifs
  · exact .runtimeErr _
  · exact .ok _

end Arguments

section Strings

variable (args : List LuaValue)

theorem stringLen_composed : Composed (stringLen args) :=
  .bind (.liftError (requireString_mild ..)) fun _ _ => .pure _

theorem subRange_composed (s : Bytes) (i j : Int64) : Composed (subRange s i j) :=
  .bind .getTarget fun _ _ => .bind (.orPanic _) fun _ _ => .bind (.orPanic _) fun _ _ => by
    split_ifs
    · exact .pure _
    · exact .bind (.charge _) fun _ _ => .bind (.trackAlloc _) fun _ _ =>
        .bind (.orPanic _) fun _ _ => .pure _

theorem stringSub_composed : Composed (stringSub args) :=
  .bind (.liftError (requireString_mild ..)) fun _ _ =>
    .bind (.liftError (requireInteger_mild ..)) fun _ _ =>
      .bind (.liftError (optionalInteger_mild ..)) fun _ _ => subRange_composed _ _ _

theorem byteRange_composed (s : Bytes) (i j : Int64) : Composed (byteRange s i j) :=
  .bind .getTarget fun _ _ => .bind (.orPanic _) fun _ _ => .bind (.orPanic _) fun _ _ => by
    split_ifs
    · exact .pure _
    · exact .bind (.charge _) fun _ _ => .bind (.orPanic _) fun _ _ => .pure _

theorem stringByte_composed : Composed (stringByte args) :=
  .bind (.liftError (requireString_mild ..)) fun _ _ =>
    .bind (.liftError (by
      split_ifs
      · exact requireInteger_mild ..
      · exact .ok _)) fun _ _ => byteRange_composed _ _ _

theorem parseFindInit_mild (tgt : Target) (fname : String) :
    Mild (parseFindInit tgt args fname) := by
  unfold parseFindInit
  split_ifs
  · exact .ok _
  · exact .bind (optionalInteger_mild ..) fun _ => by split_ifs <;> exact .ok _

theorem parseFindPlain_mild (fname : String) : Mild (parseFindPlain args fname) := by
  unfold parseFindPlain
  split
  · exact .ok _
  · exact .ok _
  · exact .typeError _

theorem checkNoPatternMetachar_mild (pattern : Bytes) : Mild (checkNoPatternMetachar pattern) := by
  unfold checkNoPatternMetachar
  split_ifs
  · exact .runtimeErr _
  · exact .ok _

theorem literalSubstringSearch_composed (haystack needle : Bytes) (init : Nat) :
    Composed (literalSubstringSearch haystack needle init) :=
  .bind (.charge _) fun _ _ => by
    split_ifs
    · exact .pure _
    · exact .pure _
    · split <;> exact .pure _

theorem stringFind_composed : Composed (stringFind args) :=
  .bind (.liftError (requireString_mild ..)) fun _ _ =>
    .bind (.liftError (requireString_mild ..)) fun _ _ => .bind .getTarget fun _ _ =>
      .bind (.liftError (parseFindInit_mild ..)) fun _ _ =>
        .bind (.liftError (parseFindPlain_mild ..)) fun _ _ => by
          split_ifs
          · exact .bind (.liftError (checkNoPatternMetachar_mild _)) fun _ _ =>
              literalSubstringSearch_composed _ _ _
          · exact literalSubstringSearch_composed _ _ _

theorem stringFindLiteral_composed : Composed (stringFindLiteral args) :=
  .bind (.liftError (requireString_mild ..)) fun _ _ =>
    .bind (.liftError (requireString_mild ..)) fun _ _ => .bind .getTarget fun _ _ =>
      .bind (.liftError (parseFindInit_mild ..)) fun _ _ => literalSubstringSearch_composed _ _ _

theorem mapBytes_composed (fname : String) (f : UInt8 → UInt8) :
    Composed (mapBytes fname f args) :=
  .bind (.liftError (requireString_mild ..)) fun _ _ => .bind (.charge _) fun _ _ =>
    .bind (.trackAlloc _) fun _ _ => .pure _

theorem repeated_composed (s : Bytes) (n : Nat) : Composed (repeated s n) :=
  .bind .getTarget fun _ _ => .bind (.liftError (checkStringLen_mild _)) fun _ _ =>
    .bind (.charge _) fun _ _ => .bind (.trackAlloc _) fun _ _ => .pure _

theorem stringRep_composed : Composed (stringRep args) :=
  .bind (.liftError (requireString_mild ..)) fun _ _ =>
    .bind (.liftError (requireInteger_mild ..)) fun _ _ => by
      split_ifs
      · exact .pure _
      · exact .bind .getTarget fun _ _ => repeated_composed _ _

theorem charBytes_mild (i : Nat) (args : List LuaValue) : Mild (charBytes i args) := by
  induction args generalizing i with
  | nil => exact .ok _
  | cons v rest ih =>
    cases v with
    | integer n =>
      unfold charBytes
      split_ifs
      · exact .typeError _
      · exact .bind (ih _) fun _ => .ok _
    | _ => exact .typeError _

theorem stringChar_composed : Composed (stringChar args) :=
  .bind (.charge _) fun _ _ => .bind (.trackAlloc _) fun _ _ =>
    .bind (.liftError (charBytes_mild ..)) fun _ _ => .pure _

end Strings

section Format

theorem formatReadNumber_mild (fmt : Bytes) : Mild (formatReadNumber fmt) := by
  unfold formatReadNumber
  dsimp only
  split_ifs
  · exact .runtimeErr _
  all_goals exact .ok _

theorem formatReadSpec_mild (fmt : Bytes) : Mild (formatReadSpec fmt) := by
  refine .bind (formatReadNumber_mild _) fun ⟨width, rest⟩ => ?_
  dsimp only
  split_ifs
  · exact .bind (formatReadNumber_mild _) fun _ => .ok _
  · exact .ok _

theorem formatBody_mild (args : List LuaValue) (argIdx : Nat) (spec : FormatSpec) (conv : UInt8)
    (read : Bytes) : Mild (formatBody args argIdx spec conv read) := by
  unfold formatBody
  split_ifs
  · exact .bind (requireInteger_mild ..) fun _ => .ok _
  · exact .bind (requireInteger_mild ..) fun _ => .ok _
  · exact .runtimeErr _
  · exact .bind (requireArg_mild ..) fun _ => .ok _
  · exact .runtimeErr _
  · exact .runtimeErr _

theorem formatConversion_mild (args : List LuaValue) (argIdx : Nat) (fmt : Bytes) :
    Mild (formatConversion args argIdx fmt) :=
  .bind (formatReadSpec_mild fmt) fun found => by
    rcases found with ⟨spec, - | ⟨conv, rest⟩⟩
    · exact .runtimeErr _
    · exact .bind (formatBody_mild ..) fun _ => .ok _

theorem formatLoop_mild (args : List LuaValue) (fuel : Nat) (fmt : Bytes) (argIdx : Nat)
    (result : Bytes) : Mild (formatLoop args fuel fmt argIdx result) := by
  induction fuel generalizing fmt argIdx result with
  | zero => exact .ok _
  | succ fuel ih =>
    cases fmt with
    | nil => exact .ok _
    | cons b rest =>
      unfold formatLoop
      split_ifs
      · exact ih _ _ _
      · cases rest with
        | nil => exact .runtimeErr _
        | cons c rest =>
          dsimp only
          split_ifs
          · exact ih _ _ _
          · exact .bind (formatConversion_mild ..) fun _ =>
              .bind (checkStringLen_mild _) fun _ => ih _ _ _

theorem stringFormat_composed (args : List LuaValue) : Composed (stringFormat args) :=
  .bind (.liftError (requireString_mild ..)) fun _ _ =>
    .bind (.liftError (formatLoop_mild ..)) fun _ _ =>
      .bind (.liftError (checkStringLen_mild _)) fun _ _ => .bind (.charge _) fun _ _ =>
        .bind (.trackAlloc _) fun _ _ => .pure _

end Format

section Arithmetic

variable (args : List LuaValue)

theorem mathAbs_composed : Composed (mathAbs args) :=
  .bind (.liftError (requireInteger_mild ..)) fun _ _ => .pure _

theorem extremum_mild (fname : String) (better : Int64 → Int64 → Bool) (result : Int64)
    (args : List LuaValue) : Mild (extremum fname better result args) := by
  induction args generalizing result with
  | nil => exact .ok _
  | cons v rest ih =>
    cases v with
    | integer n => exact ih _
    | _ => exact .typeError _

theorem mathExtremum_composed (fname : String) (better : Int64 → Int64 → Bool) :
    Composed (mathExtremum fname better args) := by
  unfold mathExtremum
  split_ifs
  · exact .raise nofun
  · exact .bind (.liftError (requireInteger_mild ..)) fun _ _ =>
      .bind (.liftError (extremum_mild ..)) fun _ _ => .pure _

theorem mathScaleDiv_composed : Composed (mathScaleDiv args) :=
  .bind (.liftError (requireInteger_mild ..)) fun _ _ =>
    .bind (.liftError (requireInteger_mild ..)) fun _ _ =>
      .bind (.liftError (requireInteger_mild ..)) fun _ _ => by
        split_ifs
        · exact .raise (by rintro ⟨⟩)
        · split
          · exact .pure _
          · exact .raise (by rintro ⟨⟩)

theorem requireScale_mild (idx : Nat) (fname : String) : Mild (requireScale args idx fname) :=
  .bind (requireInteger_mild ..) fun _ => by
    split_ifs
    · exact .ok _
    · exact .runtimeErr _

theorem decimalParse_composed : Composed (decimalParse args) :=
  .bind (.liftError (requireString_mild ..)) fun _ _ =>
    .bind (.liftError (requireScale_mild ..)) fun _ _ => .bind (.charge _) fun _ _ => by
      split
      · exact .pure _
      · exact .raise nofun

theorem decimalFormat_composed : Composed (decimalFormat args) :=
  .bind (.liftError (requireInteger_mild ..)) fun _ _ =>
    .bind (.liftError (requireScale_mild ..)) fun _ _ => .bind (.charge _) fun _ _ =>
      .bind (.trackAlloc _) fun _ _ => .pure _

theorem decimalRescale_composed : Composed (decimalRescale args) :=
  .bind (.liftError (requireInteger_mild ..)) fun _ _ =>
    .bind (.liftError (requireScale_mild ..)) fun _ _ =>
      .bind (.liftError (requireScale_mild ..)) fun _ _ => by
        dsimp only
        split_ifs
        · split
          · exact .pure _
          · exact .raise (by rintro ⟨⟩)
        · exact .raise (by rintro ⟨⟩)
        · exact .pure _

end Arithmetic

section Tables

variable (args : List LuaValue)

theorem select_composed : Composed (select args) :=
  .bind (.charge _) fun _ _ => .bind (.liftError (requireArg_mild ..)) fun index _ => by
    dsimp only
    split
    · split_ifs
      · exact .pure _
      · exact .raise nofun
    · split_ifs
      all_goals first
        | exact .raise nofun
        | exact .bind (.orPanic _) fun _ _ => .pure _
    · exact .raise nofun

theorem unpack_composed : Composed (unpack args) :=
  .bind (.liftError (requireTable_mild ..)) fun _ _ => .bind (.getTable _) fun _ _ =>
    .bind (.liftError (optionalInteger_mild ..)) fun _ _ =>
      .bind (.liftError (optionalInteger_mild ..)) fun _ _ => by
        split_ifs
        · exact .pure _
        · exact .bind .getTarget fun _ _ => .bind (.orPanic _) fun _ _ =>
            .bind (.orPanic _) fun _ _ => .bind (.orPanic _) fun _ _ =>
              .bind (.orPanic _) fun _ _ => .bind (.charge _) fun _ _ =>
                .bind (.orPanic _) fun _ _ => .bind (.orPanic _) fun _ _ =>
                  .bind (.getTable _) fun _ _ => .pure _

theorem shiftRight_composed (t : TableRef) (pos k : Nat) : Composed (shiftRight t pos k) := by
  induction k with
  | zero => exact .pure _
  | succ k ih =>
    unfold shiftRight
    split_ifs
    · exact .pure _
    · exact .bind (.getOrNil _ _) fun _ _ => .bind (.rawsetCharged _ _ _) fun _ _ => ih

theorem insertion_mild (len : Nat) : Mild (insertion args len) := by
  unfold insertion
  split
  · exact .bind (requireInteger_mild ..) fun _ => .ok _
  · exact .ok _
  · exact .runtimeErr _

theorem tableInsert_composed : Composed (tableInsert args) :=
  .bind (.liftError (requireTable_mild ..)) fun _ _ => .bind (.getTable _) fun _ _ =>
    .bind (.liftError (insertion_mild ..)) fun ⟨pos, value⟩ _ => by
      dsimp only
      split_ifs
      · exact .raise nofun
      · exact .bind (.charge _) fun _ _ => .bind (shiftRight_composed _ _ _) fun _ _ =>
          .bind (.rawsetCharged _ _ _) fun _ _ => .pure _

theorem shiftLeft_composed (t : TableRef) (pos count : Nat) : Composed (shiftLeft t pos count) := by
  induction count generalizing pos with
  | zero => exact .pure _
  | succ count ih =>
    exact .bind (.getOrNil _ _) fun _ _ => .bind (.rawset _ _ _) fun _ _ => ih _

theorem trailingInteger_mild (idx : Nat) (fname : String) (default : Int64) :
    Mild (trailingInteger args idx fname default) := by
  unfold trailingInteger
  split_ifs
  · exact requireInteger_mild ..
  · exact .ok _

theorem tableRemove_composed : Composed (tableRemove args) :=
  .bind (.liftError (requireTable_mild ..)) fun _ _ => .bind (.getTable _) fun _ _ => by
    dsimp only
    split_ifs
    · exact .pure _
    · refine .bind (.liftError (trailingInteger_mild ..)) fun _ _ => ?_
      split_ifs
      · exact .raise nofun
      · exact .bind (.getOrNil _ _) fun _ _ => .bind (.charge _) fun _ _ =>
          .bind (shiftLeft_composed _ _ _) fun _ _ => .bind (.rawremove _ _) fun _ _ => .pure _

theorem concatParts_mild (t : LuaTable LuaValue) (k : Int) (count : Nat) :
    Mild (concatParts t k count) := by
  induction count generalizing k with
  | zero => exact .ok _
  | succ count ih =>
    unfold concatParts
    split
    · exact .bind (ih _) fun _ => .ok _
    · exact .runtimeErr _

theorem concatSep_mild : Mild (concatSep args) := by
  unfold concatSep
  split
  · exact .ok _
  · exact .ok _
  · exact .ok _
  · exact .typeError _

theorem tableConcat_composed : Composed (tableConcat args) :=
  .bind (.liftError (requireTable_mild ..)) fun _ _ => .bind (.getTable _) fun _ _ =>
    .bind (.liftError (concatSep_mild _)) fun _ _ =>
      .bind (.liftError (trailingInteger_mild ..)) fun _ _ =>
        .bind (.liftError (trailingInteger_mild ..)) fun _ _ => by
          split_ifs
          · exact .pure _
          · exact .bind (.getTable _) fun _ _ =>
              .bind (.liftError (concatParts_mild ..)) fun _ _ => .bind .getTarget fun _ _ =>
                .bind (.orPanic _) fun _ _ => .bind (.orPanic _) fun _ _ =>
                  .bind (.orPanic _) fun _ _ => .bind (.liftError (checkStringLen_mild _)) fun _ _ =>
                    .bind (.charge _) fun _ _ => .bind (.trackAlloc _) fun _ _ =>
                      .bind (.orPanic _) fun _ _ => .pure _

theorem moveValues_composed (dest : TableRef) (tPos : Int64) (idx : Nat) (vs : List LuaValue) :
    Composed (moveValues dest tPos idx vs) := by
  induction vs generalizing idx with
  | nil => exact .pure _
  | cons v rest ih =>
    exact .bind .getTarget fun _ _ => .bind (.orPanic _) fun _ _ =>
      .bind (.rawset _ _ _) fun _ _ => ih _

theorem tableMove_composed : Composed (tableMove args) :=
  .bind (.liftError (requireTable_mild ..)) fun _ _ =>
    .bind (.liftError (requireInteger_mild ..)) fun _ _ =>
      .bind (.liftError (requireInteger_mild ..)) fun _ _ =>
        .bind (.liftError (requireInteger_mild ..)) fun _ _ =>
          .bind (.liftError (by
            split_ifs
            · exact requireTable_mild ..
            · exact .ok _)) fun _ _ => by
              dsimp only
              generalize (if args.length ≥ 5 then _ else _) = result
              split_ifs
              · exact .pure _
              · exact .bind .getTarget fun _ _ => .bind (.orPanic _) fun _ _ =>
                  .bind (.orPanic _) fun _ _ => .bind (.charge _) fun _ _ =>
                    .bind (.orPanic _) fun _ _ => .bind (.getTable _) fun _ _ =>
                      .bind (moveValues_composed _ _ _ _) fun _ _ => .pure _

end Tables

end Proveno.Vm
