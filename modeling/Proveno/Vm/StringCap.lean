import Proveno.Vm.Dispatch
import Proveno.Vm.JsonComposed
import Proveno.Vm.JsonModes
import Proveno.Vm.ShortStrings

/-! Every builtin, and the concatenation of values, makes strings within the limit of those that
are. -/

namespace Proveno.Vm

variable {R : TableRef → Prop} {args vs : List LuaValue} {v : LuaValue}

theorem allShort_nil : AllShort R [] := List.forall_mem_nil _

theorem allShort_cons (hv : Short R v) (hvs : AllShort R vs) : AllShort R (v :: vs) := by
  intro x hx
  rcases List.mem_cons.mp hx with rfl | hx
  · exact hv
  · exact hvs x hx

theorem allShort_one (hv : Short R v) : AllShort R [v] := allShort_cons hv allShort_nil

section Arguments

variable {idx : Nat} {fname : String}

theorem AllShort.arg (hargs : AllShort R args) (h : requireArg args idx fname = .ok v) :
    Short R v :=
  hargs v (List.mem_of_getElem? (requireArg_ok.mp h))

theorem AllShort.string (hargs : AllShort R args) {s : Bytes}
    (h : requireString args idx fname = .ok s) : s.length ≤ maxStringLen :=
  hargs _ (List.mem_of_getElem? (requireString_ok.mp h))

theorem AllShort.table (hargs : AllShort R args) {t : TableRef}
    (h : requireTable args idx fname = .ok t) : R t :=
  hargs _ (List.mem_of_getElem? (requireTable_ok.mp h))

end Arguments

section Core

theorem type_keeps (args : List LuaValue) : Keeps R (type args) (AllShort R) := by
  refine (Keeps.liftError _).bind fun v _ => .pure (allShort_one ?_)
  have hnames : ∀ name ∈ ["nil", "boolean", "integer", "string", "table", "function"],
      (ascii name).length ≤ maxStringLen := by decide
  refine hnames _ ?_
  cases v <;> simp [LuaValue.typeName]

theorem tostring_keeps (hargs : AllShort R args) : Keeps R (tostring args) (AllShort R) := by
  refine (Keeps.liftError _).bind fun v hv => .pure (allShort_one ?_)
  have hshort := hargs.arg hv
  have hnames : ∀ name ∈ ["nil", "true", "false", "table", "function"],
      (ascii name).length ≤ maxStringLen := by decide
  show v.toLuaString.length ≤ maxStringLen
  cases v with
  | string s => exact hshort
  | integer n => exact (intText_length_le n).trans (by decide)
  | boolean b => exact hnames _ (by cases b <;> simp)
  | _ => exact hnames _ (by simp)

theorem tonumber_keeps (args : List LuaValue) : Keeps R (tonumber args) (AllShort R) := by
  refine (Keeps.liftError _).bind fun v _ => ?_
  cases v with
  | integer n => exact .pure (allShort_one trivial)
  | string s =>
    dsimp only
    split
    · exact .pure (allShort_one trivial)
    · exact .pure (allShort_one trivial)
  | _ => exact .pure (allShort_one trivial)

theorem select_keeps (hargs : AllShort R args) : Keeps R (select args) (AllShort R) := by
  refine (Keeps.charge _).bind fun _ _ => (Keeps.liftError _).bind fun index _ => ?_
  cases index with
  | string s => exact .ite (fun _ => .pure (allShort_one trivial)) fun _ => .raise _
  | integer n =>
    refine .ite (fun _ => .raise _) fun _ => (Keeps.orPanic _).bind fun v hv => .pure ?_
    exact allShort_one (hargs v (List.mem_of_mem_tail (List.mem_of_getElem? hv)))
  | _ => exact .raise _

end Core

section Strings

theorem stringLen_keeps (args : List LuaValue) : Keeps R (stringLen args) (AllShort R) :=
  (Keeps.liftError _).bind fun _ _ => .pure (allShort_one trivial)

theorem length_slice_le {s bytes : Bytes} {start stop : Nat} (h : slice s start stop = some bytes) :
    bytes.length ≤ s.length := by
  unfold slice at h
  split_ifs at h
  obtain rfl := Option.some.inj h
  rw [List.length_take, List.length_drop]
  omega

theorem stringSub_keeps (hargs : AllShort R args) : Keeps R (stringSub args) (AllShort R) := by
  refine (Keeps.liftError _).bind fun s hs => (Keeps.liftError _).bind fun i _ =>
    (Keeps.liftError _).bind fun j _ => ?_
  refine Keeps.getTarget.bind fun _ _ => (Keeps.orPanic _).bind fun start _ =>
    (Keeps.orPanic _).bind fun stop _ => .ite (fun _ => .pure (allShort_one (Nat.zero_le _)))
      fun _ => ?_
  refine (Keeps.charge _).bind fun _ _ => (Keeps.trackAlloc _).bind fun _ _ =>
    (Keeps.orPanic _).bind fun bytes hbytes => .pure (allShort_one ?_)
  exact (length_slice_le hbytes).trans (hargs.string hs)

theorem literalSubstringSearch_keeps (haystack needle : Bytes) (init : Nat) :
    Keeps R (literalSubstringSearch haystack needle init) (AllShort R) := by
  have htwo {v w : LuaValue} (hv : Short R v) (hw : Short R w) : AllShort R [v, w] :=
    allShort_cons hv (allShort_one hw)
  refine (Keeps.charge _).bind fun _ _ => .ite (fun _ => .pure (htwo trivial trivial)) fun _ =>
    .ite (fun _ => .pure (htwo trivial trivial)) fun _ => ?_
  split
  · exact .pure (htwo trivial trivial)
  · exact .pure (htwo trivial trivial)

theorem stringFind_keeps (args : List LuaValue) : Keeps R (stringFind args) (AllShort R) := by
  refine (Keeps.liftError _).bind fun s _ => (Keeps.liftError _).bind fun pat _ =>
    Keeps.getTarget.bind fun tgt _ => (Keeps.liftError _).bind fun init _ =>
      (Keeps.liftError _).bind fun plain _ => ?_
  cases plain with
  | true => exact literalSubstringSearch_keeps s pat init
  | false => exact (Keeps.liftError _).bind fun _ _ => literalSubstringSearch_keeps s pat init

theorem stringFindLiteral_keeps (args : List LuaValue) :
    Keeps R (stringFindLiteral args) (AllShort R) :=
  (Keeps.liftError _).bind fun _ _ => (Keeps.liftError _).bind fun _ _ =>
    Keeps.getTarget.bind fun _ _ => (Keeps.liftError _).bind fun _ _ =>
      literalSubstringSearch_keeps _ _ _

theorem mapBytes_keeps (fname : String) (f : UInt8 → UInt8) (hargs : AllShort R args) :
    Keeps R (mapBytes fname f args) (AllShort R) := by
  refine (Keeps.liftError _).bind fun s hs => (Keeps.charge _).bind fun _ _ =>
    (Keeps.trackAlloc _).bind fun _ _ => .pure (allShort_one ?_)
  show (s.map f).length ≤ maxStringLen
  rw [List.length_map]
  exact hargs.string hs

/-- A saturated product within the limit is the product itself. -/
theorem repeated_keeps (s : Bytes) (n : Nat) : Keeps R (repeated s n) (AllShort R) := by
  refine Keeps.getTarget.bind fun tgt htgt => (Keeps.liftError _).bind fun _ hcheck =>
    (Keeps.charge _).bind fun _ _ => (Keeps.trackAlloc _).bind fun _ _ =>
      .pure (allShort_one ?_)
  have hlen := checkStringLen_ok.mp hcheck
  have hcap : maxStringLen < 2 ^ tgt.wordBits - 1 := by
    have hword : 2 ^ 32 ≤ 2 ^ tgt.wordBits := Nat.pow_le_pow_right (by norm_num) htgt
    have hmax : maxStringLen = 65536 := rfl
    omega
  have hflat : (List.replicate n s).flatten.length = s.length * n := by
    rw [List.length_flatten, List.map_replicate, List.sum_replicate, smul_eq_mul, Nat.mul_comm]
  show (List.replicate n s).flatten.length ≤ maxStringLen
  omega

theorem stringRep_keeps (args : List LuaValue) : Keeps R (stringRep args) (AllShort R) :=
  (Keeps.liftError _).bind fun _ _ => (Keeps.liftError _).bind fun _ _ =>
    .ite (fun _ => .pure (allShort_one (Nat.zero_le _))) fun _ =>
      Keeps.getTarget.bind fun _ _ => repeated_keeps _ _

theorem stringByte_keeps (args : List LuaValue) : Keeps R (stringByte args) (AllShort R) := by
  refine (Keeps.liftError _).bind fun s _ => (Keeps.liftError _).bind fun i _ => ?_
  refine Keeps.getTarget.bind fun _ _ => (Keeps.orPanic _).bind fun start _ =>
    (Keeps.orPanic _).bind fun stop _ => .ite (fun _ => .pure allShort_nil) fun _ => ?_
  refine (Keeps.charge _).bind fun _ _ => (Keeps.orPanic _).bind fun bytes _ => .pure ?_
  intro v hv
  obtain ⟨b, -, rfl⟩ := List.mem_map.mp hv
  trivial

theorem length_charBytes {i : Nat} {bytes : Bytes} (h : charBytes i args = .ok bytes) :
    bytes.length = args.length := by
  induction args generalizing i bytes with
  | nil =>
    cases h
    rfl
  | cons v rest ih =>
    cases v with
    | integer n =>
      rw [charBytes] at h
      split_ifs at h
      cases hrest : charBytes (i + 1) rest with
      | error e =>
        rw [hrest] at h
        cases h
      | ok bytes' =>
        rw [hrest] at h
        cases h
        rw [List.length_cons, List.length_cons, ih hrest]
    | _ => cases h

theorem stringChar_keeps (hcount : args.length ≤ maxStringLen) :
    Keeps R (stringChar args) (AllShort R) := by
  refine (Keeps.charge _).bind fun _ _ => (Keeps.trackAlloc _).bind fun _ _ =>
    (Keeps.liftError _).bind fun bytes hbytes => .pure (allShort_one ?_)
  show bytes.length ≤ maxStringLen
  rw [length_charBytes hbytes]
  exact hcount

/-- Where the length is checked before the string is made. -/
theorem checked_keeps (bytes : Bytes) :
    Keeps R (liftError (checkStringLen bytes.length) >>= fun _ => charge bytes.length >>= fun _ =>
      trackAlloc (AllocSize.string bytes.length) >>= fun _ => pure [.string bytes])
      (AllShort R) :=
  (Keeps.liftError _).bind fun _ hcheck => (Keeps.charge _).bind fun _ _ =>
    (Keeps.trackAlloc _).bind fun _ _ => .pure (allShort_one (checkStringLen_ok.mp hcheck))

theorem stringFormat_keeps (args : List LuaValue) : Keeps R (stringFormat args) (AllShort R) :=
  (Keeps.liftError _).bind fun _ _ => (Keeps.liftError _).bind fun result _ =>
    checked_keeps result

end Strings

section Numbers

theorem mathAbs_keeps (args : List LuaValue) : Keeps R (mathAbs args) (AllShort R) :=
  (Keeps.liftError _).bind fun _ _ => .pure (allShort_one trivial)

theorem mathExtremum_keeps (fname : String) (better : Int64 → Int64 → Bool)
    (args : List LuaValue) : Keeps R (mathExtremum fname better args) (AllShort R) :=
  .ite (fun _ => .raise _) fun _ => (Keeps.liftError _).bind fun _ _ =>
    (Keeps.liftError _).bind fun _ _ => .pure (allShort_one trivial)

theorem mathScaleDiv_keeps (args : List LuaValue) : Keeps R (mathScaleDiv args) (AllShort R) := by
  refine (Keeps.liftError _).bind fun a _ => (Keeps.liftError _).bind fun b _ =>
    (Keeps.liftError _).bind fun scale _ => .ite (fun _ => .raise _) fun _ => ?_
  split
  · exact .pure (allShort_one trivial)
  · exact .raise _

theorem requireScale_le {idx : Nat} {fname : String} {scale : Nat}
    (h : requireScale args idx fname = .ok scale) : scale ≤ 18 := by
  unfold requireScale at h
  cases hint : requireInteger args idx fname with
  | error e =>
    rw [hint] at h
    cases h
  | ok n =>
    rw [hint] at h
    dsimp only [bind, Except.bind] at h
    split_ifs at h with hrange
    cases h
    have hmax : decimalMaxScale = 18 := rfl
    omega

theorem length_formatDecimal_le (value : Int64) (scale : Nat) :
    (formatDecimal value scale).length ≤ 22 + scale := by
  have hdigits := decimal_natAbs_length_le value
  have hsign : (if value.toInt < 0 then [45] else [] : Bytes).length ≤ 1 := by
    split_ifs
    · exact le_rfl
    · exact Nat.zero_le 1
  have hzero : (ascii "0.").length = 2 := rfl
  unfold formatDecimal
  dsimp only
  generalize (if value.toInt < 0 then [45] else [] : Bytes) = sign at hsign ⊢
  generalize decimal value.toInt.natAbs = digits at hdigits ⊢
  split_ifs
  · rw [List.length_append]
    omega
  · simp only [List.length_append, List.length_cons, List.length_take, List.length_drop]
    omega
  · simp only [List.length_append, List.length_replicate, hzero]
    omega

theorem decimalParse_keeps (args : List LuaValue) : Keeps R (decimalParse args) (AllShort R) := by
  refine (Keeps.liftError _).bind fun text _ => (Keeps.liftError _).bind fun scale _ =>
    (Keeps.charge _).bind fun _ _ => ?_
  split
  · exact .pure (allShort_one trivial)
  · exact .raise _

theorem decimalFormat_keeps (args : List LuaValue) :
    Keeps R (decimalFormat args) (AllShort R) := by
  refine (Keeps.liftError _).bind fun value _ => (Keeps.liftError _).bind fun scale hscale =>
    (Keeps.charge _).bind fun _ _ => (Keeps.trackAlloc _).bind fun _ _ =>
      .pure (allShort_one ?_)
  have hlen := length_formatDecimal_le value scale
  have hle := requireScale_le hscale
  have hmax : maxStringLen = 65536 := rfl
  show (formatDecimal value scale).length ≤ maxStringLen
  omega

theorem decimalRescale_keeps (args : List LuaValue) :
    Keeps R (decimalRescale args) (AllShort R) := by
  refine (Keeps.liftError _).bind fun value _ => (Keeps.liftError _).bind fun fromScale _ =>
    (Keeps.liftError _).bind fun toScale _ => .ite (fun _ => ?_) fun _ =>
      .ite (fun _ => .raise _) fun _ => .pure (allShort_one trivial)
  split
  · exact .pure (allShort_one trivial)
  · exact .raise _

end Numbers

section Tables

variable {t : TableRef}

theorem shortKey_integer (n : Int64) : ShortKey (.integer n) := trivial

theorem allShort_valuesFrom {table : LuaTable LuaValue} (ht : table.Holds ShortKey (Short R))
    (i : Int64) (count : Nat) : AllShort R (valuesFrom table i count) := by
  intro v hv
  obtain ⟨k, -, rfl⟩ := List.mem_map.mp hv
  cases hget : table.get (.integer (Int64.ofInt (i.toInt + k))) with
  | none => trivial
  | some v => exact ht.get hget

theorem unpack_keeps (hargs : AllShort R args) : Keeps R (unpack args) (AllShort R) := by
  refine (Keeps.liftError _).bind fun t ht => (Keeps.getTable _).bind fun _ _ =>
    (Keeps.liftError _).bind fun i _ => (Keeps.liftError _).bind fun j _ =>
      .ite (fun _ => .pure allShort_nil) fun _ => ?_
  refine Keeps.getTarget.bind fun _ _ => (Keeps.orPanic _).bind fun _ _ =>
    (Keeps.orPanic _).bind fun _ _ => (Keeps.orPanic _).bind fun _ _ =>
      (Keeps.orPanic _).bind fun _ _ => (Keeps.charge _).bind fun _ _ =>
        (Keeps.orPanic _).bind fun _ _ => (Keeps.orPanic _).bind fun _ _ => ?_
  refine (Keeps.getTable t).bind fun table htable => .pure ?_
  exact allShort_valuesFrom (htable (hargs.table ht)) _ _

theorem shiftRight_keeps (ht : R t) (pos k : Nat) :
    Keeps R (shiftRight t pos k) fun _ => True := by
  induction k with
  | zero => exact .pure trivial
  | succ k ih =>
    refine .ite (fun _ => .pure trivial) fun _ => (Keeps.getOrNil ht _).bind fun v hv => ?_
    exact (Keeps.rawsetCharged (shortKey_integer _) hv).bind fun _ _ => ih

theorem insertion_short (hargs : AllShort R args) {len : Nat} {r : Int64 × LuaValue}
    (h : insertion args len = .ok r) : Short R r.2 := by
  unfold insertion at h
  split at h
  · next x y value rest =>
    cases hint : requireInteger (x :: y :: value :: rest) 1 "table.insert" with
    | error e =>
      rw [hint] at h
      cases h
    | ok p =>
      rw [hint] at h
      cases h
      exact hargs value (by simp)
  · next x value =>
    cases h
    exact hargs value (by simp)
  · cases h

theorem tableInsert_keeps (hargs : AllShort R args) :
    Keeps R (tableInsert args) (AllShort R) := by
  refine (Keeps.liftError _).bind fun t ht => (Keeps.getTable _).bind fun _ _ =>
    (Keeps.liftError _).bind fun r hr => .ite (fun _ => .raise _) fun _ => ?_
  refine (Keeps.charge _).bind fun _ _ => (shiftRight_keeps (hargs.table ht) _ _).bind
    fun _ _ => ?_
  exact (Keeps.rawsetCharged (shortKey_integer _) (insertion_short hargs hr)).bind fun _ _ =>
    .pure allShort_nil

theorem shiftLeft_keeps (ht : R t) (pos count : Nat) :
    Keeps R (shiftLeft t pos count) fun _ => True := by
  induction count generalizing pos with
  | zero => exact .pure trivial
  | succ count ih =>
    refine (Keeps.getOrNil ht _).bind fun v hv => ?_
    exact (Keeps.rawset (shortKey_integer _) hv).bind fun _ _ => ih (pos + 1)

theorem tableRemove_keeps (hargs : AllShort R args) :
    Keeps R (tableRemove args) (AllShort R) := by
  refine (Keeps.liftError _).bind fun t ht => (Keeps.getTable _).bind fun _ _ =>
    .ite (fun _ => .pure (allShort_one trivial)) fun _ => (Keeps.liftError _).bind fun pos _ =>
      .ite (fun _ => .raise _) fun _ => ?_
  refine (Keeps.getOrNil (hargs.table ht) _).bind fun removed hremoved =>
    (Keeps.charge _).bind fun _ _ => (shiftLeft_keeps (hargs.table ht) _ _).bind fun _ _ => ?_
  exact (Keeps.rawremove _ _).bind fun _ _ => .pure (allShort_one hremoved)

theorem length_intercalate (sep : Bytes) (parts : List Bytes) :
    (sep.intercalate parts).length =
      (parts.map List.length).sum + sep.length * (parts.length - 1) := by
  induction parts with
  | nil => rfl
  | cons part rest ih =>
    cases rest with
    | nil => simp
    | cons next rest =>
      rw [List.intercalate_cons_cons, List.length_append, List.length_append, ih]
      simp only [List.map_cons, List.sum_cons, List.length_cons, Nat.add_sub_cancel]
      rw [Nat.mul_succ]
      omega

theorem checkedUsize_eq {tgt : Target} {exact n : Nat} (h : tgt.checkedUsize exact = some n)
    (hlt : exact < 2 ^ tgt.wordBits) : n = exact := by
  unfold Target.checkedUsize at h
  split_ifs at h
  rw [← Option.some.inj h, Nat.mod_eq_of_lt hlt]

/-- A vector that can be grown to a length has no length that wraps. -/
theorem tableConcat_keeps (args : List LuaValue) : Keeps R (tableConcat args) (AllShort R) := by
  refine (Keeps.liftError _).bind fun t _ => (Keeps.getTable _).bind fun _ _ =>
    (Keeps.liftError _).bind fun sep _ => (Keeps.liftError _).bind fun i _ =>
      (Keeps.liftError _).bind fun j _ => .ite
        (fun _ => .pure (allShort_one (Nat.zero_le _))) fun _ => ?_
  refine (Keeps.getTable _).bind fun _ _ => (Keeps.liftError _).bind fun parts _ =>
    Keeps.getTarget.bind fun tgt htgt => (Keeps.orPanic _).bind fun partsLen hparts =>
      (Keeps.orPanic _).bind fun sepLen hsep => (Keeps.orPanic _).bind fun resultLen hresult =>
        (Keeps.liftError _).bind fun _ hcheck => (Keeps.charge _).bind fun _ _ =>
          (Keeps.trackAlloc _).bind fun _ _ => (Keeps.orPanic _).bind fun _ hgrow =>
            .pure (allShort_one ?_)
  have hlen := length_intercalate sep parts
  have hlt : (sep.intercalate parts).length < 2 ^ tgt.wordBits := by
    unfold Target.growBytes at hgrow
    split_ifs at hgrow with hcap
    exact hcap.trans_le (Nat.pow_le_pow_right (by norm_num) (Nat.sub_le _ _))
  obtain rfl := checkedUsize_eq hparts (by omega)
  obtain rfl := checkedUsize_eq hsep (by omega)
  obtain rfl := checkedUsize_eq hresult (by omega)
  show (sep.intercalate parts).length ≤ maxStringLen
  rw [hlen]
  exact checkStringLen_ok.mp hcheck

theorem moveValues_keeps (dest : TableRef) (tPos : Int64) (idx : Nat) (hvs : AllShort R vs) :
    Keeps R (moveValues dest tPos idx vs) fun _ => True := by
  induction vs generalizing idx with
  | nil => exact .pure trivial
  | cons v rest ih =>
    refine Keeps.getTarget.bind fun _ _ => (Keeps.orPanic _).bind fun key _ => ?_
    refine (Keeps.rawset (shortKey_integer _) (hvs v List.mem_cons_self)).bind fun _ _ => ?_
    exact ih (idx + 1) fun v hv => hvs v (List.mem_cons_of_mem _ hv)

theorem tableMove_keeps (hargs : AllShort R args) : Keeps R (tableMove args) (AllShort R) := by
  refine (Keeps.liftError _).bind fun a ha => (Keeps.liftError _).bind fun f _ =>
    (Keeps.liftError _).bind fun e _ => (Keeps.liftError _).bind fun tPos _ =>
      (Keeps.liftError _).bind fun a2 ha2 => ?_
  have hresult : AllShort R (if args.length ≥ 5 then [.table a2] else []) := by
    split_ifs at ha2 ⊢
    · exact allShort_one (hargs.table ha2)
    · exact allShort_nil
  refine .ite (fun _ => .pure hresult) fun _ => Keeps.getTarget.bind fun _ _ =>
    (Keeps.orPanic _).bind fun _ _ => (Keeps.orPanic _).bind fun _ _ =>
      (Keeps.charge _).bind fun _ _ => (Keeps.orPanic _).bind fun _ _ => ?_
  refine (Keeps.getTable a).bind fun table htable => ?_
  exact (moveValues_keeps a2 tPos 0
    (allShort_valuesFrom (htable (hargs.table ha)) f _)).bind fun _ _ => .pure hresult

end Tables

section Json

open Json

variable {mode : NumberMode} {total fuel : Nat} {s : Bytes}

theorem jsonEncode_keeps (args : List LuaValue) : Keeps R (jsonEncode args) (AllShort R) := by
  refine (Keeps.liftError _).bind fun v _ => Keeps.get.bind fun c _ => ?_
  dsimp only
  split
  · exact .raise _
  · exact checked_keeps _

theorem encodeChar_length_le (c : Nat) : (encodeChar c).length ≤ 4 := by
  unfold encodeChar
  split_ifs <;> simp

/-- An escape is at least as long as what it stands for. -/
theorem stringBody_total {out : Bytes} {r : Bytes × Bytes} (h : stringBody out s = .ok r) :
    r.1.length + r.2.length ≤ out.length + s.length := by
  fun_induction stringBody out s with
  | case2 =>
    cases h
    exact Nat.add_le_add_left (Nat.le_succ _) _
  | case4 _ _ _ _ _ _ ih =>
    have htotal := ih h
    simp only [List.length_append, List.length_cons, List.length_nil] at htotal ⊢
    omega
  | case5 _ _ _ _ _ _ code _ _ _ ih =>
    have htotal := ih h
    have hchar := encodeChar_length_le (codePoint code)
    simp only [List.length_append, List.length_cons] at htotal ⊢
    omega
  | case9 _ _ _ _ _ ih =>
    have htotal := ih h
    simp only [List.length_append, List.length_cons, List.length_nil] at htotal ⊢
    omega
  | _ => cases h

/-- What is read of the input, and what is left of it. -/
def ReadShort (R : TableRef → Prop) (r : LuaValue × Bytes) : Prop :=
  Short R r.1 ∧ r.2.length ≤ maxStringLen

theorem expect_keeps (b : UInt8) (hs : s.length ≤ maxStringLen) :
    Keeps R (expect total b s) fun rest => rest.length ≤ maxStringLen := by
  refine .ite (fun _ => .pure ?_) fun _ => .raise _
  rw [List.length_tail]
  omega

theorem expectLit_keeps (literal : Bytes) {v : LuaValue} (hv : Short R v)
    (hs : s.length ≤ maxStringLen) : Keeps R (expectLit total literal v s) (ReadShort R) := by
  refine .ite (fun _ => .pure ⟨hv, ?_⟩) fun _ => .raise _
  rw [List.length_drop]
  omega

theorem parseString_keeps (hs : s.length ≤ maxStringLen) :
    Keeps R (parseString total s) fun r =>
      r.1.length ≤ maxStringLen ∧ r.2.length ≤ maxStringLen := by
  refine (expect_keeps 34 hs).bind fun rest hrest => (Keeps.liftError _).bind fun r hr =>
    (Keeps.trackAlloc _).bind fun _ _ => .pure ?_
  have htotal := stringBody_total hr
  rw [List.length_nil, Nat.zero_add] at htotal
  have hle := htotal.trans hrest
  exact ⟨(Nat.le_add_right _ _).trans hle, (Nat.le_add_left _ _).trans hle⟩

theorem parseNumber_keeps (hs : s.length ≤ maxStringLen) :
    Keeps R (parseNumber mode s) (ReadShort R) := by
  cases mode with
  | integer =>
    refine .ite (fun _ => .raise _) fun _ => ?_
    split
    · refine .pure ⟨trivial, ?_⟩
      exact ((List.dropWhile_suffix _).length_le.trans (splitSign_length s)).trans hs
    · exact .raise _
  | verbatim =>
    refine (Keeps.liftError _).bind fun r hr => (Keeps.trackAlloc _).bind fun _ _ => .pure ?_
    obtain ⟨rfl, -⟩ := numberText_ok hr
    rw [List.length_append] at hs
    exact ⟨(Nat.le_add_right _ _).trans hs, (Nat.le_add_left _ _).trans hs⟩

/-- The recursive calls of the parser. -/
structure ParsesShort (R : TableRef → Prop) (mode : NumberMode) (total fuel : Nat) : Prop where
  value : ∀ depth s, s.length ≤ maxStringLen →
    Keeps R (parseValue mode total fuel depth s) (ReadShort R)
  array : ∀ depth t idx s, R t → s.length ≤ maxStringLen →
    Keeps R (parseArray mode total fuel depth t idx s) (ReadShort R)
  object : ∀ depth t s, R t → s.length ≤ maxStringLen →
    Keeps R (parseObject mode total fuel depth t s) (ReadShort R)

theorem tail_skipWs_le (hs : s.length ≤ maxStringLen) : (skipWs s).tail.length ≤ maxStringLen := by
  have hskip := length_skipWs_le s
  rw [List.length_tail]
  omega

theorem ParsesShort.parseValue (ih : ParsesShort R mode total fuel) (depth : Nat)
    (hs : s.length ≤ maxStringLen) :
    Keeps R (parseValue mode total (fuel + 1) depth s) (ReadShort R) := by
  rw [Json.parseValue]
  refine .ite (fun _ => .raise _) fun _ => ?_
  have hskip := (length_skipWs_le s).trans hs
  split
  · exact .raise _
  · next b rest hb =>
    rw [hb] at hskip
    have hrest : rest.length ≤ maxStringLen := (Nat.le_succ _).trans hskip
    have hrest' := (length_skipWs_le rest).trans hrest
    refine .ite (fun _ => ?_) fun _ => .ite (fun _ => ?_) fun _ => .ite (fun _ => ?_) fun _ =>
      .ite (fun _ => ?_) fun _ => .ite (fun _ => ?_) fun _ => .ite (fun _ => ?_) fun _ =>
        .ite (fun _ => ?_) fun _ => .raise _
    · exact (parseString_keeps hskip).bind fun r hr => .pure hr
    · refine Keeps.newTable.bind fun t ht => .ite (fun _ => .pure ⟨ht, ?_⟩) fun _ => ?_
      · exact tail_skipWs_le hrest
      · exact ih.object _ _ _ ht hrest'
    · refine Keeps.newTable.bind fun t ht => .ite (fun _ => .pure ⟨ht, ?_⟩) fun _ => ?_
      · exact tail_skipWs_le hrest
      · exact ih.array _ _ _ _ ht hrest'
    · exact expectLit_keeps _ trivial hskip
    · exact expectLit_keeps _ trivial hskip
    · exact expectLit_keeps _ trivial hskip
    · exact parseNumber_keeps hskip

theorem ParsesShort.parseArray (ih : ParsesShort R mode total fuel) (depth : Nat) {t : TableRef}
    (idx : Nat) (ht : R t) (hs : s.length ≤ maxStringLen) :
    Keeps R (parseArray mode total (fuel + 1) depth t idx s) (ReadShort R) := by
  rw [Json.parseArray]
  refine (ih.value depth s hs).bind fun r hr =>
    (Keeps.rawsetCharged (shortKey_integer _) hr.1).bind fun _ _ => ?_
  have hafter := tail_skipWs_le hr.2
  exact .ite (fun _ => ih.array _ _ _ _ ht hafter) fun _ =>
    .ite (fun _ => .pure ⟨ht, hafter⟩) fun _ => .raise _

theorem ParsesShort.parseObject (ih : ParsesShort R mode total fuel) (depth : Nat) {t : TableRef}
    (ht : R t) (hs : s.length ≤ maxStringLen) :
    Keeps R (parseObject mode total (fuel + 1) depth t s) (ReadShort R) := by
  rw [Json.parseObject]
  refine (parseString_keeps ((length_skipWs_le s).trans hs)).bind fun key hkey =>
    (expect_keeps 58 ((length_skipWs_le _).trans hkey.2)).bind fun rest hrest =>
      (ih.value depth rest hrest).bind fun r hr => ?_
  refine (Keeps.rawsetCharged (show ShortKey (.string key.1) from hkey.1) hr.1).bind fun _ _ => ?_
  have hafter := tail_skipWs_le hr.2
  exact .ite (fun _ => ih.object _ _ _ ht hafter) fun _ =>
    .ite (fun _ => .pure ⟨ht, hafter⟩) fun _ => .raise _

theorem parsesShort (fuel : Nat) : ParsesShort R mode total fuel := by
  induction fuel with
  | zero =>
    refine ⟨fun depth s _ => ?_, fun depth t idx s _ _ => ?_, fun depth t s _ _ => ?_⟩
    · rw [Json.parseValue]
      exact .throw .outOfFuel
    · rw [Json.parseArray]
      exact .throw .outOfFuel
    · rw [Json.parseObject]
      exact .throw .outOfFuel
  | succ fuel ih => exact ⟨fun depth s hs => ih.parseValue depth hs,
      fun depth t idx s ht hs => ih.parseArray depth idx ht hs,
      fun depth t s ht hs => ih.parseObject depth ht hs⟩

theorem jsonDecodeWith_keeps (mode : NumberMode) (fname : String) (hargs : AllShort R args) :
    Keeps R (jsonDecodeWith mode fname args) (AllShort R) := by
  refine (Keeps.liftError _).bind fun input hinput => (Keeps.charge _).bind fun _ _ => ?_
  refine ((parsesShort _).value 0 input (hargs.string hinput)).bind fun r hr => ?_
  exact .ite (fun _ => .raise _) fun _ => .pure (allShort_one hr.1)

end Json

/-- Short arguments give short results. -/
theorem callBuiltin_keeps (id : BuiltinId) (hcount : args.length ≤ maxStringLen)
    (hargs : AllShort R args) : Keeps R (callBuiltin id args) (AllShort R) := by
  cases id with
  | type => exact type_keeps args
  | tostring => exact tostring_keeps hargs
  | tonumber => exact tonumber_keeps args
  | select => exact select_keeps hargs
  | unpack => exact unpack_keeps hargs
  | stringLen => exact stringLen_keeps args
  | stringSub => exact stringSub_keeps hargs
  | stringFind => exact stringFind_keeps args
  | stringFindLiteral => exact stringFindLiteral_keeps args
  | stringUpper => exact mapBytes_keeps _ _ hargs
  | stringLower => exact mapBytes_keeps _ _ hargs
  | stringRep => exact stringRep_keeps args
  | stringByte => exact stringByte_keeps args
  | stringChar => exact stringChar_keeps hcount
  | stringFormat => exact stringFormat_keeps args
  | stringUnsupported => exact .raise _
  | mathAbs => exact mathAbs_keeps args
  | mathMin => exact mathExtremum_keeps _ _ args
  | mathMax => exact mathExtremum_keeps _ _ args
  | mathScaleDiv => exact mathScaleDiv_keeps args
  | tableInsert => exact tableInsert_keeps hargs
  | tableRemove => exact tableRemove_keeps hargs
  | tableConcat => exact tableConcat_keeps args
  | tableMove => exact tableMove_keeps hargs
  | tableSort => exact .raise _
  | jsonEncode => exact jsonEncode_keeps args
  | jsonDecode => exact jsonDecodeWith_keeps _ _ hargs
  | jsonDecodeStrings => exact jsonDecodeWith_keeps _ _ hargs
  | decimalParse => exact decimalParse_keeps args
  | decimalFormat => exact decimalFormat_keeps args
  | decimalRescale => exact decimalRescale_keeps args

theorem luaConcat_short {a b r : LuaValue} (h : a.luaConcat b = .ok r) : Short R r := by
  unfold LuaValue.luaConcat at h
  cases ha : a.concatPart with
  | error e =>
    rw [ha] at h
    cases h
  | ok left =>
    cases hb : b.concatPart with
    | error e =>
      rw [ha, hb] at h
      cases h
    | ok right =>
      rw [ha, hb] at h
      dsimp only [bind, Except.bind] at h
      split_ifs at h with hlen
      cases h
      show (left ++ right).length ≤ 65536
      rw [List.length_append]
      omega

/-- The fold over the operands after the first. -/
theorem foldlM_luaConcat_short {acc r : LuaValue} (hacc : Short R acc)
    (h : vs.foldlM LuaValue.luaConcat acc = .ok r) : Short R r := by
  induction vs generalizing acc with
  | nil =>
    cases h
    exact hacc
  | cons v rest ih =>
    rw [List.foldlM_cons] at h
    cases hv : acc.luaConcat v with
    | error e =>
      rw [hv] at h
      cases h
    | ok next =>
      rw [hv] at h
      exact ih (luaConcat_short hv) h

/-- A string in the slot itself, or in the cell that it shares, is short. -/
def ShortSlot (h : Heap) : StackSlot → Prop
  | .value v => Short (fun _ => True) v
  | .shared cell => Short (fun _ => True) (h.cell cell)
  | .iterHandle _ => True

section Concat

variable {s s' : Machine} {n : Nat}

theorem popValue_short {v : LuaValue} (h : Engine.popValue.run s = (.ok v, s')) :
    ∃ top, s.stack.getLast? = some top ∧ s'.stack = s.stack.dropLast ∧
      s'.core.heap = s.core.heap ∧ (ShortSlot s.core.heap top.slot → Short (fun _ => True) v) := by
  unfold Engine.popValue at h
  rw [Exec.run_bind, Engine.run_popSlot] at h
  cases htop : s.stack.getLast? with
  | none =>
    rw [htop] at h
    cases h
  | some top =>
    rw [htop] at h
    refine ⟨top, rfl, ?_⟩
    dsimp only at h
    cases hslot : top.slot with
    | value w =>
      rw [hslot] at h
      cases h
      exact ⟨rfl, rfl, id⟩
    | shared cell =>
      rw [hslot] at h
      cases h
      exact ⟨rfl, rfl, id⟩
    | iterHandle handle =>
      rw [hslot] at h
      cases h

theorem popValues_short (hslots : ∀ entry ∈ s.stack.drop (s.stack.length - n),
      ShortSlot s.core.heap entry.slot) (h : (Engine.popValues n).run s = (.ok vs, s')) :
    AllShort (fun _ => True) vs ∧ s'.stack = s.stack.take (s.stack.length - n) := by
  induction n generalizing s vs with
  | zero =>
    cases h
    exact ⟨allShort_nil, by rw [Nat.sub_zero, List.take_length]⟩
  | succ n ih =>
    obtain ⟨v, s₁, hv, h⟩ := Exec.run_bind_eq_ok.mp h
    obtain ⟨rest, s₂, hrest, h⟩ := Exec.run_bind_eq_ok.mp h
    cases h
    obtain ⟨top, htop, hstack, hheap, hshort⟩ := popValue_short hv
    obtain ⟨below, hbelow⟩ : ∃ below, s.stack = below ++ [top] :=
      ⟨_, (List.dropLast_append_getLast? top htop).symm⟩
    rw [hbelow, List.length_append, List.length_singleton, Nat.add_sub_add_right] at hslots ⊢
    rw [hbelow, List.dropLast_concat] at hstack
    have hle : below.length - n ≤ below.length := Nat.sub_le _ _
    rw [List.drop_append_of_le_length hle] at hslots
    obtain ⟨hvalues, hcut⟩ := ih (s := s₁) (fun entry hentry => by
      rw [hstack] at hentry
      rw [hheap]
      exact hslots entry (List.mem_append_left _ hentry)) hrest
    refine ⟨fun x hx => ?_, ?_⟩
    · rcases List.mem_append.mp hx with hx | hx
      · exact hvalues x hx
      · rw [List.mem_singleton.mp hx]
        exact hshort (hslots top (by simp))
    · rw [hcut, hstack, List.take_append_of_le_length hle]

theorem run_lift_ok {α : Type} {m : Vm α} {a : α} (h : (Engine.lift m).run s = (.ok a, s')) :
    (m.run s.core).1 = .ok a ∧ s'.stack = s.stack := by
  rw [Engine.run_lift] at h
  obtain ⟨hresult, rfl⟩ := Prod.mk.inj h
  exact ⟨hresult, rfl⟩

theorem run_orPanic_ok {α : Type} {o : Option α} {a : α}
    (h : (Engine.orPanic o).run s = (.ok a, s')) : o = some a ∧ s'.stack = s.stack := by
  obtain ⟨hresult, hstack⟩ := run_lift_ok h
  cases o with
  | none => cases hresult
  | some b =>
    cases hresult
    exact ⟨rfl, hstack⟩

theorem run_liftLua_ok {α : Type} {r : Except LuaError α} {a : α}
    (h : (Engine.liftLua r).run s = (.ok a, s')) : r = .ok a ∧ s'.stack = s.stack := by
  obtain ⟨hresult, hstack⟩ := run_lift_ok h
  cases r with
  | error e => cases hresult
  | ok b =>
    cases hresult
    exact ⟨rfl, hstack⟩

/-- `Concat` leaves one value in the place of its operands. -/
theorem concat_short {count : UInt8} (hslots : ∀ entry ∈ s.stack.drop (s.stack.length - count.toNat),
      ShortSlot s.core.heap entry.slot) (h : (Engine.concat count).run s = (.ok (), s')) :
    ∃ owner v, s'.stack = s.stack.take (s.stack.length - count.toNat) ++ [⟨owner, .value v⟩] ∧
      Short (fun _ => True) v := by
  obtain ⟨parts, s₁, hparts, h⟩ := Exec.run_bind_eq_ok.mp h
  obtain ⟨hvalues, hstack⟩ := popValues_short hslots hparts
  obtain ⟨first, s₂, hfirst, h⟩ := Exec.run_bind_eq_ok.mp h
  obtain ⟨hfirst, hstack₂⟩ := run_orPanic_ok hfirst
  obtain ⟨acc, s₃, hacc, h⟩ := Exec.run_bind_eq_ok.mp h
  obtain ⟨hacc, hstack₃⟩ := run_liftLua_ok hacc
  obtain ⟨_, s₄, hcharge, h⟩ := Exec.run_bind_eq_ok.mp h
  obtain ⟨-, hstack₄⟩ := run_lift_ok hcharge
  obtain ⟨_, s₅, halloc, h⟩ := Exec.run_bind_eq_ok.mp h
  obtain ⟨-, hstack₅⟩ := run_lift_ok halloc
  rw [Engine.push, Engine.run_pushSlot] at h
  obtain ⟨-, rfl⟩ := Prod.mk.inj h
  refine ⟨s₅.ghost.nextOwner, acc, ?_, ?_⟩
  · rw [hstack₅, hstack₄, hstack₃, hstack₂, hstack]
  · exact foldlM_luaConcat_short (hvalues first (List.mem_of_head? hfirst)) hacc

end Concat

section Results

/-- No builtin and no `Concat` makes a string beyond the limit of strings within it. -/
theorem strings_capped :
    (∀ (c c' : Core) (id : BuiltinId) (args rets : List LuaValue), 32 ≤ c.target.wordBits →
      args.length ≤ 255 → (∀ v ∈ args, Capped c.heap v) →
      (callBuiltin id args).run c = (.ok rets, c') → ∀ v ∈ rets, Capped c'.heap v) ∧
    ∀ (s s' : Machine) (count : UInt8),
      (∀ entry ∈ s.stack.drop (s.stack.length - count.toNat),
        ShortSlot s.core.heap entry.slot) →
      (Engine.concat count).run s = (.ok (), s') →
      ∃ owner v, s'.stack = s.stack.take (s.stack.length - count.toNat) ++ [⟨owner, .value v⟩] ∧
        ∀ text, v = .string text → text.length ≤ maxStringLen := by
  constructor
  · intro c c' id args rets hbits hcount hargs hrun v hv
    have hshort : AllShort (fun r => Capped c.heap (.table r)) args :=
      fun v hv => Short.of_capped (hargs v hv)
    have hkeeps := callBuiltin_keeps id (hcount.trans (by decide)) hshort
    obtain ⟨hwithin, hrets⟩ := hkeeps.ok ⟨hbits, region_capped c.heap⟩ hrun
    exact hwithin.region.capped (hrets v hv)
  · intro s s' count hslots hrun
    obtain ⟨owner, v, hstack, hv⟩ := concat_short hslots hrun
    refine ⟨owner, v, hstack, ?_⟩
    rintro text rfl
    exact hv

def smallCore : Core := .fresh ⟨64, true, 2 ^ 59⟩ 100 100 .empty

/-- Two one-letter strings on the stack. -/
def letters : Machine where
  config := .default
  core := smallCore
  stack := [⟨0, .value (.string [97])⟩, ⟨1, .value (.string [98])⟩]
  frames := []
  globals := .new
  ghost := ⟨fun _ _ => false, 2⟩

theorem strings_capped_letters :
    Capped ((callBuiltin .stringUpper [.string [97]]).run smallCore).2.heap (.string [65]) ∧
      ∃ owner v, ((Engine.concat 2).run letters).2.stack =
          letters.stack.take (letters.stack.length - 2) ++ [⟨owner, .value v⟩] ∧
        ∀ text, v = .string text → text.length ≤ maxStringLen := by
  constructor
  · refine strings_capped.1 smallCore _ .stringUpper [.string [97]] [.string [65]] (by decide)
      (by decide) ?_ rfl _ List.mem_cons_self
    intro v hv s hs
    obtain rfl := List.mem_singleton.mp hv
    cases hs
    decide
  · refine strings_capped.2 letters _ 2 ?_ rfl
    intro entry hentry
    have hlong : ([97] : Bytes).length ≤ maxStringLen ∧ ([98] : Bytes).length ≤ maxStringLen := by
      decide
    rcases List.mem_pair.mp hentry with rfl | rfl
    · exact hlong.1
    · exact hlong.2

end Results

end Proveno.Vm
