import Proveno.Vm.JsonText

/-! What the parser of `json.decode` does on encoded bytes. A specification says what a
successful run leaves behind and that, where the value fits the tables, only memory
can run out. -/

namespace Proveno.Vm.Json

open Canonicalize LuaTable

/-- Within `need` more bytes of memory, and with the first `keep` tables as they were. -/
structure Kept (need keep : Nat) (c c' : Core) : Prop where
  limit : c'.mem.limit = c.mem.limit
  allocated : c'.mem.allocated ≤ c.mem.allocated + need
  grows : c.heap.tables.length ≤ c'.heap.tables.length
  frame : ∀ r < keep, c'.heap.table r = c.heap.table r

namespace Kept

variable {need need' keep keep' : Nat} {c c' c'' : Core}

theorem refl (need keep : Nat) (c : Core) : Kept need keep c c :=
  ⟨rfl, Nat.le_add_right _ _, le_rfl, fun _ _ => rfl⟩

theorem trans (h : Kept need keep c c') (h' : Kept need' keep' c' c'') (hkeep : keep ≤ keep') :
    Kept (need + need') keep c c'' where
  limit := h'.limit.trans h.limit
  allocated := by
    have hfirst := h.allocated
    have hsecond := h'.allocated
    omega
  grows := h.grows.trans h'.grows
  frame r hr := (h'.frame r (hr.trans_le hkeep)).trans (h.frame r hr)

theorem mono (h : Kept need keep c c') (hneed : need ≤ need') (hkeep : keep' ≤ keep) :
    Kept need' keep' c c' :=
  ⟨h.limit, h.allocated.trans (Nat.add_le_add_left hneed _), h.grows,
    fun r hr => h.frame r (hr.trans_le hkeep)⟩

end Kept

/-- A run that succeeds shows that the value fits; one that fails, although the value
fits, did not have the memory it needs. -/
def Meets {α : Type} (fits : Prop) (need keep : Nat) (c : Core) (m : Vm α)
    (post : α → Core → Prop) : Prop :=
  match m.run c with
  | (.ok a, c') => fits ∧ Kept need keep c c' ∧ post a c'
  | (.error _, _) => fits → c.mem.limit < c.mem.allocated + need

namespace Meets

variable {α β : Type} {fits fits' : Prop} {need need' keep keep' : Nat} {c : Core} {m : Vm α}
  {f : α → Vm β} {mid post' : α → Core → Prop} {post : β → Core → Prop}

theorem of_ok {a : α} {c' : Core} (hrun : m.run c = (.ok a, c')) (hfits : fits)
    (hkept : Kept need keep c c') (hpost : post' a c') : Meets fits need keep c m post' := by
  rw [Meets, hrun]
  exact ⟨hfits, hkept, hpost⟩

theorem of_error {e : Stop} {c' : Core} (hrun : m.run c = (.error e, c'))
    (h : fits → c.mem.limit < c.mem.allocated + need) : Meets fits need keep c m post' := by
  rw [Meets, hrun]
  exact h

theorem pure {a : α} (hfits : fits) (hpost : post' a c) :
    Meets fits need keep c (Pure.pure a) post' :=
  .of_ok rfl hfits (.refl need keep c) hpost

theorem bind (hm : Meets fits need keep c m mid) (hkeep : keep ≤ keep')
    (hf : ∀ a c', Kept need keep c c' → mid a c' → Meets fits' need' keep' c' (f a) post) :
    Meets (fits ∧ fits') (need + need') keep c (m >>= f) post := by
  unfold Meets at hm ⊢
  rw [Exec.run_bind]
  rcases hrun : m.run c with ⟨r, c'⟩
  rw [hrun] at hm
  cases r with
  | error e => exact fun h => (hm h.1).trans_le (by omega)
  | ok a =>
    obtain ⟨hfits, hkept, hmid⟩ := hm
    have hnext := hf a c' hkept hmid
    unfold Meets at hnext
    simp only
    rcases hrun' : (f a).run c' with ⟨r', c''⟩
    rw [hrun'] at hnext
    cases r' with
    | error e =>
      intro h
      have hlt := hnext h.2
      have hlimit := hkept.limit
      have halloc := hkept.allocated
      omega
    | ok b =>
      obtain ⟨hfits', hkept', hpost⟩ := hnext
      exact ⟨⟨hfits, hfits'⟩, hkept.trans hkept' hkeep, hpost⟩

/-- The rest of the work needs no memory and cannot fail. -/
theorem finish (hm : Meets fits need keep c m mid)
    (hf : ∀ a c', Kept need keep c c' → mid a c' → Meets True 0 keep c' (f a) post) :
    Meets fits need keep c (m >>= f) post := by
  have hall := hm.bind le_rfl hf
  rwa [and_true, Nat.add_zero] at hall

/-- The first part of the work fits in any case. -/
theorem after (hm : Meets True need keep c m mid) (hkeep : keep ≤ keep')
    (hf : ∀ a c', Kept need keep c c' → mid a c' → Meets fits need' keep' c' (f a) post) :
    Meets fits (need + need') keep c (m >>= f) post := by
  have hall := hm.bind hkeep hf
  rwa [true_and] at hall

theorem mono (h : Meets fits need keep c m mid) (hfits : fits ↔ fits') (hneed : need ≤ need')
    (hkeep : keep' ≤ keep) (hpost : ∀ a c', Kept need keep c c' → mid a c' → post' a c') :
    Meets fits' need' keep' c m post' := by
  unfold Meets at h ⊢
  rcases hrun : m.run c with ⟨r, c'⟩
  rw [hrun] at h
  cases r with
  | error e => exact fun hf => (h (hfits.mpr hf)).trans_le (Nat.add_le_add_left hneed _)
  | ok a =>
    obtain ⟨hf, hkept, hmid⟩ := h
    exact ⟨hfits.mp hf, hkept.mono hneed hkeep, hpost a c' hkept hmid⟩

theorem after_run {a : α} (hrun : m.run c = (.ok a, c)) (hf : Meets fits need keep c (f a) post) :
    Meets fits need keep c (m >>= f) post := by
  unfold Meets at hf ⊢
  rwa [Exec.run_bind_ok hrun]

end Meets

section Steps

theorem trackAlloc_meets (n keep : Nat) (c : Core) :
    Meets True n keep c (trackAlloc n) fun _ c' => c'.heap = c.heap := by
  have hrun := run_trackAlloc (c := c) n
  dsimp only at hrun
  split_ifs at hrun with hover
  · refine .of_error hrun fun _ => ?_
    omega
  · refine .of_ok hrun trivial ⟨rfl, ?_, le_rfl, fun _ _ => rfl⟩ rfl
    dsimp only
    omega

theorem newTable_meets (c : Core) :
    Meets True AllocSize.tableBase c.heap.tables.length c newTable fun t c' =>
      t = c.heap.tables.length ∧ c'.heap.tables = c.heap.tables ++ [LuaTable.new] := by
  have halloc : (allocTable LuaTable.new).run c = (.ok c.heap.tables.length,
      { c with heap := { c.heap with tables := c.heap.tables ++ [LuaTable.new] } }) := rfl
  have hkept : Kept 0 c.heap.tables.length c
      { c with heap := { c.heap with tables := c.heap.tables ++ [LuaTable.new] } } := by
    refine ⟨rfl, le_rfl, by simp, fun r hr => ?_⟩
    simp [Heap.table, List.getD_eq_getElem?_getD, List.getElem?_append_left hr]
  have hnew : Meets True 0 c.heap.tables.length c (allocTable LuaTable.new) fun t c' =>
      t = c.heap.tables.length ∧ c'.heap.tables = c.heap.tables ++ [LuaTable.new] :=
    .of_ok halloc trivial hkept ⟨rfl, rfl⟩
  rw [← Nat.zero_add AllocSize.tableBase]
  refine hnew.after le_rfl fun t c' _ ht => ?_
  refine (trackAlloc_meets _ _ c').finish fun _ c'' _ hheap => .pure trivial ?_
  rwa [hheap]

/-- An encoded string read back, at the cost of its memory. -/
theorem parseString_meets (total : Nat) (text rest : Bytes) (keep : Nat) (c : Core) :
    Meets True (AllocSize.string (utf8Text text).length) keep c
      (parseString total (serializeString text ++ rest)) fun r c' =>
        r = (utf8Text text, rest) ∧ c'.heap = c.heap := by
  have hbody := stringBody_flatMap [] text rest
  have hexpect : (expect total 34 (serializeString text ++ rest)).run c =
      (.ok (text.flatMap escapeByte ++ 34 :: rest), c) := by
    simp [expect, serializeString]
  have hlift : (liftError (stringBody [] (text.flatMap escapeByte ++ 34 :: rest))).run c =
      (.ok (utf8Text text, rest), c) := by
    rw [hbody]
    rfl
  refine .after_run hexpect (.after_run hlift ?_)
  exact (trackAlloc_meets _ keep c).finish fun _ _ _ hheap => .pure trivial ⟨rfl, hheap⟩

end Steps

/-- What may stand after a value. -/
def Closing (rest : Bytes) : Prop := ∀ b ∈ rest.head?, b = 44 ∨ b = 93 ∨ b = 125

theorem Closing.not_digit {rest : Bytes} (h : Closing rest) : ∀ b ∈ rest.head?, isDigit b = false := by
  intro b hb
  rcases h b hb with rfl | rfl | rfl <;> decide

theorem splitSign_intText (n : Int64) (rest : Bytes) :
    splitSign (intText n ++ rest) =
      (if n.toInt < 0 then [45] else [], decimal n.toInt.natAbs ++ rest) := by
  unfold intText splitSign
  split_ifs with hneg hsign hsign
  · rfl
  · simp at hsign
  · obtain ⟨b, s, hb⟩ := List.exists_cons_of_ne_nil (decimal_ne_nil n.toInt.natAbs)
    have hdigit := decimal_digits n.toInt.natAbs b (by simp [hb])
    rw [hb] at hsign
    obtain rfl : b = 45 := by simpa using hsign
    exact absurd hdigit (by decide)
  · rfl

theorem parseNumber_intText (n : Int64) {rest : Bytes} (hrest : Closing rest) :
    parseNumber .integer (intText n ++ rest) = pure (.integer n, rest) := by
  have hdigits := decimal_digits n.toInt.natAbs
  have hstop : rest.takeWhile isDigit = [] ∧ rest.dropWhile isDigit = rest := by
    cases rest with
    | nil => simp
    | cons b rest => simp [hrest.not_digit b (by simp)]
  have hnone : ¬(rest.head? = some 46 ∨ rest.head? = some 101 ∨ rest.head? = some 69) := by
    rintro (h | h | h) <;> rcases hrest _ h with h | h | h <;> revert h <;> decide
  have htext : (if n.toInt < 0 then [45] else []) ++ decimal n.toInt.natAbs = intText n := by
    unfold intText
    split_ifs <;> rfl
  simp only [parseNumber, parseNumberAsInteger, splitSign_intText,
    List.takeWhile_append_of_pos hdigits, List.dropWhile_append_of_pos hdigits, hstop.1, hstop.2,
    List.append_nil, if_neg hnone, htext, parseI64_intText]

end Proveno.Vm.Json
