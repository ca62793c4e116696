import Mathlib.Tactic

/-! Encoders whose output is told apart from whatever follows it, and how they are
put together. Equality of the encoded values is up to a view of them. -/

variable {α β γ δ σ : Type}

/-- On `dom`, the encoding of a value determines `view` of it and where it ends. -/
def Delimited (dom : α → Prop) (view : α → γ) (enc : α → List σ) : Prop :=
  ∀ ⦃a b : α⦄ ⦃r s : List σ⦄, dom a → dom b → enc a ++ r = enc b ++ s → view a = view b ∧ r = s

/-- The last `width` bytes of a number, the most significant first. -/
def bigEndian : (width : Nat) → Nat → List UInt8
  | 0, _ => []
  | width + 1, n => bigEndian width (n / 256) ++ [UInt8.ofNat n]

namespace Delimited

variable {dom dom' : α → Prop} {view : α → γ} {view' : α → δ} {enc enc' : α → List σ}

theorem eq_view (h : Delimited dom view enc) {a b : α} (ha : dom a) (hb : dom b)
    (heq : enc a = enc b) : view a = view b := by
  have happend : enc a ++ [] = enc b ++ [] := by rw [heq]
  exact (h ha hb happend).1

theorem mono (h : Delimited dom view enc) (hdom : ∀ a, dom' a → dom a) :
    Delimited dom' view enc :=
  fun _ _ _ _ ha hb heq => h (hdom _ ha) (hdom _ hb) heq

theorem coarsen (h : Delimited dom view enc) (hview : ∀ a b, view a = view b → view' a = view' b) :
    Delimited dom view' enc := by
  intro a b r s ha hb heq
  obtain ⟨hv, hr⟩ := h ha hb heq
  exact ⟨hview a b hv, hr⟩

theorem comap (dom : α → Prop) {domB : β → Prop} {viewB : β → γ} {encB : β → List σ}
    (h : Delimited domB viewB encB) (f : α → β) (hdom : ∀ a, dom a → domB (f a)) :
    Delimited dom (fun a => viewB (f a)) (fun a => encB (f a)) :=
  fun _ _ _ _ ha hb heq => h (hdom _ ha) (hdom _ hb) heq

theorem of_width (width : Nat) (hwidth : ∀ a, dom a → (enc a).length = width)
    (hview : ∀ a b, dom a → dom b → enc a = enc b → view a = view b) :
    Delimited dom view enc := by
  intro a b r s ha hb heq
  obtain ⟨henc, hr⟩ := List.append_inj heq ((hwidth a ha).trans (hwidth b hb).symm)
  exact ⟨hview a b ha hb henc, hr⟩

/-- The shape of the second part may depend on what the first part determines. -/
theorem append_of (h : Delimited dom view enc)
    (h' : ∀ ⦃a b : α⦄ ⦃r s : List σ⦄, dom a → dom b → view a = view b →
      enc' a ++ r = enc' b ++ s → view' a = view' b ∧ r = s) :
    Delimited dom (fun a => (view a, view' a)) (fun a => enc a ++ enc' a) := by
  intro a b r s ha hb heq
  simp only [List.append_assoc] at heq
  obtain ⟨hv, htail⟩ := h ha hb heq
  obtain ⟨hv', hr⟩ := h' ha hb hv htail
  exact ⟨by simp only [hv, hv'], hr⟩

theorem append (h : Delimited dom view enc) (h' : Delimited dom view' enc') :
    Delimited dom (fun a => (view a, view' a)) (fun a => enc a ++ enc' a) :=
  h.append_of fun _ _ _ _ ha hb _ heq => h' ha hb heq

/-- Lists of one length. -/
theorem flatMap_of_length (h : Delimited dom view enc) :
    ∀ ⦃xs ys : List α⦄ ⦃r s : List σ⦄, (∀ x ∈ xs, dom x) → (∀ y ∈ ys, dom y) →
      xs.length = ys.length → xs.flatMap enc ++ r = ys.flatMap enc ++ s →
      xs.map view = ys.map view ∧ r = s := by
  intro xs
  induction xs with
  | nil =>
    intro ys r s _ _ hlen heq
    obtain rfl := List.length_eq_zero_iff.mp hlen.symm
    exact ⟨rfl, heq⟩
  | cons x xs ih =>
    intro ys r s hxs hys hlen heq
    cases ys with
    | nil => simp at hlen
    | cons y ys =>
      simp only [List.flatMap_cons, List.append_assoc] at heq
      obtain ⟨hview, htail⟩ := h (hxs x (by simp)) (hys y (by simp)) heq
      obtain ⟨hviews, hr⟩ := ih (fun x hx => hxs x (List.mem_cons_of_mem _ hx))
        (fun y hy => hys y (List.mem_cons_of_mem _ hy)) (by simpa using hlen) htail
      exact ⟨by rw [List.map_cons, List.map_cons, hview, hviews], hr⟩

/-- A list behind its length. -/
theorem counted {fits : Nat → Prop} {count : Nat → List σ} (hcount : Delimited fits id count)
    (h : Delimited dom view enc) :
    Delimited (fun xs : List α => fits xs.length ∧ ∀ x ∈ xs, dom x) (List.map view)
      (fun xs => count xs.length ++ xs.flatMap enc) := by
  intro xs ys r s hxs hys heq
  simp only [List.append_assoc] at heq
  obtain ⟨hlen, htail⟩ := hcount hxs.1 hys.1 heq
  exact h.flatMap_of_length hxs.2 hys.2 hlen htail

end Delimited

theorem bigEndian_length (width n : Nat) : (bigEndian width n).length = width := by
  induction width generalizing n with
  | zero => rfl
  | succ width ih => rw [bigEndian, List.length_append, ih, List.length_singleton]

theorem bigEndian_inj {width m n : Nat} (hm : m < 256 ^ width) (hn : n < 256 ^ width)
    (h : bigEndian width m = bigEndian width n) : m = n := by
  induction width generalizing m n with
  | zero => omega
  | succ width ih =>
    rw [pow_succ] at hm hn
    obtain ⟨hhigh, hlow⟩ := List.append_inj h (by rw [bigEndian_length, bigEndian_length])
    have hdiv := ih (m := m / 256) (n := n / 256) (by omega) (by omega) hhigh
    have hmod : m % 256 = n % 256 := by
      have hbyte := congrArg UInt8.toNat (List.singleton_inj.mp hlow)
      simpa using hbyte
    omega

theorem bigEndian_delimited (width : Nat) :
    Delimited (fun n => n < 256 ^ width) id (bigEndian width) :=
  .of_width width (fun n _ => bigEndian_length width n) fun _ _ hm hn h => bigEndian_inj hm hn h
