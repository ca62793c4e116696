import Mathlib.Tactic

/-! Commitments to a list in two levels: a hash over the hashes of the items. What
equal commitments say rests on the hash not colliding on what it is given here. -/

variable {α β γ ρ ι Input Leaf : Type}

/-- No two of these inputs have the same hash. -/
def CollisionFree (hash : α → β) (inputs : List α) : Prop :=
  ∀ x ∈ inputs, ∀ y ∈ inputs, hash x = hash y → x = y

instance [DecidableEq α] [DecidableEq β] (hash : α → β) (inputs : List α) :
    Decidable (CollisionFree hash inputs) :=
  inferInstanceAs (Decidable (∀ x ∈ inputs, ∀ y ∈ inputs, hash x = hash y → x = y))

theorem map_eq_of_map_eq {f : α → β} {g : α → γ} {xs ys : List α}
    (h : ∀ x ∈ xs, ∀ y ∈ ys, f x = f y → g x = g y) (heq : xs.map f = ys.map f) :
    xs.map g = ys.map g := by
  induction xs generalizing ys with
  | nil =>
    obtain rfl := List.map_eq_nil_iff.mp heq.symm
    rfl
  | cons x xs ih =>
    cases ys with
    | nil => cases heq
    | cons y ys =>
      obtain ⟨hhead, htail⟩ := List.cons.inj heq
      have hfirst := h x (by simp) y (by simp) hhead
      have hrest := ih (fun x hx y hy => h x (List.mem_cons_of_mem _ hx) y
        (List.mem_cons_of_mem _ hy)) htail
      rw [List.map_cons, List.map_cons, hfirst, hrest]

/-- How the items of a list, and what is attached to each, are hashed. -/
structure TwoLevel (ρ ι Input Leaf : Type) where
  hash : Input → Leaf
  item : ρ → Input
  attachment : ι → Input
  pair : Leaf → Leaf → Input
  outer : List Leaf → Input

namespace TwoLevel

variable (s : TwoLevel ρ ι Input Leaf)

def itemLeaf (x : ρ) : Leaf := s.hash (s.item x)

def attachmentLeaf (a : ι) : Leaf := s.hash (s.attachment a)

def boundLeaf (x : ρ × ι) : Leaf := s.hash (s.pair (s.itemLeaf x.1) (s.attachmentLeaf x.2))

def commit (xs : List (ρ × ι)) : Leaf := s.hash (s.outer (xs.map fun x => s.itemLeaf x.1))

/-- The commitment to the items together with their attachments. -/
def bind (xs : List (ρ × ι)) : Leaf := s.hash (s.outer (xs.map s.boundLeaf))

/-- All that is hashed for the two commitments. -/
def inputs (xs : List (ρ × ι)) : List Input :=
  xs.map (fun x => s.item x.1) ++ xs.map (fun x => s.attachment x.2) ++
    xs.map (fun x => s.pair (s.itemLeaf x.1) (s.attachmentLeaf x.2)) ++
    [s.outer (xs.map fun x => s.itemLeaf x.1), s.outer (xs.map s.boundLeaf)]

/-- What is hashed at one level tells its parts apart. -/
structure Separates (fitsItem : ρ → Prop) (fitsAttachment : ι → Prop) (fitsLength : Nat → Prop) :
    Prop where
  item_inj : ∀ x y, fitsItem x → fitsItem y → s.item x = s.item y → x = y
  attachment_inj : ∀ a b, fitsAttachment a → fitsAttachment b →
    s.attachment a = s.attachment b → a = b
  pair_inj : ∀ a b a' b', s.pair a b = s.pair a' b' → a = a' ∧ b = b'
  outer_inj : ∀ as bs, fitsLength as.length → fitsLength bs.length →
    s.outer as = s.outer bs → as = bs

/-- The list and what is in it are within the bounds. -/
structure Fits (fitsItem : ρ → Prop) (fitsAttachment : ι → Prop) (fitsLength : Nat → Prop)
    (xs : List (ρ × ι)) : Prop where
  length : fitsLength xs.length
  item : ∀ x ∈ xs, fitsItem x.1
  attachment : ∀ x ∈ xs, fitsAttachment x.2

variable {s} {fitsItem : ρ → Prop} {fitsAttachment : ι → Prop} {fitsLength : Nat → Prop}
  {xs ys : List (ρ × ι)}

theorem item_mem {x : ρ × ι} (hx : x ∈ xs) : s.item x.1 ∈ s.inputs xs := by
  simp only [inputs, List.append_assoc]
  exact List.mem_append_left _ (List.mem_map_of_mem (f := fun x => s.item x.1) hx)

theorem attachment_mem {x : ρ × ι} (hx : x ∈ xs) : s.attachment x.2 ∈ s.inputs xs := by
  simp only [inputs, List.append_assoc]
  exact List.mem_append_right _ (List.mem_append_left _
    (List.mem_map_of_mem (f := fun x => s.attachment x.2) hx))

theorem pair_mem {x : ρ × ι} (hx : x ∈ xs) :
    s.pair (s.itemLeaf x.1) (s.attachmentLeaf x.2) ∈ s.inputs xs := by
  simp only [inputs, List.append_assoc]
  exact List.mem_append_right _ (List.mem_append_right _ (List.mem_append_left _
    (List.mem_map_of_mem (f := fun x => s.pair (s.itemLeaf x.1) (s.attachmentLeaf x.2)) hx)))

/-- Inputs of one list against those of another. -/
theorem inputs_inj (hfree : CollisionFree s.hash (s.inputs xs ++ s.inputs ys)) {a b : Input}
    (ha : a ∈ s.inputs xs) (hb : b ∈ s.inputs ys) (heq : s.hash a = s.hash b) : a = b :=
  hfree a (List.mem_append_left _ ha) b (List.mem_append_right _ hb) heq

theorem commit_binds (hs : s.Separates fitsItem fitsAttachment fitsLength)
    (hxs : Fits fitsItem fitsAttachment fitsLength xs)
    (hys : Fits fitsItem fitsAttachment fitsLength ys)
    (hfree : CollisionFree s.hash (s.inputs xs ++ s.inputs ys))
    (heq : s.commit xs = s.commit ys) : xs.map Prod.fst = ys.map Prod.fst := by
  have houter := inputs_inj hfree (by simp [inputs]) (by simp [inputs]) heq
  have hleaves := hs.outer_inj _ _ (by simpa using hxs.length) (by simpa using hys.length) houter
  refine map_eq_of_map_eq (fun x hx y hy hleaf => ?_) hleaves
  have hitem := inputs_inj hfree (item_mem hx) (item_mem hy) hleaf
  exact hs.item_inj _ _ (hxs.item x hx) (hys.item y hy) hitem

theorem bind_binds (hs : s.Separates fitsItem fitsAttachment fitsLength)
    (hxs : Fits fitsItem fitsAttachment fitsLength xs)
    (hys : Fits fitsItem fitsAttachment fitsLength ys)
    (hfree : CollisionFree s.hash (s.inputs xs ++ s.inputs ys))
    (heq : s.bind xs = s.bind ys) : xs = ys := by
  have houter := inputs_inj hfree (by simp [inputs]) (by simp [inputs]) heq
  have hleaves := hs.outer_inj _ _ (by simpa using hxs.length) (by simpa using hys.length) houter
  have hid : xs.map id = ys.map id := by
    refine map_eq_of_map_eq (fun x hx y hy hleaf => ?_) hleaves
    have hpair := inputs_inj hfree (pair_mem hx) (pair_mem hy) hleaf
    obtain ⟨hitem, hattachment⟩ := hs.pair_inj _ _ _ _ hpair
    have hitem := inputs_inj hfree (item_mem hx) (item_mem hy) hitem
    have hattachment := inputs_inj hfree (attachment_mem hx) (attachment_mem hy) hattachment
    exact Prod.ext (hs.item_inj _ _ (hxs.item x hx) (hys.item y hy) hitem)
      (hs.attachment_inj _ _ (hxs.attachment x hx) (hys.attachment y hy) hattachment)
  simpa using hid

end TwoLevel
