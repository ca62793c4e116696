import Mathlib.Tactic.Basic

/-! Computations on a state that may stop with a value or with an exception,
and keep the state they reached in both cases. -/

/-- Why a computation has no value: an error of its own, a panic, or too little fuel. -/
inductive Failure (E : Type)
  | raised (e : E)
  | panicked
  | outOfFuel
  deriving DecidableEq

structure Exec (ε S α : Type) where
  run : S → Except ε α × S

namespace Exec

variable {ε S T α β : Type}

instance : Monad (Exec ε S) where
  pure a := ⟨fun s => (.ok a, s)⟩
  bind m f := ⟨fun s =>
    match m.run s with
    | (.ok a, s') => (f a).run s'
    | (.error e, s') => (.error e, s')⟩

def throw (e : ε) : Exec ε S α := ⟨fun s => (.error e, s)⟩

def get : Exec ε S S := ⟨fun s => (.ok s, s)⟩

def modify (f : S → S) : Exec ε S Unit := ⟨fun s => (.ok (), f s)⟩

/-- The outcome as a value, so that the caller goes on in either case. -/
def attempt (m : Exec ε S α) : Exec ε S (Except ε α) := ⟨fun s =>
  (.ok (m.run s).1, (m.run s).2)⟩

/-- A computation on a part of the state. -/
def zoom (read : S → T) (write : S → T → S) (m : Exec ε T α) : Exec ε S α := ⟨fun s =>
  ((m.run (read s)).1, write s (m.run (read s)).2)⟩

/-- Some run of the computation ends with this value. -/
def Yields (m : Exec ε S α) (a : α) : Prop := ∃ s, (m.run s).1 = .ok a

@[simp] theorem run_pure (a : α) (s : S) : (pure a : Exec ε S α).run s = (.ok a, s) := rfl

@[simp] theorem run_throw (e : ε) (s : S) : (throw e : Exec ε S α).run s = (.error e, s) := rfl

@[simp] theorem run_get (s : S) : (get : Exec ε S S).run s = (.ok s, s) := rfl

@[simp] theorem run_modify (f : S → S) (s : S) :
    (modify f : Exec ε S Unit).run s = (.ok (), f s) := rfl

theorem run_bind (m : Exec ε S α) (f : α → Exec ε S β) (s : S) :
    (m >>= f).run s = match m.run s with
      | (.ok a, s') => (f a).run s'
      | (.error e, s') => (.error e, s') := rfl

theorem bind_assoc {γ : Type} (m : Exec ε S α) (f : α → Exec ε S β) (g : β → Exec ε S γ) :
    m >>= f >>= g = m >>= fun a => f a >>= g := by
  refine congrArg Exec.mk (funext fun s => ?_)
  change (match (m >>= f).run s with
    | (.ok b, s') => (g b).run s'
    | (.error e, s') => (.error e, s')) = _
  rw [run_bind]
  rcases m.run s with ⟨e | a, s'⟩ <;> rfl

theorem bind_pure (m : Exec ε S α) : m >>= pure = m := by
  refine congrArg Exec.mk (funext fun s => ?_)
  rcases hrun : m.run s with ⟨e | a, s'⟩ <;> rfl

theorem run_bind_ok {m : Exec ε S α} {f : α → Exec ε S β} {s s' : S} {a : α}
    (h : m.run s = (.ok a, s')) : (m >>= f).run s = (f a).run s' := by
  rw [run_bind, h]

theorem run_bind_error {m : Exec ε S α} {f : α → Exec ε S β} {s s' : S} {e : ε}
    (h : m.run s = (.error e, s')) : (m >>= f).run s = (.error e, s') := by
  rw [run_bind, h]

theorem run_bind_eq_ok {m : Exec ε S α} {f : α → Exec ε S β} {s s' : S} {b : β} :
    (m >>= f).run s = (.ok b, s') ↔
      ∃ a mid, m.run s = (.ok a, mid) ∧ (f a).run mid = (.ok b, s') := by
  rw [run_bind]
  rcases m.run s with ⟨e | a, mid⟩
  · exact ⟨nofun, fun ⟨_, _, h, _⟩ => by cases h⟩
  · exact ⟨fun h => ⟨a, mid, rfl, h⟩, fun ⟨_, _, h, h'⟩ => by cases h; exact h'⟩

@[simp] theorem pure_bind (a : α) (f : α → Exec ε S β) : pure a >>= f = f a := rfl

@[simp] theorem throw_bind (e : ε) (f : α → Exec ε S β) : throw e >>= f = throw e := rfl

theorem Yields.of_bind {m : Exec ε S α} {f : α → Exec ε S β} {b : β} (h : (m >>= f).Yields b) :
    ∃ a, m.Yields a ∧ (f a).Yields b := by
  obtain ⟨s, hs⟩ := h
  rw [run_bind] at hs
  rcases hm : m.run s with ⟨a | a, s'⟩
  · rw [hm] at hs
    cases hs
  · rw [hm] at hs
    exact ⟨a, ⟨s, by rw [hm]⟩, s', hs⟩

theorem Yields.of_pure {a b : α} (h : (pure a : Exec ε S α).Yields b) : a = b := by
  obtain ⟨s, hs⟩ := h
  exact Except.ok.inj hs

theorem not_yields_throw {e : ε} {b : α} : ¬(throw e : Exec ε S α).Yields b :=
  fun ⟨_, h⟩ => by cases h

@[simp] theorem run_attempt (m : Exec ε S α) (s : S) :
    (attempt m).run s = (.ok (m.run s).1, (m.run s).2) := rfl

@[simp] theorem run_zoom (read : S → T) (write : S → T → S) (m : Exec ε T α) (s : S) :
    (zoom read write m).run s = ((m.run (read s)).1, write s (m.run (read s)).2) := rfl

end Exec
