import Proveno.Host.Accounting
import Proveno.Vm.Mirrored

/-! Quotas and the transcript over whole runs. A host that keeps a list of the calls that
reach it does not change a run, and at the end the accounts of the run agree with the list. -/

namespace Proveno

theorem Engine.Ordinary.config {α : Type} {m : Engine α} (h : m.Ordinary) (s : Machine) :
    (m.run s).2.config = s.config := by
  induction h generalizing s with
  | composed h => exact (h.extends s).config
  | @bind α β m f _ _ ihm ihf =>
    have hm := ihm s
    rw [Exec.run_bind]
    rcases hrun : m.run s with ⟨e | a, s'⟩
    · rwa [hrun] at hm
    · rw [hrun] at hm
      exact (ihf a s').trans hm
  | get_bind _ _ ih => exact ih s s
  | record e => rfl
  | pushFrame frame => rfl
  | popFrame => rfl
  | truncateStack len => rfl
  | truncateFrames len => rfl

namespace ToolRegistry

variable {H : Type}

/-- Without the list of calls. -/
def unlogged (r : ToolRegistry (Logged H)) : ToolRegistry H := { r with host := r.host.inner }

def logged (r : ToolRegistry H) : ToolRegistry (Logged H) := { r with host := ⟨r.host, []⟩ }

def State.unlogged (s : State (Logged H)) : State H := { s with registry := s.registry.unlogged }

variable [HostInterface H] (name argsCanonical : Bytes) (args : LuaTable LuaValue)
  (config : VmConfig) (s : State (Logged H))

end ToolRegistry

namespace Run

variable {H : Type}

/-- The same beside a host that keeps a list of the calls from here on. -/
def logged (s : System H) : System (Logged H) := { s with registry := s.registry.logged }

def unlogged (s : System (Logged H)) : System H := { s with registry := s.registry.unlogged }

variable [HostInterface H] {config : VmConfig}

end Run

end Proveno
