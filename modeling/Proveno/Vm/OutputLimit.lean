import Proveno.Vm.RunBounds

/-! The limit on output is read by no instruction, so that a run keeps to it only where no
message is logged past it. -/

namespace Proveno

end Proveno
