import Proveno.Vm.RunBounds

/-! The memory meter counts what tables grow by, over every instruction of a run, where
nothing is stored past it that makes a table grow. -/

namespace Proveno

end Proveno
