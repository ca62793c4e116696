import Proveno.Bytecode.DepthSpec
import Proveno.Bytecode.References
import Proveno.Bytecode.Totality
import Proveno.Compiler.Exactness
import Proveno.Compiler.MemberFunctions
import Proveno.Compiler.OperandsInRange
import Proveno.Compiler.ProgramHash
import Proveno.Host.Accounting
import Proveno.Host.Attestation
import Proveno.Host.Recording
import Proveno.Host.Stability
import Proveno.Host.TapeCommitment
import Proveno.Parser.ParserRuns
import Proveno.Semantics.Chaining
import Proveno.Types.Division
import Proveno.Types.TableRepresentation
import Proveno.Vm.DecimalRoundTrip
import Proveno.Vm.JsonLiteral
import Proveno.Vm.JsonModes
import Proveno.Vm.JsonRoundTrip
import Proveno.Vm.KeyOrder
import Proveno.Vm.LoopCharges
import Proveno.Vm.Printf
import Proveno.Vm.Replay
import Proveno.Vm.ToolRuns
import Proveno.Vm.Reuse
import Proveno.Vm.RunTrace
import Proveno.Vm.Slicing
import Proveno.Vm.StringCap
import Proveno.Vm.StringMethods
import Proveno.Vm.SortExactness
import Proveno.Vm.TableStorage
import Proveno.Vm.VerifiedRuns
import Proveno.Vm.WordSize
