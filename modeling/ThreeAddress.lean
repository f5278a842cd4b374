import ThreeAddress.Main
import ThreeAddress.Proofs.Llvm.Simulation
import ThreeAddress.Proofs.Lowering.Redundancy
import ThreeAddress.Proofs.Lowering.ShortCircuit
import ThreeAddress.Proofs.Lowering.Streaming
import ThreeAddress.Proofs.Lowering.Warnings
import ThreeAddress.Proofs.Machine.Dependence
import ThreeAddress.Proofs.Options.Switches
import ThreeAddress.Proofs.Parser.CaseValues
import ThreeAddress.Proofs.Parser.Ending
import ThreeAddress.Proofs.Parser.Outline
import ThreeAddress.Proofs.Parser.Places
import ThreeAddress.Proofs.Qbe.Identifiers
import ThreeAddress.Proofs.Qbe.Simulation
import ThreeAddress.Proofs.Suite.Schedule
import ThreeAddress.Proofs.Text.Wrapping
import ThreeAddress.Proofs.Typing.Independence
import ThreeAddress.Proofs.Parser.Completion
