import Codesmith.BitSet.Anchored
import Codesmith.Main
import Codesmith.Proofs.Ssa.Reverify
import Codesmith.Proofs.Ssa.Transparent
import Codesmith.Proofs.Flow.Postorder
import Codesmith.Proofs.Ssa.Fixpoint
import Codesmith.Proofs.Script.Liveness
import Codesmith.Proofs.Script.Iteration
import Codesmith.Proofs.Script.Recall
import Codesmith.Proofs.Gen.Simultaneous
import Codesmith.Proofs.Gen.Symbols
import Codesmith.Proofs.Host.Crossing
import Codesmith.Proofs.Ty.HostLayout
import Codesmith.Proofs.Ty.Identity
import Codesmith.Proofs.Memory
