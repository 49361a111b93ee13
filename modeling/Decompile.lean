import Decompile.Decimal.Layout
import Decompile.Proofs.Classes
import Decompile.Proofs.Descriptors
import Decompile.Proofs.DispatchRuns
import Decompile.Proofs.Filling
import Decompile.Proofs.Naming
import Decompile.Proofs.NegatedTests
import Decompile.Proofs.PathLiveness
import Decompile.Proofs.Protection
import Decompile.Proofs.Scoping
import Decompile.Proofs.Settling
import Decompile.Proofs.Shrinking
import Decompile.Proofs.SlotShuffles
import Decompile.Proofs.StackSoundness
import Decompile.Proofs.SwitchDispatch
import Decompile.Rendering.Outline
