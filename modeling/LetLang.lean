import LetLang.Main
import LetLang.Proofs.Typing.Checked
import LetLang.Proofs.Lowering.Layout
import LetLang.Proofs.Arena.Tree
import LetLang.Proofs.Lowering.Hanging
import LetLang.Proofs.Lowering.Domain
import LetLang.Proofs.Lowering.ReadBack
import LetLang.Proofs.Grammar.Printer
import LetLang.Proofs.Grammar.RoundTrip
import LetLang.Proofs.Arena.Reachable
import LetLang.Proofs.Grammar.Joining
import LetLang.Proofs.Lowering.Consistent
import LetLang.Proofs.Command
import LetLang.Proofs.Arena.History
import LetLang.Proofs.Lowering.Terminating
import LetLang.Proofs.Lowering.Erasure
import LetLang.Proofs.Lowering.Reordering
import LetLang.Proofs.Typing.Synthesis
import LetLang.Proofs.Lowering.Unlifted
import LetLang.Proofs.Lowering.Calls
import LetLang.Proofs.Drawing.ReadBack
import LetLang.Proofs.Arena.Walk
import LetLang.Proofs.Typing.Overlay
import LetLang.Proofs.Lowering.Locality
import LetLang.Proofs.Arena.Identity
import LetLang.Proofs.Grammar.Leaves
import LetLang.Proofs.Grammar.Progress
import LetLang.Proofs.Analysis.EnclosingScopes
import LetLang.Proofs.Analysis.LiveTree
import LetLang.Proofs.Digraph.Allocation
import LetLang.Proofs.Analysis.LiveTypes
import LetLang.Proofs.Token.Spacing
import LetLang.Proofs.Evaluation.Inspect
import LetLang.Proofs.Typing.Mismatch
