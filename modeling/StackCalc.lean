import StackCalc.Highlighting
import StackCalc.Main
import StackCalc.Proofs.Activations
import StackCalc.Proofs.Arity
import StackCalc.Proofs.Batch
import StackCalc.Proofs.Concatenation
import StackCalc.Proofs.Conversation
import StackCalc.Proofs.Diagnostics
import StackCalc.Proofs.Extraction
import StackCalc.Proofs.FullOutput
import StackCalc.Proofs.History
import StackCalc.Proofs.InputLines
import StackCalc.Proofs.Library.Logic
import StackCalc.Proofs.Library.Order
import StackCalc.Proofs.Library.Range
import StackCalc.Proofs.Library.Statistics
import StackCalc.Proofs.Limit
import StackCalc.Proofs.Lines
import StackCalc.Proofs.Moments
import StackCalc.Proofs.Moments.Evaluation
import StackCalc.Proofs.Partners
import StackCalc.Proofs.Primitives
import StackCalc.Proofs.Rejection
import StackCalc.Proofs.Rendering
import StackCalc.Proofs.Residue
import StackCalc.Proofs.Rotation
import StackCalc.Proofs.Scope
import StackCalc.Proofs.Streams
import StackCalc.Proofs.Sum
import StackCalc.Proofs.Termination
import StackCalc.Proofs.Underflow
import StackCalc.Proofs.Watches
