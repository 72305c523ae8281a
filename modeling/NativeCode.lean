import NativeCode.Main
import NativeCode.Proofs.Compile.Classes
import NativeCode.Proofs.Compile.Constants
import NativeCode.Proofs.Compile.Presentation
import NativeCode.Proofs.Ir.RoundTrip
import NativeCode.Proofs.Compile.Correctness
import NativeCode.Proofs.Compile.Definitions
import NativeCode.Proofs.Selection.Allocation
import NativeCode.Proofs.Frame.Limits
import NativeCode.Proofs.Selection.Floats
import NativeCode.Proofs.Symbols.History
import NativeCode.Proofs.Compile.FirstFailure
import NativeCode.Proofs.Compile.References
import NativeCode.Proofs.Compile.InitialValues
import NativeCode.Proofs.Temps.History
import NativeCode.Proofs.Shell.Quoting
import NativeCode.Proofs.Ir.Layout
import NativeCode.Proofs.Real.DoubleRounding
import NativeCode.Proofs.Listing.History
