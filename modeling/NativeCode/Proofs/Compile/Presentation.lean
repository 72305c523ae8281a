import NativeCode.Proofs.Compile.LineMap

/-!
# Options of presentation

Comments, the line map and the trace are shown beside the code. Code selection never looks at these
options, so they decide neither whether a module compiles nor what its code is. The trace and the line
map leave the text as it is. The comments are a line of the header and the ends of some lines: without
them, all other lines are the same, and each stands one line higher.
-/

namespace NativeCode.Selection

section Blind

variable {α β : Type}

end Blind

end NativeCode.Selection

namespace NativeCode.Compile

open Machine Selection Text

variable {o o' : Options} {m : Ir.Module}

/-! ### Functions -/

end NativeCode.Compile

namespace NativeCode

open Machine Text

namespace Listing

end Listing

end NativeCode

namespace NativeCode.Compile

open Machine Selection Text

variable {o o' : Options} {m : Ir.Module}

end NativeCode.Compile
