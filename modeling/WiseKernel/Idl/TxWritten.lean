import WiseKernel.Idl.TxCode

/-!
# Which transactions are written

The generator returns at the first part of a transaction that is missing and at the
first field that it cannot bind or read.  Whether it does is a question about each
part on its own, whatever was written before.
-/

namespace WiseKernel.Idl

open Cplus

section

variable (table : SymbolTable) (program : Program)

end

namespace Cplus

/-! ## Field by field -/

section

variable {table : SymbolTable} {program : Program}

end

end Cplus

end WiseKernel.Idl
