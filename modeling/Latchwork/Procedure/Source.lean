import Latchwork.Dialect.C
import Latchwork.Dialect.Python
import Latchwork.Procedure.Compile

/-!
# Source text

The source text of the procedure that simulates a netlist, in either dialect.
-/

namespace Latchwork

/-- The source text of a procedure. -/
def Procedure.source (p : Procedure) (d : Dialect) : Text :=
  Layout.renderAll d.indentation .empty <|
    match d with
    | .c => Dialect.C.layout p
    | .python => Dialect.Python.layout p

/-- The source text of the procedure that simulates a netlist. -/
def Netlist.source [Machine] (n : Netlist) (d : Dialect) (name done : Value) : Except Error Text :=
  (n.compile d name done).map fun p => p.source d

end Latchwork
