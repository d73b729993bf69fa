/-!
# The stack

What is nested is gone through by calls, and calls stand on a stack of fixed size. The frames that
are left when a walk begins bound how deep it can go. How many are in use by then depends on who
calls; the numbers here are those of a program that calls the library from its main loop.
-/

namespace Latchwork.Stack

/-- The number of frames that the stack holds. -/
def frames : Nat := 1000

/-- The frames in use when a text is read; each open list or object takes one more. -/
def usedByReader : Nat := 12

/-- The frames in use when the form of a value is checked. -/
def usedByCheck : Nat := 16

/-- The frames that the check of a form takes for each list or object. -/
def framesPerLevel : Nat := 3

/-- The frames in use when a procedure is translated. -/
def usedByTranslator : Nat := 10

/-- The translator walks expressions without frames of its own, and goes this many levels deep for
each frame that is left. -/
def levelsPerFrame : Nat := 3

end Latchwork.Stack
