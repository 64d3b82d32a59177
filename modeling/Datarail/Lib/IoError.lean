/-
# Input and output errors

`std::io::Error`: a kind and a text.
-/

namespace Lib

/-- `std::io::ErrorKind`, as far as it is used. -/
inductive ErrorKind where
  | invalidInput
  | invalidData
  | unexpectedEof
  | wouldBlock
  | timedOut
  | other
  deriving DecidableEq, Repr

/-- `std::io::Error`. -/
structure IoError where
  kind : ErrorKind
  text : String
  deriving DecidableEq, Repr

/-- An error of the disk; the kind and the text are the operating system's. -/
def IoError.disk : IoError := ⟨.other, "input/output error"⟩

end Lib
