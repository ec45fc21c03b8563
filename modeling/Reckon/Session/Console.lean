import Reckon.Text.Blank

/-!
# Input and output

What a session reads is a list of reads that are to come, and what it writes is a pair of texts. A console says where
the reads come from and whether what is written is kept.
-/

namespace Reckon

/-- What comes of reading a line. The end of the input reads as an empty line. -/
inductive Read where
  | line (text : String)
  | failure (message : String)
deriving DecidableEq, Repr

/-- Is this the end of the input, or a line without anything on it? -/
def Read.isBlank : Read → Bool
  | .line text => Text.allBlank text.toList
  | .failure _ => false

/-- What was written, to the standard output and to the standard error output. -/
structure Output where
  out : String
  err : String
deriving DecidableEq, Repr, Inhabited

namespace Output

def empty : Output := ⟨"", ""⟩

instance : Append Output where
  append a b := ⟨a.out ++ b.out, a.err ++ b.err⟩

end Output

inductive Console where
  /-- Nothing to read, and what is written is lost. -/
  | silent
  /-- Reads what is pending, and then the end of the input. -/
  | memory (pending : List Read)
deriving Repr

namespace Console

def pending : Console → List Read
  | .silent => []
  | .memory pending => pending

/-- The console after reading, when `rest` is still to be read. -/
def withPending : Console → List Read → Console
  | .silent, _ => .silent
  | .memory _, rest => .memory rest

def keep : Console → Output → Output
  | .silent, _ => .empty
  | .memory _, output => output

end Console
end Reckon
