import Reckon.Proofs.Diagnostic.Render
import Reckon.Proofs.Expr.Blame
import Reckon.Proofs.Token.Lines

/-!
# Lines of errors

An error has the line of the token it is reported at, counted from zero, and the header above its snippet has the line
where its span begins, counted from one. A token without a line break in it begins and ends on the same line, and every
operator is such a token.
-/

namespace Reckon

open Text Piece

/-! ## Headers -/

namespace Diagnostic

variable {d : Diagnostic} {source : String} {line : Nat}

end Diagnostic

/-! ## Operators -/

variable {source : String}

end Reckon
