import Reckon.Proofs.Source.TextTable
import Reckon.Proofs.Token.Coverage

/-!
# Lines of a source

The line of a token or of an error is counted while the source is scanned, and it can be looked up in the line table. Both
give the number of line breaks that come before its end.
-/

namespace Reckon

open Text Piece

/-! ## Lines of spans -/

section
variable {source : String} {before after : List Char}

end

/-! ## What is scanned -/

section
variable {source : String}

end

end Reckon
