/-!
# Columns

Texts of a table are padded with blanks. A text that is wider than its column stands as it is.
-/

namespace FlatGraph.Text

/-- The text, padded at its end to `width` characters. -/
def column (width : Nat) (s : String) : String := .ofList (s.toList.rightpad width ' ')

end FlatGraph.Text
