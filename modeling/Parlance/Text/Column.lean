/-!
# Columns of listings
-/

namespace Parlance

/-- A text with blanks after it up to a number of characters. A longer text stays as it
is. -/
def padRight (width : Nat) (s : String) : String :=
  s ++ String.ofList (List.replicate (width - s.length) ' ')

end Parlance
