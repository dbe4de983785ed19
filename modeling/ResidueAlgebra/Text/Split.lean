/-!
# Splitting text

`splitOn` cuts a list of characters at every separator; there is always one piece more than there are
separators.
-/
set_option autoImplicit false
namespace ResidueAlgebra.Text

def splitOn (separator : Char) : List Char → List (List Char)
  | [] => [[]]
  | character :: rest =>
      if character = separator then
        [] :: splitOn separator rest
      else
        match splitOn separator rest with
        | [] => [[character]]
        | first :: others => (character :: first) :: others

end ResidueAlgebra.Text
