/-!
# Names

A name that may stand in text without quotes is a letter or underscore followed by letters, digits
and underscores, all of them ASCII. Four such names are reserved for values.
-/

namespace ValueAlgebra

namespace Name

def isStart (c : Char) : Bool := c.isAlpha || c == '_'

def isPart (c : Char) : Bool := c.isAlphanum || c == '_'

/-- Whether the characters form a name. -/
def isName : List Char → Bool
  | [] => false
  | c :: cs => isStart c && cs.all isPart

/-- The names of values. -/
def reserved : List (List Char) :=
  [['t', 'r', 'u', 'e'], ['f', 'a', 'l', 's', 'e'], ['n', 'a', 'n'], ['i', 'n', 'f']]

/-- Whether a node of this name is written without quotes. -/
def isPlain (cs : List Char) : Bool := isName cs && !reserved.contains cs

end Name

end ValueAlgebra
