import Overdub.Yaml.Number
/-!
# YAML values

A document is a tree of scalars, sequences and mappings, and a value may have a
tag. Of the form of a scalar only this is kept: whether it was written plainly,
and may so be a number, or in one of the forms that always mean text.
-/

namespace Overdub.Yaml

/-- A value of a document. -/
inductive Node where
  | scalar (plain : Bool) (text : String)
  | sequence (items : List Node)
  | mapping (entries : List (Node × Node))
  | tagged (tag : String) (value : Node)

namespace Node

/-- What stands where nothing was written. -/
def blank : Node := .scalar true ""

def text? : Node → Option String
  | .scalar _ text => some text
  | .tagged _ value => value.text?
  | _ => none

/-- The entries of a mapping. Nothing counts as a mapping without entries. -/
def entries? : Node → Option (List (Node × Node))
  | .mapping entries => some entries
  | .scalar true "" => some []
  | .tagged _ value => value.entries?
  | _ => none

/-- A natural number up to a limit. -/
def number? (limit : Nat) : Node → Option Nat
  | .scalar true text => (magnitude? (withoutPlus text.toList)).filter (· ≤ limit)
  | .tagged _ value => value.number? limit
  | _ => none

/-- Nothing was written, or a word for nothing. -/
def isNothing : Node → Bool
  | .scalar plain text => plain && ["", "~", "null", "Null", "NULL"].contains text
  | _ => false

/-- The name of one of several possibilities: the text of a scalar, or a tag on
nothing. -/
def choice? : Node → Option String
  | .tagged tag value => if value.isNothing then some tag else none
  | value => value.text?

end Node

end Overdub.Yaml
