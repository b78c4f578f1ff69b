import Overdub.Yaml.Source
/-!
# What stands in front of a value

An anchor gives a value a name, under which the rest of the document can repeat
it. A tag says of what kind a value is. Tags of the standard are skipped, since the
form of a value already says as much as is asked of it.
-/

namespace Overdub.Yaml

def isNameChar (c : Char) : Bool := c.isAlphanum || c = '_' || c = '-'

def isTagChar (c : Char) : Bool :=
  isNameChar c || [';', '/', '?', ':', '@', '&', '=', '+', '$', '.', '%', '!', '~', '*', '\'', '(', ')'].contains c

/-- The anchor and the tag of a value. -/
structure Properties where
  anchor : Option String := none
  tag : Option String := none

namespace Source

/-- An anchor or a tag stands here. -/
def atProperty (s : Source) : Bool := s.rest.head?.any ['&', '!'].contains

/-- The name behind the sign at this place. -/
def anchorName? (s : Source) : Option (String × Source) := do
  let name := s.rest.tail.takeWhile isNameChar
  let last := s.drop (name.length + 1)
  guard (!name.isEmpty)
  guard (endsWord last.rest || last.rest.head?.any ['?', ':', ',', ']', '}', '%', '@'].contains)
  return (.ofList name, last)

/-- The value that is repeated at this place. -/
def repeated? (s : Source) : Option (Node × Source) := do
  let (name, last) ← s.anchorName?
  return (← s.anchors.lookup name, last)

/-- The tag at this place, without its sign, if it is not one of the standard. -/
def tag? (s : Source) (flow : Bool) : Option (Option String × Source) := do
  let inner := s.rest.tail
  let handle := inner.takeWhile isNameChar
  let (tag, length) ← match inner, inner.drop handle.length with
    | '<' :: rest, _ => do
      let tag := rest.takeWhile fun c => isTagChar c || [',', '[', ']'].contains c
      guard (!tag.isEmpty && (rest.drop tag.length).head? = some '>')
      pure (if tag.head? = some '!' then tag.tail else [], tag.length + 3)
    | _, '!' :: rest => do
      let tag := rest.takeWhile isTagChar
      guard (handle.isEmpty && !tag.isEmpty)
      pure ([], tag.length + 2)
    | _, _ =>
      let tag := inner.takeWhile isTagChar
      pure (tag, tag.length + 1)
  let last := s.drop length
  guard (endsWord last.rest || flow && last.rest.head? = some ',')
  return (if tag.isEmpty then none else some (.ofList tag), last)

/-- The properties on this line, and what follows. One value has at most one anchor
and one tag, and a value that is repeated has neither. -/
def properties (s : Source) (flow : Bool) : Option (Properties × Source) := do
  let blanks (s : Source) := s.moveTo (s.rest.dropWhile isBlank)
  let anchor (s : Source) : Option (Option String × Source) :=
    if s.rest.head? = some '&' then s.anchorName?.map fun (name, last) => (some name, blanks last) else some (none, s)
  let (first, s) ← anchor s
  let (tag, s) ←
    if s.rest.head? = some '!' then (s.tag? flow).map fun (tag, last) => (tag, blanks last) else some (none, s)
  let (second, s) ← if first.isNone then anchor s else some (none, s)
  guard (!s.rest.head?.any ['&', '!', '*'].contains)
  return ({ anchor := first <|> second, tag }, s)

/-- A value with its properties. Its name is known from here on. -/
def give (s : Source) (value : Node) (p : Properties) : Node × Source :=
  let value := p.tag.elim value (Node.tagged · value)
  (value, p.anchor.elim s fun name => { s with anchors := (name, value) :: s.anchors })

end Source

end Overdub.Yaml
