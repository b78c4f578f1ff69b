import Overdub.Yaml.Property
/-!
# Reading YAML documents

Block structure follows from columns: the entries of a mapping or of a sequence
begin in the same column, deeper than what the collection belongs to. A document
that gives handles for tags is refused.
-/

namespace Overdub.Yaml

namespace Source

/-- An item of a block sequence begins here. -/
def atDash (s : Source) : Bool := s.rest.head? = some '-' && endsWord s.rest.tail

/-- A key that may have several lines begins here. -/
def atQuestion (s : Source) : Bool := s.rest.head? = some '?' && endsWord s.rest.tail

/-- The value of such a key begins here. -/
def atAnswer (s : Source) : Bool := s.rest.head? = some ':' && endsWord s.rest.tail

/-- A quoted scalar begins here. -/
def atQuote (s : Source) : Bool := s.rest.head?.any ['"', '\''].contains

/-- A flow collection begins here. -/
def atFlow (s : Source) : Bool := s.rest.head?.any ['[', '{'].contains

/-- A value is repeated here. -/
def atRepeated (s : Source) : Bool := s.rest.head? = some '*'

/-- A plain scalar can begin here. -/
def atPlain (s : Source) (flow : Bool) : Bool :=
  match s.rest with
  | [] => false
  | c :: rest =>
    if c = '-' then !endsWord rest
    else if ['?', ':'].contains c then !(flow || endsWord rest)
    else !(isSpace c || isFlowMark c || ['#', '&', '*', '!', '|', '>', '\'', '"', '%', '@', '`'].contains c)

/-- A quoted or plain scalar. -/
def word (s : Source) (flow : Bool) (parent : Int) : Option (Node × Source) :=
  if s.atQuote then s.quoted.map fun (text, last) => (.scalar false (.ofList text), last)
  else if s.atPlain flow then
    let (text, last) := s.plain flow parent
    match last.rest.dropWhile isSpace with
    | ':' :: rest => if flow && clashes rest then none else some (.scalar true (.ofList text), last)
    | _ => some (.scalar true (.ofList text), last)
  else none

end Source

/-! ## Flow collections -/

mutual

/-- A value in a flow collection. -/
def flowNode : Nat → Source → Option (Node × Source)
  | 0, _ => none
  | fuel + 1, s => do
    let t := (s.skip true).1
    guard !t.atMarker
    if t.atProperty then
      let (properties, last) ← t.properties true
      let u := (last.skip true).1
      let (value, last) ←
        if u.rest.head?.any [',', ':', ']', '}'].contains then some (.blank, last) else flowNode fuel u
      return last.give value properties
    match t.rest.head? with
    | some '[' => (flowItems fuel (t.drop 1)).map fun (items, last) => (.sequence items, last)
    | some '{' => (flowEntries fuel (t.drop 1)).map fun (entries, last) => (.mapping entries, last)
    | some '*' => t.repeated?
    | _ => t.word true (-1)

/-- The value behind what was read from `s` to `last`, if that is a key. The value
may be left out. -/
def flowValue : Nat → (s last : Source) → Option (Option Node × Source)
  | 0, _, _ => none
  | fuel + 1, s, last =>
    if s.isKey last true then
      let t := (last.afterColon.skip true).1
      if t.rest.head?.any [',', ']', '}'].contains then some (some .blank, t)
      else (flowNode fuel t).map fun (value, last) => (some value, last)
    else some (none, last)

/-- The items of a flow sequence up to its end. An item with a colon is a mapping
of one entry. -/
def flowItems : Nat → Source → Option (List Node × Source)
  | 0, _ => none
  | fuel + 1, s => do
    let t := (s.skip true).1
    if t.rest.head? = some ']' then return ([], t.drop 1)
    let (item, last) ← flowNode fuel t
    let (value, last) ← flowValue fuel t last
    let item := value.elim item fun value => .mapping [(item, value)]
    let u := (last.skip true).1
    match u.rest.head? with
    | some ',' =>
      let (more, last) ← flowItems fuel (u.drop 1)
      return (item :: more, last)
    | some ']' => return ([item], u.drop 1)
    | _ => none

/-- The entries of a flow mapping up to its end. -/
def flowEntries : Nat → Source → Option (List (Node × Node) × Source)
  | 0, _ => none
  | fuel + 1, s => do
    let t := (s.skip true).1
    if t.rest.head? = some '}' then return ([], t.drop 1)
    let (key, last) ← flowNode fuel t
    let (value, last) ← flowValue fuel t last
    let entry := (key, value.getD .blank)
    let u := (last.skip true).1
    match u.rest.head? with
    | some ',' =>
      let (more, last) ← flowEntries fuel (u.drop 1)
      return (entry :: more, last)
    | some '}' => return ([entry], u.drop 1)
    | _ => none

end

/-- How many steps are enough to read what follows. -/
def Source.steps (s : Source) : Nat := 2 * s.rest.length + 2

/-- A key of a block mapping, which ends on its line, and its colon. -/
def Source.key? (s : Source) : Option (Node × Source) := do
  let (properties, t) ← s.properties false
  let (key, last) ←
    if t.atRepeated then t.repeated?
    else if t.atFlow then flowNode t.steps t
    else if t.atQuote then t.word false 0
    else if t.atPlain false then
      let (text, last) := t.plainLine false
      some (.scalar true (.ofList text), last)
    else if s.atProperty then some (.blank, t)
    else none
  guard (s.isKey last false)
  let (key, last) := last.give key properties
  return (key, last.afterColon)

/-! ## Block collections -/

mutual

/-- A value that belongs to a collection in column `parent`. `inline` says that it
stands behind a key on the same line, where no block collection can begin, and
`entry` that it is the value of a key, whose sequence may stand in the key's
column. -/
def blockNode : Nat → Int → (inline entry : Bool) → Source → Option (Node × Source)
  | 0, _, _, _, _ => none
  | fuel + 1, parent, inline, entry, s => do
    let (t, crossed) := s.skip false
    let inline := inline && !crossed
    let outside := crossed && t.column ≤ parent && !(entry && t.atDash && t.column = parent)
    if t.rest.isEmpty || t.atMarker || outside then return (.blank, t)
    if t.atDash then
      guard !inline
      let (items, last) ← blockItems fuel t.column t
      return (.sequence items, last)
    if !inline && (t.atQuestion || t.key?.isSome) then
      let (entries, last) ← blockEntries fuel t.column t
      return (.mapping entries, last)
    if t.atProperty then
      let (properties, last) ← t.properties false
      let (value, last) ← blockNode fuel parent true entry last
      return last.give value properties
    if t.rest.head?.any ['|', '>'].contains then
      let (text, last) ← t.block parent
      return (.scalar false (.ofList text), last)
    let (value, last) ←
      if t.atRepeated then t.repeated? else if t.atFlow then flowNode fuel t else t.word false parent
    guard !(last.atColon false)
    return (value, last)

/-- The items of a block sequence in a column. -/
def blockItems : Nat → Nat → Source → Option (List Node × Source)
  | 0, _, _ => none
  | fuel + 1, column, s => do
    let (item, last) ← blockNode fuel column false false (s.drop 1)
    let t := (last.skip false).1
    if !t.rest.isEmpty && !t.atMarker && t.column = column && t.atDash then
      let (more, last) ← blockItems fuel column t
      return (item :: more, last)
    guard (t.rest.isEmpty || t.atMarker || t.column ≤ column)
    return ([item], t)

/-- The entries of a block mapping in a column. -/
def blockEntries : Nat → Nat → Source → Option (List (Node × Node) × Source)
  | 0, _, _ => none
  | fuel + 1, column, s => do
    let (key, last) ← if s.atQuestion then blockNode fuel column false true (s.drop 1) else s.key?
    let answer := (last.skip false).1
    let (value, last) ←
      if !s.atQuestion then blockNode fuel column true true last
      else if answer.column = column && answer.atAnswer then blockNode fuel column false true (answer.drop 1)
      else some (.blank, last)
    let t := (last.skip false).1
    if t.rest.isEmpty || t.atMarker || t.column < column then return ([(key, value)], t)
    guard (t.column = column)
    let (more, last) ← blockEntries fuel column t
    return ((key, value) :: more, last)

end

/-! ## Documents -/

/-- The text behind a document holds nothing but another end of it. -/
def isOver (s : Source) : Bool :=
  let t := (s.skip false).1
  t.rest.isEmpty || t.atMarker && t.rest.head? = some '.' && ((t.drop 3).skip false).1.rest.isEmpty

/-- The place behind a line that says by which version of YAML a document is
written. -/
def version? (s : Source) : Option Source := do
  let line := s.rest.takeWhile (· ≠ '\n')
  let text := trimEnd (line.takeWhile (· ≠ '#'))
  let version := text.drop 5
  guard (s.column = 0 && text.take 5 = "%YAML".toList && version.head?.any isBlank)
  guard (["1.1", "1.2"].contains (String.ofList (version.dropWhile isBlank)))
  return ((s.drop line.length).skip false).1

/-- The value of the one document in a text. A text without a document has the
value of one in which nothing was written. -/
def parse? (text : String) : Option Node := do
  let chars := text.toList
  let chars := if chars.head? = some '\uFEFF' then chars.tail else chars
  guard !(chars.any isForbidden)
  let first := (({ rest := unifyBreaks chars } : Source).skip false).1
  let s ← if first.rest.head? = some '%' then version? first else some first
  let marked := s.atMarker && s.rest.head? = some '-'
  guard (marked || first.rest.head? ≠ some '%')
  let (value, last) ←
    if marked then blockNode s.steps (-1) true false (s.drop 3) else blockNode s.steps (-1) false false s
  guard (isOver last)
  return value

end Overdub.Yaml
