import Overdub.Yaml.Node
/-!
# Reading YAML character by character

A `Source` is a place in a text that remembers its column and the values that have
a name. This module knows what can be read without looking at the structure of a
document: blanks and comments, and the four forms of a scalar.
-/

namespace Overdub.Yaml

/-! ## Characters -/

/-- A space or a tab. -/
def isBlank (c : Char) : Bool := c = ' ' || c = '\t'

/-- A blank or the end of a line. -/
def isSpace (c : Char) : Bool := isBlank c || c = '\n'

/-- A character with a meaning in flow collections. -/
def isFlowMark (c : Char) : Bool := [',', '[', ']', '{', '}'].contains c

/-- A character that no document contains. -/
def isForbidden (c : Char) : Bool :=
  let n := c.toNat
  !(n = 0x09 || n = 0x0A || n = 0x0D || n = 0x85 || (0x20 ≤ n && n ≤ 0x7E) || (0xA0 ≤ n && n ≤ 0xD7FF)
    || (0xE000 ≤ n && n ≤ 0xFFFD) || 0x10000 ≤ n)

/-- One kind of line end for all. -/
def unifyBreaks : List Char → List Char
  | '\r' :: '\n' :: rest => '\n' :: unifyBreaks rest
  | '\r' :: rest | '\u0085' :: rest => '\n' :: unifyBreaks rest
  | c :: rest => c :: unifyBreaks rest
  | [] => []

/-- A word ends in front of this text. -/
def endsWord : List Char → Bool
  | [] => true
  | c :: _ => isSpace c

def trimEnd (text : List Char) : List Char := (text.reverse.dropWhile isBlank).reverse

/-- What stands for some line ends between two words: one is a space, of several
the first is dropped. -/
def foldBreaks : Nat → List Char
  | 0 => []
  | 1 => [' ']
  | n + 1 => List.replicate n '\n'

/-! ## Places -/

/-- A place in a text, and the values with a name in front of it. -/
structure Source where
  rest : List Char
  column : Nat := 0
  anchors : List (String × Node) := []

namespace Source

def drop (s : Source) : Nat → Source
  | 0 => s
  | n + 1 =>
    match s.rest with
    | [] => s
    | c :: rest => drop { s with rest, column := if c = '\n' then 0 else s.column + 1 } n

/-- Moves to where only `rest` is left. -/
def moveTo (s : Source) (rest : List Char) : Source := s.drop (s.rest.length - rest.length)

/-- A line of three dashes or points begins or ends a document. -/
def atMarker (s : Source) : Bool :=
  let mark := s.rest.take 3
  s.column = 0 && (mark = ['-', '-', '-'] || mark = ['.', '.', '.']) && endsWord (s.rest.drop 3)

/-- Skips blanks, line ends and comments, and says whether a line ended. In block
structure a tab does not count as indentation. -/
def skipFrom (flow : Bool) : (comment tabs crossed : Bool) → Nat → List Char → List Char × Nat × Bool
  | _, _, crossed, column, [] => ([], column, crossed)
  | comment, tabs, crossed, column, c :: rest =>
    if c = '\n' then skipFrom flow false flow true 0 rest
    else if comment || c = ' ' || c = '\t' && tabs then skipFrom flow comment tabs crossed (column + 1) rest
    else if c = '#' then skipFrom flow true tabs crossed (column + 1) rest
    else (c :: rest, column, crossed)

/-- Moves to the next token, and says whether a line ended on the way. -/
def skip (s : Source) (flow : Bool) : Source × Bool :=
  let (rest, column, crossed) := skipFrom flow false (flow || s.column ≠ 0) false s.column s.rest
  ({ s with rest, column }, crossed)

def atColon (s : Source) (flow : Bool) : Bool :=
  match s.rest.dropWhile isBlank with
  | ':' :: rest => flow || endsWord rest
  | _ => false

/-- The place behind the colon at the end of a key. -/
def afterColon (s : Source) : Source := s.moveTo (s.rest.dropWhile isBlank).tail

/-- What stands from this place to the next is a key. A key stands on one line and
is not longer than 1024 characters. -/
def isKey (s next : Source) (flow : Bool) : Bool :=
  let key := s.rest.take (s.rest.length - next.rest.length)
  !key.contains '\n' && key.length ≤ 1024 && next.atColon flow

/-! ## Plain scalars -/

/-- In flow collections a plain scalar cannot have a colon in front of this text. -/
def clashes (rest : List Char) : Bool := rest.head?.any fun c => isFlowMark c || c = '?'

/-- The part of a plain scalar on one line. -/
def plainPart (flow : Bool) : (afterBlank : Bool) → List Char → List Char
  | _, [] => []
  | afterBlank, c :: rest =>
    if c = '\n' || flow && isFlowMark c || c = '#' && afterBlank
        || c = ':' && (endsWord rest || flow && clashes rest) then []
    else c :: plainPart flow (isBlank c) rest

/-- The part of a plain scalar on this line. -/
def plainLine (s : Source) (flow : Bool) : List Char × Source :=
  let text := trimEnd (plainPart flow false s.rest)
  (text, s.drop text.length)

/-- A tab stands among the first characters of a line, which are its indentation. -/
def tabbed (indent : Nat) : (column : Nat) → List Char → Bool
  | _, [] => false
  | column, c :: rest => c = '\t' && column < indent || tabbed indent (if c = '\n' then 0 else column + 1) rest

/-- The lines that go on with a plain scalar. They lie deeper than `parent`. -/
def plainTail (flow : Bool) (parent : Int) : Nat → Source → List Char × Source
  | 0, s => ([], s)
  | fuel + 1, s =>
    let gap := s.rest.takeWhile isSpace
    let next := s.drop gap.length
    let breaks := gap.count '\n'
    let (line, after) := next.plainLine flow
    let outside := next.column ≤ parent || tabbed (parent + 1).toNat 0 (gap.dropWhile isBlank)
    if breaks = 0 || next.atMarker || !flow && outside || next.rest.head? = some '#' || line.isEmpty then
      ([], s)
    else
      let (more, last) := plainTail flow parent fuel after
      (foldBreaks breaks ++ line ++ more, last)

def plain (s : Source) (flow : Bool) (parent : Int) : List Char × Source :=
  let (first, after) := s.plainLine flow
  let (more, last) := plainTail flow parent after.rest.length after
  (first ++ more, last)

/-! ## Quoted scalars -/

/-- The characters behind a backslash that stand for another one. -/
def escapes : List (Char × Char) :=
  [('0', '\x00'), ('a', '\x07'), ('b', '\x08'), ('t', '\t'), ('\t', '\t'), ('n', '\n'), ('v', '\x0B'), ('f', '\x0C'),
    ('r', '\r'), ('e', '\x1B'), (' ', ' '), ('"', '"'), ('/', '/'), ('\\', '\\'), ('N', '\u0085'), ('_', '\u00A0'),
    ('L', '\u2028'), ('P', '\u2029')]

/-- How many digits a character's number has behind a backslash and a letter. -/
def codeLength : Char → Option Nat
  | 'x' => some 2
  | 'u' => some 4
  | 'U' => some 8
  | _ => none

/-- The character of a number in base 16. -/
def charOfCode? (digits : List Char) (length : Nat) : Option Char := do
  guard (digits.length = length)
  let n ← digitsValue? 16 digits
  if n.isValidChar then some (.ofNat n) else none

/-- What a quoted scalar says up to its closing quote, and what follows. Blanks
around a line end count for nothing. -/
def quotedBody (quote : Char) : Nat → List Char → Option (List Char × List Char)
  | 0, _ => none
  | _, [] => none
  | fuel + 1, c :: rest =>
    let go (text : List Char) (rest : List Char) :=
      (quotedBody quote fuel rest).map fun (more, last) => (text ++ more, last)
    if c = quote then
      if quote = '\'' && rest.head? = some '\'' then go ['\''] rest.tail else some ([], rest)
    else if isSpace c then
      let gap := (c :: rest).takeWhile isSpace
      let breaks := gap.count '\n'
      go (if breaks = 0 then gap else foldBreaks breaks) ((c :: rest).drop gap.length)
    else if c = '\\' && quote = '"' then
      match rest with
      | [] => none
      | '\n' :: rest =>
        let gap := rest.takeWhile isSpace
        go (List.replicate (gap.count '\n') '\n') (rest.drop gap.length)
      | e :: rest =>
        match escapes.lookup e, codeLength e with
        | some char, _ => go [char] rest
        | none, some n => (charOfCode? (rest.take n) n).bind fun char => go [char] (rest.drop n)
        | none, none => none
    else go [c] rest

def quoted (s : Source) : Option (List Char × Source) := do
  let quote :: rest := s.rest | none
  let (text, last) ← quotedBody quote rest.length rest
  return (text, s.moveTo last)

/-! ## Block scalars -/

/-- What becomes of the line ends at the end of a block scalar. -/
inductive Chomping where
  | strip
  | clip
  | keep
  deriving DecidableEq

/-- The signs behind the mark of a block scalar: its chomping and its indentation. -/
def blockSigns : Nat → Chomping × Option Nat → List Char → (Chomping × Option Nat) × List Char
  | 0, signs, rest => (signs, rest)
  | n + 1, (chomping, indent), c :: rest =>
    if c = '+' then blockSigns n (.keep, indent) rest
    else if c = '-' then blockSigns n (.strip, indent) rest
    else if '1' ≤ c ∧ c ≤ '9' then blockSigns n (chomping, some (c.toNat - 48)) rest
    else ((chomping, indent), c :: rest)
  | _, signs, [] => (signs, [])

/-- A line holds nothing but spaces. -/
def isEmptyLine (line : List Char) : Bool := line.all (· = ' ')

def indentOf (line : List Char) : Nat := (line.takeWhile (· = ' ')).length

/-- The indentation that the lines of a block scalar show. -/
def shownIndent : List (List Char) → Nat
  | [] => 0
  | line :: rest => if isEmptyLine line then max line.length (shownIndent rest) else indentOf line

/-- A line belongs to a block scalar of the given indentation. -/
def isInside (indent : Nat) (line : List Char) : Bool := isEmptyLine line || indent ≤ indentOf line

/-- Puts the lines of a block scalar together. `broken` says that a line ended
before, `empty` how many empty ones followed, and `deep` that it began with a
blank. -/
def blockText (literal : Bool) (chomping : Chomping) : (broken : Bool) → (empty : Nat) → (deep : Bool) →
    List (List Char) → List Char
  | broken, empty, _, [] =>
    match chomping with
    | .strip => []
    | .clip => if broken then ['\n'] else []
    | .keep => List.replicate (empty + broken.toNat) '\n'
  | broken, empty, deep, [] :: rest => blockText literal chomping broken (empty + 1) deep rest
  | broken, empty, deep, line :: rest =>
    let deeper := line.head?.any isBlank
    let gap := if !broken then []
      else if literal || deep || deeper then ['\n']
      else if empty = 0 then [' ']
      else []
    gap ++ List.replicate empty '\n' ++ line ++ blockText literal chomping true 0 deeper rest

/-- The lines of a text. The last one has no end. -/
def lines : List Char → List (List Char)
  | [] => [[]]
  | '\n' :: rest => [] :: lines rest
  | c :: rest =>
    match lines rest with
    | line :: more => (c :: line) :: more
    | [] => [[c]]

/-- A block scalar of lines deeper than `parent`. -/
def block (s : Source) (parent : Int) : Option (List Char × Source) := do
  let mark :: rest := s.rest | none
  let ((chomping, given), rest) := blockSigns 2 (.clip, none) rest
  let header := rest.takeWhile (· ≠ '\n')
  guard ((header.dropWhile isBlank).head?.all (· = '#'))
  let all := lines (rest.drop (header.length + 1))
  let outer := (parent + 1).toNat
  let indent := match given with
    | some n => parent.toNat + n
    | none => max (max (shownIndent all) outer) 1
  let inside := all.takeWhile (isInside indent)
  let ended := inside.length = all.length
  let last := inside.getLastD []
  let body := if ended && isEmptyLine last then inside.dropLast else inside
  let text := blockText (mark = '|') chomping false 0 false (body.map (·.drop indent))
  let text := if ended && !isEmptyLine last && chomping ≠ .strip then text.dropLast else text
  return (text, { s with rest := ['\n'].intercalate (all.drop inside.length), column := 0 })

end Source

end Overdub.Yaml
