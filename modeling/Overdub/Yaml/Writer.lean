import Overdub.Yaml.Number
/-!
# Writing text as a YAML scalar

Text is written plainly where that reads back as the same text. What would read
as a number, a truth value or nothing is put in single quotes, and so is what
plain form cannot hold; text of several lines becomes a literal block; and what
none of these can hold is put in double quotes.
-/

namespace Overdub.Yaml

/-! ## Text that would not read as text -/

/-- A floating-point number in decimal digits: its digits, how many of them stand
behind the point, and its exponent. -/
def decimal? (text : List Char) : Option (Nat × Int) := do
  let whole := text.takeWhile Char.isDigit
  let rest := text.drop whole.length
  let fraction := match rest with
    | '.' :: rest => rest.takeWhile Char.isDigit
    | _ => []
  let rest := match rest with
    | '.' :: rest => rest.drop fraction.length
    | rest => rest
  let digits ← digitsValue? 10 (whole ++ fraction)
  let exponent : Int ← match rest with
    | [] => some 0
    | 'e' :: '-' :: rest | 'E' :: '-' :: rest => (digitsValue? 10 rest).map fun n => -n
    | 'e' :: rest | 'E' :: rest => (digitsValue? 10 (withoutPlus rest)).map (Int.ofNat ·)
    | _ => none
  return (digits, exponent - fraction.length)

/-- A decimal number is less than the largest power of two that a double can be
near to, and so reads as a finite one. -/
def isFinite (digits : Nat) (exponent : Int) : Bool :=
  digits = 0 || exponent ≤ 400 && decide (digits * Nat.pow 10 exponent.toNat < (Nat.pow 2 1024 - Nat.pow 2 970) * Nat.pow 10 (-exponent).toNat)

/-- Text without one sign in front. -/
def withoutSign : List Char → List Char
  | '+' :: rest | '-' :: rest => rest
  | text => text

/-- Text that reads as a number, or as a number that is padded with zeros. -/
def readsAsNumber (text : List Char) : Bool :=
  let unsigned := withoutSign text
  let special := [".inf", ".Inf", ".INF"].contains (String.ofList unsigned)
    || [".nan", ".NaN", ".NAN"].contains (String.ofList text)
  let limit := if text.head? = some '-' then Nat.pow 2 127 else Nat.pow 2 128 - 1
  isPaddedNumber unsigned || special || (magnitude? unsigned).any (· ≤ limit)
    || (decimal? unsigned).any fun (digits, exponent) => isFinite digits exponent

/-- Words that readers take for a truth value or for nothing. -/
def reservedWords : List String :=
  ["", "~", "null", "Null", "NULL", "true", "True", "TRUE", "false", "False", "FALSE", "y", "Y", "yes", "Yes", "YES",
    "n", "N", "no", "No", "NO", "on", "On", "ON", "off", "Off", "OFF"]

/-! ## Forms -/

/-- A line end in the widest sense. -/
def isBreak (c : Char) : Bool := ['\n', '\r', '\u0085', '\u2028', '\u2029'].contains c

/-- A character that can be written as itself. -/
def isPrintable (c : Char) : Bool :=
  let n := c.toNat
  n = 0x0A || (0x20 ≤ n && n ≤ 0x7E) || (0xA0 ≤ n && n ≤ 0xD7FF) || (0xE000 ≤ n && n ≤ 0xFFFD && n != 0xFEFF)
    || 0x10000 ≤ n

/-- What stands behind a character makes a mark of it. -/
def endsMark (rest : List Char) : Bool := rest.head?.all fun c => [' ', '\t', '\x00'].contains c || isBreak c

/-- A mark of block structure stands inside of the text. -/
def hasMark : (afterBlank : Bool) → List Char → Bool
  | _, [] => false
  | afterBlank, c :: rest =>
    c = ':' && endsMark rest || c = '#' && afterBlank || hasMark (endsMark [c]) rest

/-- The text begins with a mark of block structure. -/
def startsWithMark (text : List Char) : Bool :=
  match text with
  | [] => false
  | c :: rest =>
    text.take 3 = ['-', '-', '-'] || text.take 3 = ['.', '.', '.']
      || ['#', ',', '[', ']', '{', '}', '&', '*', '!', '|', '>', '\'', '"', '%', '@', '`'].contains c
      || ['?', ':', '-'].contains c && endsMark rest

/-- A space stands at either end of the text, or a line end does. -/
def hasOuterSpace (text : List Char) : Bool :=
  [text.head?, text.getLast?].any fun c => c.any fun c => c = ' ' || isBreak c

/-- Two characters that follow each other have two properties. -/
def hasPair (p q : Char → Bool) : List Char → Bool
  | a :: b :: rest => p a && q b || hasPair p q (b :: rest)
  | _ => false

/-- Only double quotes can hold the text. -/
def needsEscapes (text : List Char) : Bool := !text.all isPrintable || hasPair (· = ' ') isBreak text

/-- Plain form can hold the text. -/
def fitsPlain (text : List Char) : Bool :=
  !(needsEscapes text || text.any isBreak || hasOuterSpace text || startsWithMark text || hasMark true text)

/-- Single quotes can hold the text. -/
def fitsSingle (text : List Char) : Bool := !(needsEscapes text || hasPair isBreak (· = ' ') text)

/-- A literal block can hold the text. -/
def fitsBlock (text : List Char) : Bool := !(needsEscapes text || text.getLast? = some ' ')

/-- Text in single quotes, in which a quote is written twice. -/
def single (text : List Char) : String :=
  String.ofList (['\''] ++ text.flatMap (fun c => if c = '\'' then [c, c] else [c]) ++ ['\''])

/-- A number in base 16 of at least `width` digits. -/
def hex (width n : Nat) : List Char :=
  let digits := (Nat.toDigits 16 n).map Char.toUpper
  List.replicate (width - digits.length) '0' ++ digits

/-- The characters that have an escape of their own. -/
def shortEscapes : List (Char × Char) :=
  [('\x00', '0'), ('\x07', 'a'), ('\x08', 'b'), ('\t', 't'), ('\n', 'n'), ('\x0B', 'v'), ('\x0C', 'f'), ('\r', 'r'),
    ('\x1B', 'e'), ('"', '"'), ('\\', '\\'), ('\u0085', 'N'), ('\u00A0', '_'), ('\u2028', 'L'), ('\u2029', 'P')]

/-- A character in double quotes. -/
def escape (c : Char) : List Char :=
  if isPrintable c && !isBreak c && c != '"' && c != '\\' then [c]
  else match shortEscapes.lookup c with
    | some e => ['\\', e]
    | none =>
      let n := c.toNat
      if n ≤ 0xFF then '\\' :: 'x' :: hex 2 n
      else if n ≤ 0xFFFF then '\\' :: 'u' :: hex 4 n
      else '\\' :: 'U' :: hex 8 n

def double (text : List Char) : String := String.ofList (['"'] ++ text.flatMap escape ++ ['"'])

/-- Text as a literal block of lines indented by `indent`. -/
def literal (indent : Nat) (text : List Char) : String :=
  let padded (line : String) := if line.isEmpty then "" else "".pushn ' ' indent ++ line
  let inner := if text.head?.any fun c => c = ' ' || isBreak c then "2" else ""
  let chomping := match text.reverse with
    | ['\n'] => "+"
    | '\n' :: c :: _ => if isBreak c then "+" else ""
    | _ => "-"
  let lines := (String.ofList text).splitOn "\n"
  let lines := if text.getLast? = some '\n' then lines.dropLast else lines
  s!"|{inner}{chomping}\n" ++ "\n".intercalate (lines.map padded)

/-- Text as a scalar, whose lines are indented by `indent` if it has several. -/
def scalar (indent : Nat) (text : String) : String :=
  let chars := text.toList
  if chars.contains '\n' then if fitsBlock chars then literal indent chars else double chars
  else if !(reservedWords.contains text || readsAsNumber chars) && fitsPlain chars then text
  else if fitsSingle chars then single chars
  else double chars

end Overdub.Yaml
