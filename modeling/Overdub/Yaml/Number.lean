/-!
# Numbers in plain scalars

Digits may be of base 10, or of base 16, 8 or 2 behind `0x`, `0o` and `0b`. A zero
in front of other digits makes them text.
-/

namespace Overdub.Yaml

/-- The value of a digit, up to sixteen for what is none. -/
def digitValue (c : Char) : Nat :=
  if c.isDigit then c.toNat - 48
  else if 'a' ≤ c ∧ c ≤ 'f' then c.toNat - 87
  else if 'A' ≤ c ∧ c ≤ 'F' then c.toNat - 55
  else 16

/-- The value of some digits in a base, if there are any and all of them are
digits of it. -/
def digitsValue? (base : Nat) (digits : List Char) : Option Nat :=
  if digits.isEmpty || digits.any (base ≤ digitValue ·) then none
  else some (digits.foldl (fun n c => base * n + digitValue c) 0)

/-- Digits behind a zero, which are text and not a number. -/
def isPaddedNumber (unsigned : List Char) : Bool :=
  match unsigned with
  | '0' :: rest => !rest.isEmpty && rest.all Char.isDigit
  | _ => false

/-- The number that unsigned text stands for. -/
def magnitude? (text : List Char) : Option Nat :=
  match text with
  | '0' :: 'x' :: digits => digitsValue? 16 digits
  | '0' :: 'o' :: digits => digitsValue? 8 digits
  | '0' :: 'b' :: digits => digitsValue? 2 digits
  | _ => if isPaddedNumber text then none else digitsValue? 10 text

/-- Text without a plus sign in front. -/
def withoutPlus : List Char → List Char
  | '+' :: rest => rest
  | text => text

end Overdub.Yaml
