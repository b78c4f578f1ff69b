import Overdub.Audio.Sample
/-!
# Reports

A report is what a monitor or a front end is shown of an object: values, lists of
them, and records whose fields have names. It is a picture taken at one time, and
nothing leads back from it to the object.
-/

namespace Overdub

/-- What is shown of an object. -/
inductive Report where
  | absent
  | flag (value : Bool)
  | number (value : Int)
  | text (value : String)
  | list (items : List Report)
  | record (fields : List (String × Report))

/-- What can be shown. -/
class Reported (α : Type) where
  report : α → Report

export Reported (report)

instance {α : Type} [Reported α] (a : α) : CoeDep α a Report := ⟨report a⟩

namespace Report

/-- The fields of one record and then those of another. -/
def append : Report → Report → Report
  | record fields, record more => record (fields ++ more)
  | r, _ => r

instance : Append Report := ⟨append⟩

/-- The bits of a sample in eight hexadecimal digits. -/
def bitText (x : Audio.Sample) : String :=
  let digits := Nat.toDigits 16 x.toBits.toNat
  String.ofList (List.replicate (8 - digits.length) '0' ++ digits)

/-- A sample without loss: as a number if it is a whole one below `2 ^ 24`, otherwise
by its bits. All that is not a number looks alike; the negative zero is not whole. -/
def ofSample (x : Audio.Sample) : Report :=
  if x.isNaN then text "nan"
  else if x.floor == x && x.abs < 16777216 && x.toBits != 0x80000000 then
    number (if x < 0 then -((-x).toUInt32.toNat : Int) else x.toUInt32.toNat)
  else text (bitText x)

/-- Why something could not be done. -/
def failure (kind message : String) : Report := record [("error", text kind), ("message", text message)]

instance : Reported Report := ⟨id⟩
instance : Reported Bool := ⟨flag⟩
instance : Reported Nat := ⟨fun n => number n⟩
instance : Reported Int := ⟨number⟩
instance : Reported UInt8 := ⟨fun n => number n.toNat⟩
instance : Reported UInt16 := ⟨fun n => number n.toNat⟩
instance : Reported UInt32 := ⟨fun n => number n.toNat⟩
instance : Reported Audio.Sample := ⟨ofSample⟩
instance : Reported String := ⟨text⟩
instance : Reported Unit := ⟨fun _ => text "ok"⟩

instance {α : Type} [Reported α] : Reported (List α) := ⟨fun items => list (items.map report)⟩
instance {α : Type} [Reported α] : Reported (Option α) := ⟨fun a => a.elim absent report⟩
instance {α β : Type} [Reported α] [Reported β] : Reported (α × β) := ⟨fun (a, b) => list [report a, report b]⟩

instance {ε α : Type} [Reported ε] [Reported α] : Reported (Except ε α) where
  report
    | .ok a => report a
    | .error e => report e

end Report

end Overdub
