import OutOfOrder.Fault
/-!
# Operands and tags

An instruction that waits in a station has, for each source, the value it
will use, or the tag of the station that is to produce it, or nothing if
the operation does not use the source. A tag is a station's position in the
pool.
-/

namespace OutOfOrder

/-- The number by which the result of a station is known to those who wait
for it. -/
abbrev Tag := Int

/-- What a station holds for one source of its instruction. -/
inductive Operand where
  /-- The operation does not use this source. -/
  | unused
  /-- The value is there. -/
  | value (v : Int)
  /-- The value will be the result of this station. -/
  | waiting (tag : Tag)
deriving DecidableEq, Repr

namespace Operand

/-- The value, if it is there. -/
def value? : Operand → Option Int
  | value v => some v
  | _ => none

/-- The station that is waited for, if any. -/
def tag? : Operand → Option Tag
  | waiting t => some t
  | _ => none

/-- Nothing is waited for. -/
def ready : Operand → Bool
  | waiting _ => false
  | _ => true

/-- **An operand hears a result.** The value replaces the tag it was
announced under. -/
def hear (tag : Tag) (v : Int) : Operand → Operand
  | waiting t => if t = tag then value v else waiting t
  | o => o

/-- The operand given by a value, by a tag, or by neither. There is none
for both. -/
def ofParts? : Option Int → Option Tag → Option Operand
  | none, none => some unused
  | some v, none => some (value v)
  | none, some t => some (waiting t)
  | some _, some _ => none

end Operand

end OutOfOrder
