/-
Byte strings written as expressions.

A string is given outright, as a pattern repeated or counted up to a length, by the name it was stored under, or as the
parts it is joined from, and may then be edited. An expression has no value if a name is unknown, an edit falls
outside the string, or an empty pattern would have to fill a length.
-/
namespace PostQuantum.Session

/-- a change to a byte string -/
inductive Edit
  /-- keep the first `n` bytes -/
  | keep (n : Nat)
  /-- remove the first `n` bytes -/
  | skip (n : Nat)
  /-- add `value` without carries to the byte at `index` -/
  | flip (index : Nat) (value : UInt8)
  /-- put `value` at `index` -/
  | put (index : Nat) (value : UInt8)

inductive ByteExpr
  | literal (bytes : List UInt8)
  /-- the pattern over and over, `n` bytes in all -/
  | cycle (pattern : List UInt8) (n : Nat)
  /-- `n` bytes that count up from `start` -/
  | count (start n : Nat)
  /-- the bytes stored under a name -/
  | stored (name : String)
  | join (parts : List ByteExpr)
  | edited (base : ByteExpr) (edits : List Edit)

namespace Edit

def apply (bytes : List UInt8) : Edit → Option (List UInt8)
  | keep n => some (bytes.take n)
  | skip n => some (bytes.drop n)
  | flip i value => bytes[i]?.map fun b => bytes.set i (b ^^^ value)
  | put i value => bytes[i]?.map fun _ => bytes.set i value

end Edit

namespace ByteExpr

/-- the first `n` bytes of a pattern repeated -/
def cycled (pattern : List UInt8) (n : Nat) : Option (List UInt8) :=
  let data := pattern.toArray
  if data.isEmpty && n != 0 then none
  else some ((List.range n).map fun i => data.getD (i % data.size) 0)

mutual

/-- the value of an expression, given the stored strings -/
def eval (stored : String → Option (List UInt8)) : ByteExpr → Option (List UInt8)
  | .literal bytes => some bytes
  | .cycle pattern n => cycled pattern n
  | .count start n => some ((List.range n).map fun i => UInt8.ofNat (start + i))
  | .stored name => stored name
  | .join parts => evalAll stored parts
  | .edited base edits => do
    let bytes ← eval stored base
    edits.foldlM Edit.apply bytes

/-- the values of expressions, one after the other -/
def evalAll (stored : String → Option (List UInt8)) : List ByteExpr → Option (List UInt8)
  | [] => some []
  | e :: rest => do
    let bytes ← eval stored e
    let more ← evalAll stored rest
    some (bytes ++ more)

end

end ByteExpr

end PostQuantum.Session
