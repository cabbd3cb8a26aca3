import T21.HexRecord

/-!
# Reading Intel HEX records

A line that has the shape of a record is cut into groups of digits, and each group is read by itself. A group that
could not be read would make the line malformed, like one without the shape. Then the length and the checksum are
compared with what has been read.
-/

namespace T21.HexRecord

open Text

structure Groups where
  length : List Char
  offset : List Char
  code : List Char
  payload : List Char
  checksum : List Char
  deriving DecidableEq, Repr

def Groups.ofLine? (line : List Char) : Option Groups :=
  if line.head? = some ':' ∧ line.tail.all (fun c => (Hex.digitValue? c).isSome) ∧ line.length % 2 = 1 ∧
      11 ≤ line.length then
    some
      { length := (line.drop 1).take 2
        offset := (line.drop 3).take 4
        code := (line.drop 7).take 2
        payload := (line.drop 9).take (line.length - 11)
        checksum := line.drop (line.length - 2) }
  else none

/-- Two bytes of a group at a time; two that are not a text are read as an empty one. -/
def readPayload? (group : List Char) : Option (List UInt8) :=
  (slices 2 (Utf8.encode (String.ofList group)).toArray).mapM fun pair =>
    Hex.byte? ((Utf8.decode? pair.toList).getD "").toList

def verified (kind : Kind) (offset : UInt16) (payload : List UInt8) (length checksum : UInt8) :
    Except Error HexRecord :=
  if h : payload.length = length.toNat then
    let record : HexRecord :=
      { kind
        offset
        payload
        length_le := by have := length.toNat_lt; simp only [maxPayload]; omega }
    if record.checksum = checksum then .ok record
    else .error (.checksumMismatch record.checksum checksum)
  else .error (.lengthMismatch length.toNat payload.length)

/-- Reads one record. Blanks around it and the case of its digits do not matter. -/
def parse (text : String) : Except Error HexRecord := do
  let line := trim text.toList
  let malformed := Error.malformed (String.ofList line)
  let g ← (Groups.ofLine? line).getDM (throw malformed)
  let length ← (Hex.byte? g.length).getDM (throw malformed)
  let offset ← (Hex.number? 65536 g.offset).getDM (throw malformed)
  let kind ← Kind.ofCode (← (Hex.byte? g.code).getDM (throw malformed))
  let payload ← (readPayload? g.payload).getDM (throw malformed)
  let checksum ← (Hex.byte? g.checksum).getDM (throw malformed)
  verified kind (UInt16.ofNat offset) payload length checksum

end T21.HexRecord
