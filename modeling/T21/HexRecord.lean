import T21.Text

/-!
# Intel HEX records

A record is a line `:LLAAAATT…CC`: the length of the payload, a load offset, a kind, the payload, and a
checksum that makes the sum of all bytes zero. A memory image is written as data records at increasing load offsets
and the record that ends the file.
-/

namespace T21

namespace HexRecord

inductive Kind where
  | data
  | endOfFile
  | extendedSegmentAddress
  | startSegmentAddress
  | extendedLinearAddress
  | startLinearAddress
  deriving DecidableEq, Repr

def Kind.code : Kind → UInt8
  | data => 0
  | endOfFile => 1
  | extendedSegmentAddress => 2
  | startSegmentAddress => 3
  | extendedLinearAddress => 4
  | startLinearAddress => 5

inductive Error where
  | payloadTooLong (size : Nat)
  | imageTooLarge (size : Nat)
  | malformed (line : String)
  | lengthMismatch (declared actual : Nat)
  | unknownKind (code : UInt8)
  | checksumMismatch (expected found : UInt8)
  deriving DecidableEq, Repr

open Text in
def Error.message : Error → String
  | payloadTooLong n => "record payload of " ++ toString n ++ " bytes exceeds the 255-byte limit"
  | imageTooLarge n => "image of " ++ toString n ++ " bytes does not fit a 16-bit load offset"
  | malformed line => "malformed record `" ++ line ++ "`"
  | lengthMismatch declared actual =>
    "record declares " ++ toString declared ++ " payload bytes but carries " ++ toString actual
  | unknownKind code => "unknown record type " ++ Hex.byteText code
  | checksumMismatch expected found =>
    "checksum mismatch: expected " ++ Hex.byteText expected ++ ", found " ++ Hex.byteText found

def Kind.all : List Kind :=
  [data, endOfFile, extendedSegmentAddress, startSegmentAddress, extendedLinearAddress,
    startLinearAddress]

def Kind.ofCode (code : UInt8) : Except Error Kind :=
  match Kind.all.find? (·.code == code) with
  | some k => .ok k
  | none => .error (.unknownKind code)

def maxPayload : Nat := 255

end HexRecord

structure HexRecord where
  kind : HexRecord.Kind
  offset : UInt16
  payload : List UInt8
  length_le : payload.length ≤ HexRecord.maxPayload
  deriving DecidableEq, Repr

namespace HexRecord

def ofPayload (kind : Kind) (offset : UInt16) (payload : List UInt8) : Except Error HexRecord :=
  if h : payload.length ≤ maxPayload then .ok ⟨kind, offset, payload, h⟩
  else .error (.payloadTooLong payload.length)

def endOfFile : HexRecord := ⟨.endOfFile, 0, [], Nat.zero_le _⟩

/-- The bytes that the checksum is taken over. -/
def body (r : HexRecord) : List UInt8 :=
  UInt8.ofNat r.payload.length :: UInt8.ofNat (r.offset.toNat / 256) ::
    UInt8.ofNat (r.offset.toNat % 256) :: r.kind.code :: r.payload

def byteSum (bytes : List UInt8) : UInt8 :=
  bytes.foldl (· + ·) 0

def checksum (r : HexRecord) : UInt8 :=
  0 - byteSum r.body

def bytes (r : HexRecord) : List UInt8 :=
  r.body ++ [r.checksum]

def text (r : HexRecord) : String :=
  String.ofList (':' :: r.bytes.flatMap Text.Hex.byte)

/-! ## Images -/

def maxImage : Nat := 65536

/-- A payload size that a record can have and that makes progress. -/
def clampChunk (chunk : Nat) : Nat :=
  min (max chunk 1) maxPayload

/-- The data record of one slice, with checks that sixteen bits hold its offset and a record its payload. -/
def checkedSlice (c : Nat) (image : Array UInt8) (index : Nat) : Except Error HexRecord :=
  if index * c < 65536 then ofPayload .data (UInt16.ofNat (index * c)) (slice c image index).toList
  else .error (.imageTooLarge image.size)

def ofImage (image : Array UInt8) (chunk : Nat) : Except Error (List HexRecord) := do
  if image.size > maxImage then throw (.imageTooLarge image.size)
  let c := clampChunk chunk
  let data ← (List.range (sliceCount c image.size)).mapM (checkedSlice c image)
  return data ++ [endOfFile]

end HexRecord

end T21
