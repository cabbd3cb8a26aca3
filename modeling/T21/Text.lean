/-!
# Texts and bytes

Blanks and case, lines, slices, hexadecimal digits and UTF-8. The characters with the Unicode property `White_Space`
separate words in source lines and may surround a hex record.
-/

namespace T21.Text

/-! ## Blanks and case -/

/-- The `White_Space` characters as closed ranges of code points, in increasing order. -/
def blankRanges : List (Nat × Nat) :=
  [(0x09, 0x0D), (0x20, 0x20), (0x85, 0x85), (0xA0, 0xA0), (0x1680, 0x1680), (0x2000, 0x200A),
    (0x2028, 0x2029), (0x202F, 0x202F), (0x205F, 0x205F), (0x3000, 0x3000)]

def isBlank (c : Char) : Bool :=
  blankRanges.any fun (lo, hi) => lo ≤ c.toNat && c.toNat ≤ hi

def trim (cs : List Char) : List Char :=
  ((cs.dropWhile isBlank).reverse.dropWhile isBlank).reverse

/-- Lower-case ASCII letters become upper-case; every other character stays as it is. -/
def upper (cs : List Char) : List Char :=
  cs.map Char.toUpper

example : blankRanges.Pairwise (fun a b => a.2 < b.1) := by decide

example : (blankRanges.map fun (lo, hi) => hi + 1 - lo).sum = 25 := by decide

example : trim "\u3000\t jmp  end\r\n".toList = "jmp  end".toList := by decide

/-! ## Lines

A sequence cut at a separator has terminated pieces, each followed by a separator, and one remainder,
which is empty when the sequence ends in a separator. -/

def terminated {α : Type} (sep : α → Bool) (l : List α) : List (List α) :=
  (l.splitOnP sep).dropLast

def remainder {α : Type} (sep : α → Bool) (l : List α) : List α :=
  (l.splitOnP sep).getLastD []

/-- Drops one carriage return at the end. -/
def dropReturn (cs : List Char) : List Char :=
  if cs.getLast? = some '\r' then cs.dropLast else cs

/-- Drops all line feeds and carriage returns at the end. -/
def dropLineEnds (cs : List Char) : List Char :=
  (cs.reverse.dropWhile fun c => c == '\n' || c == '\r').reverse

/-- The lines of a text: each ends at a line feed or at a carriage return and line feed, and a last line
needs neither. -/
def lines (text : String) : List String :=
  let cs := text.toList
  let rest := remainder (· == '\n') cs
  ((terminated (· == '\n') cs).map dropReturn ++ if rest.isEmpty then [] else [rest]).map String.ofList

end T21.Text

namespace T21

/-! ## Slices

An array cut into consecutive slices of one length. -/

def sliceCount (n size : Nat) : Nat :=
  (size + n - 1) / n

/-- The slice with the given index, shorter than `n` where the array ends inside it. -/
def slice {α : Type} (n : Nat) (a : Array α) (index : Nat) : Array α :=
  a.extract (index * n) (index * n + n)

def slices {α : Type} (n : Nat) (a : Array α) : List (Array α) :=
  (List.range (sliceCount n a.size)).map (slice n a)

end T21

namespace T21.Text.Hex

/-! ## Hexadecimal

Upper-case digits are written; both cases are read. -/

def digit (n : Nat) : Char :=
  if n < 10 then Char.ofNat (n + 0x30) else Char.ofNat (n + 0x37)

def digitValue? (c : Char) : Option Nat :=
  if '0' ≤ c ∧ c ≤ '9' then some (c.toNat - 0x30)
  else if 'A' ≤ c ∧ c ≤ 'F' then some (c.toNat - 0x37)
  else if 'a' ≤ c ∧ c ≤ 'f' then some (c.toNat - 0x57)
  else none

def byte (b : UInt8) : List Char :=
  [digit (b.toNat / 16), digit (b.toNat % 16)]

/-- Reads a number below the limit. A plus sign may stand before its digits, of which there is at least one. -/
def number? (limit : Nat) (cs : List Char) : Option Nat :=
  let digits := if cs.head? = some '+' then cs.tail else cs
  if digits = [] then none
  else (digits.foldlM (fun n c => (digitValue? c).map (16 * n + ·)) 0).filter (· < limit)

def byte? (cs : List Char) : Option UInt8 :=
  (number? 256 cs).map UInt8.ofNat

def byteText (b : UInt8) : String :=
  String.ofList (byte b)

def padded (width n : Nat) : String :=
  String.ofList (((Nat.toDigits 16 n).map Char.toUpper).leftpad width '0')

def joined (separator : String) (bytes : List UInt8) : String :=
  separator.intercalate (bytes.map byteText)

end T21.Text.Hex

namespace T21.Text.Utf8

/-! ## UTF-8

`encode` is the standard encoding. `decode` reads any byte sequence: each maximal prefix of a well-formed
sequence that cannot be completed becomes one replacement character, and so does each byte that cannot
begin a sequence. -/

/-- A character of which some bytes have been read: the next byte lies between `lo` and `hi`, `after`
bytes follow it, and `value` holds the bits read so far. -/
structure Pending where
  lo : Nat
  hi : Nat
  after : Nat
  value : Nat
  deriving DecidableEq, Repr

def replacement : Char := '\uFFFD'

/-- The character that the byte is on its own, or the longer sequence it begins. The ranges for the second
byte keep out overlong forms, surrogates and values above the last code point. -/
def lead (b : Nat) : Char ⊕ Pending :=
  if b < 0x80 then .inl (Char.ofNat b)
  else if b < 0xC2 then .inl replacement
  else if b < 0xE0 then .inr ⟨0x80, 0xBF, 0, b - 0xC0⟩
  else if b = 0xE0 then .inr ⟨0xA0, 0xBF, 1, 0x0⟩
  else if b = 0xED then .inr ⟨0x80, 0x9F, 1, 0xD⟩
  else if b < 0xF0 then .inr ⟨0x80, 0xBF, 1, b - 0xE0⟩
  else if b = 0xF0 then .inr ⟨0x90, 0xBF, 2, 0x0⟩
  else if b < 0xF4 then .inr ⟨0x80, 0xBF, 2, b - 0xF0⟩
  else if b = 0xF4 then .inr ⟨0x80, 0x8F, 2, 0x4⟩
  else .inl replacement

structure Decoder where
  text : Array Char := #[]
  pending : Option Pending := none

def Decoder.push (d : Decoder) (c : Char) : Decoder :=
  { text := d.text.push c }

def Decoder.begin (d : Decoder) (b : Nat) : Decoder :=
  match lead b with
  | .inl c => d.push c
  | .inr p => { d with pending := some p }

/-- Reads one byte: it continues the character under way, or else that character is given up and the byte
begins a new one. -/
def Decoder.feed (d : Decoder) (byte : UInt8) : Decoder :=
  let b := byte.toNat
  match d.pending with
  | none => d.begin b
  | some p =>
    if p.lo ≤ b ∧ b ≤ p.hi then
      let value := p.value * 64 + (b - 0x80)
      if p.after = 0 then d.push (Char.ofNat value)
      else { d with pending := some ⟨0x80, 0xBF, p.after - 1, value⟩ }
    else (d.push replacement).begin b

def Decoder.finish (d : Decoder) : Decoder :=
  match d.pending with
  | none => d
  | some _ => d.push replacement

def decode (bytes : List UInt8) : String :=
  String.ofList (bytes.foldl Decoder.feed {}).finish.text.toList

def encode (text : String) : List UInt8 :=
  text.toList.flatMap String.utf8EncodeChar

def decode? (bytes : List UInt8) : Option String :=
  if encode (decode bytes) = bytes then some (decode bytes) else none

end T21.Text.Utf8
