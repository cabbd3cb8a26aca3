import Std.Data.TreeMap
import T21.Event

/-!
# The assembler

An assembler takes the lines of a program one by one. A jump goes into the code with a placeholder for its
target and a fixup that remembers where it stands; when all lines have been seen, the fixups are resolved
against the labels. So a label may be used before it is declared. Nothing that is wrong with a line stops
the work, and the code is there whether or not anything was wrong.
-/

namespace T21

/-! ## Results -/

structure Label where
  name : String
  offset : Nat
  line : Nat
  deriving DecidableEq, Repr

structure Entry where
  line : Nat
  offset : Nat
  instruction : Instruction
  deriving DecidableEq, Repr

structure Assembly where
  labels : Array Label
  code : Array UInt8
  listing : Array Entry
  diagnostics : Array Diagnostic
  deriving DecidableEq, Repr

namespace Assembly

def hasErrors (a : Assembly) : Bool :=
  !a.diagnostics.isEmpty

def offset? (a : Assembly) (name : String) : Option Nat :=
  (a.labels.find? (·.name == name)).map (·.offset)

/-- The bytes that the code holds for an instruction, as far as the code reaches. -/
def bytesOf (a : Assembly) (e : Entry) : Array UInt8 :=
  a.code.extract e.offset (e.offset + e.instruction.size)

def hexDump (a : Assembly) : String :=
  "\n".intercalate ((slices 16 a.code).map fun row => Text.Hex.joined " " row.toList)

end Assembly

/-! ## Label tables -/

structure LabelTable where
  entries : Array Label := #[]
  /-- The position of each name in `entries`. -/
  index : Std.TreeMap String Nat := {}

namespace LabelTable

def find? (t : LabelTable) (name : String) : Option Label :=
  t.index[name]?.bind (t.entries[·]?)

/-- Adds a label whose name the table does not have. -/
def insert (t : LabelTable) (l : Label) : LabelTable where
  index := t.index.insert l.name t.entries.size
  entries := t.entries.push l

end LabelTable

/-! ## Assembling -/

def romSize : Nat := 256

structure Fixup where
  address : Nat
  line : Nat
  target : String
  deriving DecidableEq, Repr

structure Assembler where
  source : String
  labels : LabelTable := {}
  fixups : Array Fixup := #[]
  code : Array UInt8 := #[]
  listing : Array Entry := #[]
  diagnostics : Array Diagnostic := #[]
  log : Array Event := #[]

structure Outcome where
  assembly : Assembly
  log : Array Event
  deriving DecidableEq, Repr

namespace Assembler

def start (source : String) : Assembler := { source }

def note (s : Assembler) (e : Event) : Assembler :=
  { s with log := s.log.push e }

def report (s : Assembler) (line : Nat) (fault : Fault) : Assembler :=
  let d : Diagnostic := ⟨s.source, line, fault⟩
  { s with diagnostics := s.diagnostics.push d, log := s.log.push (.reported d) }

/-- Declares a label at the current end of the code. The first declaration of a name stands. -/
def define (s : Assembler) (line : Nat) (name : String) : Assembler :=
  match s.labels.find? name with
  | some first => s.report line (.duplicateLabel name first.line)
  | none =>
    let offset := s.code.size
    { s with
      labels := s.labels.insert ⟨name, offset, line⟩
      log := s.log.push (.labelDefined s.source line name offset) }

def place (s : Assembler) (line : Nat) (i : Instruction) : Assembler :=
  let offset := s.code.size
  { s with
    code := s.code ++ i.bytes
    fixups := s.fixups ++ (i.target?.map (Fixup.mk (offset + i.size - 1) line ·)).toList
    listing := s.listing.push ⟨line, offset, i⟩
    log := s.log.push (.emitted s.source line offset i) }

/-- Emits an instruction. The one that crosses the end of the ROM is reported. -/
def emit (s : Assembler) (line : Nat) (i : Instruction) : Assembler :=
  let offset := s.code.size
  let s := s.place line i
  if offset ≤ romSize ∧ romSize < s.code.size then s.report line (.romOverflow romSize) else s

def declare (s : Assembler) (line : Nat) (label : Option String) : Assembler :=
  label.elim s (s.define line)

def accept (s : Assembler) (line : Nat) (parts : Line) : Assembler :=
  let s := parts.warnings.foldl note (s.declare line parts.label)
  match parts.encode with
  | .ok (some i) => s.emit line i
  | .ok none => s
  | .error fault => s.report line fault

def feed (s : Assembler) (line : Nat) (raw : String) : Assembler :=
  match Line.read raw with
  | .ok parts => s.accept line parts
  | .error cause => s.report line (.malformed cause)

def resolve (s : Assembler) (f : Fixup) : Assembler :=
  match s.labels.find? f.target with
  | none => s.report f.line (.undefinedLabel f.target)
  | some l =>
    if l.offset < romSize then
      let value := UInt8.ofNat l.offset
      { s with
        code := s.code.setIfInBounds f.address value
        log := s.log.push (.patched f.address f.target value) }
    else s.report f.line (.labelOutOfRange f.target l.offset)

def assembly (s : Assembler) : Assembly where
  labels := s.labels.entries
  code := s.code
  listing := s.listing
  diagnostics := s.diagnostics

def finish (s : Assembler) : Outcome :=
  let s := s.fixups.foldl resolve s
  { assembly := s.assembly
    log := s.log.push
      (.finished s.source s.code.size s.labels.entries.size s.diagnostics.size) }

end Assembler

/-! ## Runs -/

inductive Step where
  | raw (line : Nat) (text : String)
  | parts (line : Nat) (content : Line)
  deriving DecidableEq, Repr

namespace Assembler

def step (s : Assembler) : Step → Assembler
  | .raw line text => s.feed line text
  | .parts line content => s.accept line content

def run (source : String) (steps : List Step) : Assembler :=
  steps.foldl step (start source)

end Assembler

/-! ## Programs

Whole programs, as a text or as a stream of bytes that may break off. -/

def numbered (lines : List String) : List Step :=
  (lines.zipIdx 1).map fun (text, line) => .raw line text

def assemble (source text : String) : Outcome :=
  (Assembler.run source (numbered (Text.lines text))).finish

/-- What reading a file gives: bytes, and after them the end of the file or a failure. -/
structure Stream where
  data : List UInt8
  failure : Option String := none
  deriving DecidableEq, Repr

structure Interrupted where
  reason : String
  log : Array Event
  deriving DecidableEq, Repr

def isLineFeed (b : UInt8) : Bool := b == 0x0A

/-- What a reader takes off a stream, a line at a time with the line feed that ends it. A last line without
one is lost if reading fails. -/
def Stream.pieces (input : Stream) : List (List UInt8) :=
  let ended := (Text.terminated isLineFeed input.data).map (· ++ [0x0A])
  let rest := Text.remainder isLineFeed input.data
  if input.failure.isSome || rest.isEmpty then ended else ended ++ [rest]

/-- The lines of a stream. Each is decoded on its own and loses every line feed and carriage return at its
end. -/
def Stream.lines (input : Stream) : List String :=
  input.pieces.map fun bytes => String.ofList (Text.dropLineEnds (Text.Utf8.decode bytes).toList)

/-- Assembles a stream line by line. Bytes that are not UTF-8 become replacement characters; only a
failure of the stream ends the run. -/
def assembleStream (source : String) (input : Stream) : Except Interrupted Outcome :=
  let s := Assembler.run source (numbered input.lines)
  match input.failure with
  | some reason => .error ⟨reason, s.log⟩
  | none => .ok s.finish

end T21
