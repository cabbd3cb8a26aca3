import T21.Encoding

/-!
# Events

What an assembler run tells about its work while it goes on. Events are values; their text and level are
decided here, and whether they are shown is up to whoever runs the assembler.
-/

namespace T21

/-- How grave an event is, the gravest first. -/
inductive Level where
  | error
  | warn
  | info
  | debug
  | trace
  deriving DecidableEq, Repr

namespace Level

def name : Level → String
  | error => "ERROR"
  | warn => "WARN"
  | info => "INFO"
  | debug => "DEBUG"
  | trace => "TRACE"

def rank : Level → Nat
  | error => 1
  | warn => 2
  | info => 3
  | debug => 4
  | trace => 5

end Level

inductive Event where
  | surplus (part : String) (mnemonic : Mnemonic)
  | labelDefined (source : String) (line : Nat) (name : String) (offset : Nat)
  /-- An instruction went into the code, a jump without its target yet. -/
  | emitted (source : String) (line : Nat) (offset : Nat) (instruction : Instruction)
  | reported (diagnostic : Diagnostic)
  | patched (address : Nat) (name : String) (value : UInt8)
  | finished (source : String) (bytes labels diagnostics : Nat)
  deriving DecidableEq, Repr

namespace Event

def level : Event → Level
  | surplus .. => .warn
  | labelDefined .. | reported _ | patched .. => .debug
  | emitted .. => .trace
  | finished .. => .info

open Text in
def message : Event → String
  | surplus part m => "ignoring surplus operand `" ++ part ++ "` to " ++ m.keyword
  | labelDefined source line name offset =>
    source ++ ":" ++ toString line ++ ": label " ++ name ++ " at offset " ++ toString offset
  | emitted source line offset i =>
    source ++ ":" ++ toString line ++ ": " ++ Hex.padded 4 offset ++ ": " ++ i.text ++
      " => [" ++ Hex.joined ", " i.bytes ++ "]"
  | reported d => d.text
  | patched address name value =>
    "patching " ++ Hex.padded 4 address ++ " with " ++ name ++ " = " ++ Hex.byteText value
  | finished source bytes labels diagnostics =>
    source ++ ": assembled " ++ toString bytes ++ " byte(s), " ++ toString labels ++ " label(s), " ++
      toString diagnostics ++ " diagnostic(s)"

end Event

/-- The warnings that encoding a line gives, in the order of its parts; none unless it succeeds. -/
def Line.warnings (l : Line) : List Event :=
  match l.mnemonic, l.encode with
  | some m, .ok (some i) => ((l.surplus i).filterMap l.part?).map (Event.surplus · m)
  | _, _ => []

end T21
