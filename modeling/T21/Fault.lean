import T21.Instruction

/-!
# Faults

What can be wrong with a program: a line that does not follow the grammar, an instruction that does not
fit its operands, a label without a usable address, an image that outgrows the ROM.
-/

namespace T21

inductive LineError where
  | strayColon
  | invalidLabel (name : String)
  | secondLabel (name : String)
  | unknownMnemonic (word : String)
  | misplacedLiteral (value : Int)
  | unexpected (what : String)
  deriving DecidableEq, Repr

def LineError.message : LineError → String
  | strayColon => "`:` must directly follow a label name"
  | invalidLabel name => "label names may only contain the letters A-Z, got `" ++ name ++ "`"
  | secondLabel name => "only one label may be declared per line, got a second `" ++ name ++ ":`"
  | unknownMnemonic word => "unknown mnemonic `" ++ word ++ "`"
  | misplacedLiteral value => "literal `" ++ toString value ++ "` may only appear as the first operand"
  | unexpected what => "unexpected " ++ what

inductive Fault where
  | malformed (cause : LineError)
  | invalidOperand (mnemonic : Mnemonic)
  | missingDestination (mnemonic : Mnemonic)
  | missingTarget (mnemonic : Mnemonic)
  | literalTarget (mnemonic : Mnemonic) (value : Int)
  | duplicateLabel (name : String) (firstLine : Nat)
  | undefinedLabel (name : String)
  | labelOutOfRange (name : String) (offset : Nat)
  | romOverflow (limit : Nat)
  deriving DecidableEq, Repr

namespace Fault

def cause? : Fault → Option LineError
  | malformed cause => some cause
  | _ => none

def message : Fault → String
  | malformed cause => "invalid line: " ++ cause.message
  | invalidOperand m => "invalid operand to " ++ m.keyword
  | missingDestination m => m.keyword ++ " requires a destination register"
  | missingTarget m => m.keyword ++ " requires a label name"
  | literalTarget m value =>
    "numeric literal `" ++ toString value ++ "` cannot be a jump target for " ++ m.keyword
  | duplicateLabel name firstLine =>
    "label " ++ name ++ " already defined on line " ++ toString firstLine
  | undefinedLabel name => "label " ++ name ++ " not found"
  | labelOutOfRange name offset =>
    "label " ++ name ++ " at offset " ++ toString offset ++ " does not fit in a jump target byte"
  | romOverflow limit => "program is larger than the " ++ toString limit ++ "-byte ROM"

end Fault

/-- A fault with the source it was found in and its line, counted from one. -/
structure Diagnostic where
  source : String
  line : Nat
  fault : Fault
  deriving DecidableEq, Repr

def Diagnostic.text (d : Diagnostic) : String :=
  d.source ++ ":" ++ toString d.line ++ ": " ++ d.fault.message

end T21
