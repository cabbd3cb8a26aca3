import T21.Token

/-!
# Lines

The parts of one source line:

    [LABEL:] [MNEMONIC [OPERAND [[,] REGISTER]] [TARGET]] [# comment]

Optional parts are taken greedily from the left, and what is left over is an error.
-/

namespace T21

def Label.isName (s : String) : Bool :=
  !s.toList.isEmpty && s.toList.all Char.isUpper

/-- An operand as it is written. A name stays a name, since a jump may go to a label that is spelled
like a register. -/
inductive Operand where
  | name (s : String)
  | literal (value : Int)
  deriving DecidableEq, Repr

namespace Operand

def immediate? : Operand → Option Int8
  | name _ => none
  | literal v => if -128 ≤ v ∧ v ≤ 127 then some (Int8.ofInt v) else none

def register? : Operand → Option Register
  | name s => Register.ofName? s
  | literal _ => none

def text : Operand → String
  | name s => s
  | literal v => toString v

end Operand

structure Line where
  label : Option String := none
  mnemonic : Option Mnemonic := none
  first : Option Operand := none
  second : Option Operand := none
  target : Option String := none
  comment : Option String := none
  deriving DecidableEq, Repr

namespace Line

/-! ## Taking parts off a token list

Each of these takes its part off the front of the tokens, if it is there, and returns the rest. -/

def takeLabel : List Token → Except LineError (Option String × List Token)
  | .label name :: ts => if Label.isName name then .ok (some name, ts) else .error (.invalidLabel name)
  | ts => .ok (none, ts)

def takeRegister : List Token → Option Operand × List Token
  | .word w :: ts => if (Register.ofName? w).isSome then (some (.name w), ts) else (none, .word w :: ts)
  | ts => (none, ts)

def takeOperand : List Token → Option Operand × List Token
  | .num v :: ts => (some (.literal v), ts)
  | ts => takeRegister ts

def takeTarget : List Token → Option String × List Token
  | .word w :: ts => if Label.isName w then (some w, ts) else (none, .word w :: ts)
  | ts => (none, ts)

def takeComment : List Token → Option String × List Token
  | .comment text :: ts => (some text, ts)
  | ts => (none, ts)

def errorAfterComma : List Token → LineError
  | .num v :: _ => .misplacedLiteral v
  | t :: _ => .unexpected (t.text ++ " after `,`")
  | [] => .unexpected "end of line after `,`"

/-- The second operand. A comma may stand before it, and after a comma it must be there. -/
def takeSecond : List Token → Except LineError (Option Operand × List Token)
  | .comma :: ts =>
    match takeRegister ts with
    | (some r, rest) => .ok (some r, rest)
    | (none, rest) => .error (errorAfterComma rest)
  | ts => .ok (takeRegister ts)

/-- Both operands. Without a first there is no second. -/
def takeOperands (ts : List Token) :
    Except LineError (Option Operand × Option Operand × List Token) := do
  match takeOperand ts with
  | (some o, rest) =>
    let (r, rest) ← takeSecond rest
    return (some o, r, rest)
  | (none, rest) => return (none, none, rest)

def takeInstruction (l : Line) : List Token → Except LineError (Line × List Token)
  | .word w :: ts => do
    match Mnemonic.ofKeyword? w with
    | none => throw (.unknownMnemonic w)
    | some m =>
      let (o₁, o₂, rest) ← takeOperands ts
      let (t, rest) := takeTarget rest
      return ({ l with mnemonic := some m, first := o₁, second := o₂, target := t }, rest)
  | ts => return (l, ts)

def expectEnd : List Token → Except LineError Unit
  | [] => .ok ()
  | .label name :: _ => .error (.secondLabel name)
  | .num v :: _ => .error (.misplacedLiteral v)
  | t :: _ => .error (.unexpected t.text)

/-! ## Whole lines -/

def ofTokens (ts : List Token) : Except LineError Line := do
  let (label, ts) ← takeLabel ts
  let (line, ts) ← takeInstruction { label } ts
  let (comment, ts) := takeComment ts
  expectEnd ts
  return { line with comment }

/-- Reads a line that is already in upper case. -/
def parse (line : List Char) : Except LineError Line := do
  ofTokens (← Token.scan line)

/-- Reads a line as it stands in a source file: case and surrounding blanks do not matter. -/
def read (raw : String) : Except LineError Line :=
  parse (Text.upper (Text.trim raw.toList))

end Line

end T21
