import T21.Line

/-!
# Encoding

The instruction that the parts of a line select. A mnemonic with a literal operand has an immediate form
and with a register a register form. Parts that the form does not read are surplus.
-/

namespace T21

def Operand.source? (o : Operand) : Option Source :=
  (o.immediate?.map .imm).or (o.register?.map .reg)

namespace Line

def readSource (l : Line) (m : Mnemonic) : Except Fault Source :=
  match l.first.bind Operand.source? with
  | some s => .ok s
  | none => .error (.invalidOperand m)

def readDestination (l : Line) (m : Mnemonic) : Except Fault Register :=
  match l.second.bind Operand.register? with
  | some r => .ok r
  | none => .error (.missingDestination m)

/-- The trailing name is the target of a jump; without one, a first operand that can be a label name is. -/
def readTarget (l : Line) (m : Mnemonic) : Except Fault String :=
  match l.target, l.first with
  | some t, _ => .ok t
  | none, some (.name s) => if Label.isName s then .ok s else .error (.invalidOperand m)
  | none, some (.literal v) => .error (.literalTarget m v)
  | none, none => .error (.missingTarget m)

def encodeAs (l : Line) (m : Mnemonic) : Except Fault Instruction :=
  match m with
  | .nop => .ok .nop
  | .swp => .ok .swp
  | .sav => .ok .sav
  | .neg => .ok .neg
  | .hlt => .ok .hlt
  | .add => .add <$> l.readSource m
  | .sub => .sub <$> l.readSource m
  | .jro => .jro <$> l.readSource m
  | .mov => do
    let src ← l.readSource m
    let dst ← l.readDestination m
    return .mov src dst
  | .jmp | .jez | .jnz | .jgz | .jlz =>
    match m.condition? with
    | some c => .jump c <$> l.readTarget m
    | none => .error (.invalidOperand m)

def encode (l : Line) : Except Fault (Option Instruction) :=
  match l.mnemonic with
  | none => .ok none
  | some m => some <$> l.encodeAs m

end Line

/-! ## Surplus parts -/

inductive Place where
  | first
  | second
  | target
  deriving DecidableEq, Repr

def Place.all : List Place := [.first, .second, .target]

namespace Line

def part? (l : Line) : Place → Option String
  | .first => l.first.map Operand.text
  | .second => l.second.map Operand.text
  | .target => l.target

def reads (l : Line) : Instruction → Place → Bool
  | .add _, .first | .sub _, .first | .jro _, .first | .mov _ _, .first | .mov _ _, .second => true
  | .jump _ _, .first => l.target.isNone
  | .jump _ _, .target => true
  | _, _ => false

def surplus (l : Line) (i : Instruction) : List Place :=
  Place.all.filter fun p => (l.part? p).isSome && !l.reads i p

end Line

end T21
