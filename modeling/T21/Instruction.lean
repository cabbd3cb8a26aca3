/-!
# Instructions

Registers, mnemonics and what they make up. An instruction takes one or two bytes. The low nibble of the first byte is
the opcode; the high nibble holds a register or a condition where the form has one. The second byte is an immediate, a
source register or the target of a jump.
-/

namespace T21

/-! ## Registers

The locations an operand can name: the accumulator, the null sink and eight ports. -/

inductive Register where
  | acc
  | nil
  | port (n : Fin 8)
  deriving DecidableEq, Repr

namespace Register

def code : Register → UInt8
  | acc => 1
  | nil => 2
  | port n => 8 + UInt8.ofNat n

def name : Register → String
  | acc => "ACC"
  | nil => "NIL"
  | port 0 => "PORT0"
  | port 1 => "PORT1"
  | port 2 => "PORT2"
  | port 3 => "PORT3"
  | port 4 => "PORT4"
  | port 5 => "PORT5"
  | port 6 => "PORT6"
  | port 7 => "PORT7"

def all : List Register :=
  [acc, nil, port 0, port 1, port 2, port 3, port 4, port 5, port 6, port 7]

def directions : List (String × Register) :=
  [("LEFT", port 0), ("UP", port 1), ("RIGHT", port 2), ("DOWN", port 3)]

def ofName? (s : String) : Option Register :=
  (all.map (fun r => (r.name, r)) ++ directions).lookup s

end Register

/-! ## Mnemonics

The fourteen keywords of the instruction set, and the conditions under which the five labelled jumps are taken. -/

inductive Condition where
  | always
  | zero
  | notZero
  | greater
  | less
  deriving DecidableEq, Repr

inductive Mnemonic where
  | nop | hlt | mov | swp | sav | add | sub | neg | jmp | jez | jnz | jgz | jlz | jro
  deriving DecidableEq, Repr

namespace Mnemonic

def keyword : Mnemonic → String
  | nop => "NOP"
  | hlt => "HLT"
  | mov => "MOV"
  | swp => "SWP"
  | sav => "SAV"
  | add => "ADD"
  | sub => "SUB"
  | neg => "NEG"
  | jmp => "JMP"
  | jez => "JEZ"
  | jnz => "JNZ"
  | jgz => "JGZ"
  | jlz => "JLZ"
  | jro => "JRO"

def all : List Mnemonic :=
  [nop, hlt, mov, swp, sav, add, sub, neg, jmp, jez, jnz, jgz, jlz, jro]

def ofKeyword? (s : String) : Option Mnemonic :=
  all.find? (·.keyword == s)

def condition? : Mnemonic → Option Condition
  | jmp => some .always
  | jez => some .zero
  | jnz => some .notZero
  | jgz => some .greater
  | jlz => some .less
  | _ => none

end Mnemonic

namespace Condition

def code : Condition → UInt8
  | always => 0
  | zero => 1
  | notZero => 2
  | greater => 3
  | less => 4

def mnemonic : Condition → Mnemonic
  | always => .jmp
  | zero => .jez
  | notZero => .jnz
  | greater => .jgz
  | less => .jlz

end Condition

/-! ## Instructions -/

inductive Source where
  | imm (value : Int8)
  | reg (r : Register)
  deriving DecidableEq, Repr

def Source.text : Source → String
  | imm v => toString v.toInt
  | reg r => r.name

inductive Instruction where
  | nop
  | swp
  | sav
  | neg
  | hlt
  | add (src : Source)
  | sub (src : Source)
  | jro (src : Source)
  | mov (src : Source) (dst : Register)
  | jump (cond : Condition) (target : String)
  deriving DecidableEq, Repr

namespace Instruction

def text : Instruction → String
  | nop => "NOP"
  | swp => "SWP"
  | sav => "SAV"
  | neg => "NEG"
  | hlt => "HLT"
  | add s => "ADD " ++ s.text
  | sub s => "SUB " ++ s.text
  | jro s => "JRO " ++ s.text
  | mov s d => "MOV " ++ s.text ++ ", " ++ d.name
  | jump c t => c.mnemonic.keyword ++ " " ++ t

/-- A byte of two nibbles, both below sixteen. -/
def nibbles (high low : UInt8) : UInt8 :=
  16 * high + low

/-- The machine bytes. A jump has zero in place of its target until the target's address is known. -/
def bytes : Instruction → List UInt8
  | nop => [0x00]
  | swp => [0x01]
  | sav => [0x02]
  | neg => [0x05]
  | hlt => [0x07]
  | add (.reg r) => [nibbles r.code 0x3]
  | sub (.reg r) => [nibbles r.code 0x4]
  | jro (.reg r) => [nibbles r.code 0x6]
  | mov (.reg r) d => [nibbles d.code 0x8, r.code]
  | mov (.imm v) d => [nibbles d.code 0x9, v.toUInt8]
  | add (.imm v) => [0x0A, v.toUInt8]
  | sub (.imm v) => [0x0B, v.toUInt8]
  | jump c _ => [nibbles c.code 0xC, 0x00]
  | jro (.imm v) => [0x0D, v.toUInt8]

def size : Instruction → Nat
  | nop | swp | sav | neg | hlt | add (.reg _) | sub (.reg _) | jro (.reg _) => 1
  | _ => 2

def target? : Instruction → Option String
  | jump _ t => some t
  | _ => none

theorem length_bytes (i : Instruction) : i.bytes.length = i.size := by
  rcases i with _ | _ | _ | _ | _ | (_ | _) | (_ | _) | (_ | _) | ⟨_ | _, _⟩ | _ <;> rfl

end Instruction

end T21
