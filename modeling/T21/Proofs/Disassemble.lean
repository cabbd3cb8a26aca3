import Mathlib.Data.List.Forall2
import T21.Proofs.Consistent

/-!
# Disassembly

The low nibble of the first byte of an instruction tells its form and so its size. Read in steps of that size,
finished code gives back the listing. What the code does not hold is the name of a target: a jump has an address in
its place, filled in or not.
-/

namespace T21

def Register.ofCode? (code : UInt8) : Option Register :=
  all.find? (·.code == code)

def Condition.all : List Condition := [always, zero, notZero, greater, less]

def Condition.ofCode? (code : UInt8) : Option Condition :=
  all.find? (·.code == code)

namespace Instruction

def nameless (i : Instruction) : Instruction :=
  i.rename fun _ => ""

def ofByte? (b : UInt8) : Option Instruction :=
  match b.toNat % 16 with
  | 0x0 => some nop
  | 0x1 => some swp
  | 0x2 => some sav
  | 0x3 => (Register.ofCode? (b / 16)).map fun r => add (.reg r)
  | 0x4 => (Register.ofCode? (b / 16)).map fun r => sub (.reg r)
  | 0x5 => some neg
  | 0x6 => (Register.ofCode? (b / 16)).map fun r => jro (.reg r)
  | 0x7 => some hlt
  | _ => none

def ofBytes? (b operand : UInt8) : Option Instruction :=
  match b.toNat % 16 with
  | 0x8 => (Register.ofCode? operand).bind fun r => (Register.ofCode? (b / 16)).map (mov (.reg r))
  | 0x9 => (Register.ofCode? (b / 16)).map (mov (.imm operand.toInt8))
  | 0xA => some (add (.imm operand.toInt8))
  | 0xB => some (sub (.imm operand.toInt8))
  | 0xC => (Condition.ofCode? (b / 16)).map (jump · "")
  | 0xD => some (jro (.imm operand.toInt8))
  | _ => none

end Instruction

/-- Reads code from the front, an instruction after the other. The first byte of each decides whether a second
one belongs to it. -/
def disassemble : Nat → List UInt8 → Option (List (Nat × Instruction))
  | _, [] => some []
  | offset, b :: rest =>
    if b.toNat % 16 < 8 then do
      let i ← Instruction.ofByte? b
      return (offset, i) :: (← disassemble (offset + 1) rest)
    else
      match rest with
      | [] => none
      | operand :: rest => do
        let i ← Instruction.ofBytes? b operand
        return (offset, i) :: (← disassemble (offset + 2) rest)

/-! ## Nibbles -/

theorem Register.ofCode?_code (r : Register) : ofCode? r.code = some r := by
  cases r with
  | acc => rfl
  | nil => rfl
  | port n => revert n; decide

theorem Condition.ofCode?_code (c : Condition) : ofCode? c.code = some c := by
  cases c <;> rfl

theorem Register.code_lt (r : Register) : r.code.toNat < 16 := by
  cases r with
  | acc => decide
  | nil => decide
  | port n => revert n; decide

theorem Condition.code_lt (c : Condition) : c.code.toNat < 16 := by
  cases c <;> decide

namespace Instruction

section
variable {high low : UInt8} (hh : high.toNat < 16) (hl : low.toNat < 16)
include hh hl

theorem toNat_nibbles : (nibbles high low).toNat = 16 * high.toNat + low.toNat := by
  simp only [nibbles, UInt8.toNat_add, UInt8.toNat_mul, UInt8.toNat_ofNat, Nat.reducePow, Nat.reduceMod]
  omega

theorem low_nibbles : (nibbles high low).toNat % 16 = low.toNat := by
  rw [toNat_nibbles hh hl]
  omega

theorem high_nibbles : nibbles high low / 16 = high := by
  apply UInt8.toNat_inj.mp
  simp only [UInt8.toNat_div, toNat_nibbles hh hl, UInt8.toNat_ofNat, Nat.reducePow, Nat.reduceMod]
  omega

end

/-! ## One instruction -/

/-- The first byte tells the size, and the bytes tell the instruction, whatever its target has become. -/
theorem linked_cases (t : LabelTable) (i : Instruction) :
    (∃ b, i.linked t = [b] ∧ i.size = 1 ∧ b.toNat % 16 < 8 ∧ ofByte? b = some i.nameless) ∨
    ∃ b operand, i.linked t = [b, operand] ∧ i.size = 2 ∧ ¬ b.toNat % 16 < 8 ∧
      ofBytes? b operand = some i.nameless := by
  cases i with
  | nop | swp | sav | neg | hlt => exact .inl ⟨_, rfl, rfl, by decide, rfl⟩
  | add src | sub src | jro src =>
    cases src with
    | imm v => exact .inr ⟨_, _, rfl, rfl, by decide, by simp [ofBytes?, nameless, rename]⟩
    | reg r =>
      refine .inl ⟨_, rfl, rfl, ?_, ?_⟩
      · rw [low_nibbles r.code_lt (by decide)]
        decide
      · simp [ofByte?, low_nibbles r.code_lt, high_nibbles r.code_lt, r.ofCode?_code, nameless, rename]
  | mov src d =>
    refine .inr ?_
    cases src with
    | imm v =>
      refine ⟨_, _, rfl, rfl, ?_, ?_⟩
      · rw [low_nibbles d.code_lt (by decide)]
        decide
      · simp [ofBytes?, low_nibbles d.code_lt, high_nibbles d.code_lt, d.ofCode?_code, nameless, rename]
    | reg r =>
      refine ⟨_, _, rfl, rfl, ?_, ?_⟩
      · rw [low_nibbles d.code_lt (by decide)]
        decide
      · simp [ofBytes?, low_nibbles d.code_lt, high_nibbles d.code_lt, d.ofCode?_code, r.ofCode?_code, nameless, rename]
  | jump c name =>
    refine .inr ⟨_, _, linked_jump t c name, rfl, ?_, ?_⟩
    · rw [low_nibbles c.code_lt (by decide)]
      decide
    · simp [ofBytes?, low_nibbles c.code_lt, high_nibbles c.code_lt, c.ofCode?_code, nameless, rename]

theorem nameless_eq_iff {i j : Instruction} :
    i.nameless = j.nameless ↔ i = j ∨ ∃ c s t, i = .jump c s ∧ j = .jump c t := by
  cases i <;> cases j
  case jump.jump c s d t =>
    constructor
    · intro h
      cases h
      exact .inr ⟨c, s, t, rfl, rfl⟩
    · rintro (h | ⟨e, s', t', h, h'⟩)
      · rw [h]
      · cases h
        cases h'
        rfl
  all_goals simp [nameless, rename]

end Instruction

/-! ## Code -/

theorem disassemble_linked (t : LabelTable) (i : Instruction) (offset : Nat) (rest : List UInt8) :
    disassemble offset (i.linked t ++ rest) =
      (disassemble (offset + i.size) rest).map ((offset, i.nameless) :: ·) := by
  obtain ⟨b, hb, size, hlow, hi⟩ | ⟨b, operand, hb, size, hlow, hi⟩ := i.linked_cases t
  · rw [hb, size, List.singleton_append, disassemble.eq_def]
    simp only [hlow, hi]
    cases disassemble (offset + 1) rest <;> rfl
  · rw [hb, size, List.cons_append, List.singleton_append, disassemble.eq_def]
    simp only [hlow, hi]
    cases disassemble (offset + 2) rest <;> rfl

theorem disassemble_tiles (t : LabelTable) : ∀ {lo hi : Nat} {es : List Entry}, Tiles lo es hi →
    disassemble lo (es.flatMap (·.instruction.linked t)) = some (es.map fun e => (e.offset, e.instruction.nameless))
  | _, _, [], _ => rfl
  | lo, hi, e :: es, ⟨he, hs⟩ => by
    rw [List.flatMap_cons, disassemble_linked, disassemble_tiles t hs, Option.map_some, List.map_cons, he]

namespace Assembler

theorem Consistent.disassemble_finish {s : Assembler} (h : s.Consistent) :
    disassemble 0 s.finish.assembly.code.toList =
      some (s.finish.assembly.listing.toList.map fun e => (e.offset, e.instruction.nameless)) := by
  rw [h.code_finish, listing_finish, disassemble_tiles s.labels h.tiles]

/-- **Code tells its listing.** Read from the front, an instruction after the other, finished code gives the offsets
and the instructions of its listing, all but the names of targets. So runs that end with the same code, whatever
their sources and steps, have listings that differ in these names at most. -/
theorem code_tells_listing :
    (∀ source steps,
      let a := (run source steps).finish.assembly
      disassemble 0 a.code.toList = some (a.listing.toList.map fun e => (e.offset, e.instruction.nameless))) ∧
    ∀ source source' steps steps',
      let a := (run source steps).finish.assembly
      let b := (run source' steps').finish.assembly
      a.code = b.code → List.Forall₂ (fun d e => d.offset = e.offset ∧ (d.instruction = e.instruction ∨
        ∃ c s t, d.instruction = .jump c s ∧ e.instruction = .jump c t)) a.listing.toList b.listing.toList := by
  have read : ∀ source steps, (run source steps).Consistent := consistent_run
  refine ⟨fun source steps => (read source steps).disassemble_finish, ?_⟩
  intro source source' steps steps' a b hcode
  have same : a.listing.toList.map (fun e => (e.offset, e.instruction.nameless)) =
      b.listing.toList.map fun e => (e.offset, e.instruction.nameless) := by
    apply Option.some.inj
    rw [← (read source steps).disassemble_finish, ← (read source' steps').disassemble_finish]
    exact congrArg (fun code => disassemble 0 code.toList) hcode
  rw [← List.forall₂_eq_eq_eq, List.forall₂_map_left_iff, List.forall₂_map_right_iff] at same
  apply same.imp
  intro d e hde
  obtain ⟨ho, hi⟩ := Prod.mk.inj hde
  exact ⟨ho, Instruction.nameless_eq_iff.mp hi⟩

/-- Two programs with one code, whose listings differ in the line and the target of the jump. -/
theorem code_tells_listing_renamed :
    let a := (run "a" [.raw 1 "JMP A", .raw 2 "A: HLT"]).finish.assembly
    let b := (run "b" [.raw 4 "start: jmp end # go", .raw 5 "end:", .raw 6 "hlt"]).finish.assembly
    a.code = b.code ∧ a.listing ≠ b.listing ∧
      List.Forall₂ (fun d e => d.offset = e.offset ∧ (d.instruction = e.instruction ∨
        ∃ c s t, d.instruction = .jump c s ∧ e.instruction = .jump c t)) a.listing.toList b.listing.toList := by
  intro a b
  have code : a.code = b.code := by decide +kernel
  exact ⟨code, by decide +kernel, code_tells_listing.2 _ _ _ _ code⟩

end Assembler

end T21
