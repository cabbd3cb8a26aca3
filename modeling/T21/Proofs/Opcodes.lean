import T21.Encoding
import T21.Proofs.Disassemble

/-!
# The opcode table

The bytes of every form of every mnemonic, as the table of the machine gives them, and what is wrong with a line
whose parts make none of the forms. The table is a relation between lines and what becomes of them; encoding is that
relation, read as a function.
-/

namespace T21

def Instruction.image (i : Instruction) : List Nat × Option String :=
  (i.bytes.map UInt8.toNat, i.target?)

def Line.encoded (l : Line) : Except Fault (Option (List Nat × Option String)) :=
  Option.map Instruction.image <$> l.encode

namespace Opcodes

/-! ## The table -/

def registers : List (String × Nat) :=
  [("ACC", 0x1), ("NIL", 0x2), ("PORT0", 0x8), ("PORT1", 0x9), ("PORT2", 0xA), ("PORT3", 0xB), ("PORT4", 0xC),
    ("PORT5", 0xD), ("PORT6", 0xE), ("PORT7", 0xF), ("LEFT", 0x8), ("UP", 0x9), ("RIGHT", 0xA), ("DOWN", 0xB)]

def plain : List (Mnemonic × Nat) :=
  [(.nop, 0x00), (.swp, 0x01), (.sav, 0x02), (.neg, 0x05), (.hlt, 0x07)]

/-- The mnemonics that read a source, with the byte before an immediate and the low nibble beside a register. -/
def sourced : List (Mnemonic × Nat × Nat) :=
  [(.add, 0x0A, 0x3), (.sub, 0x0B, 0x4), (.jro, 0x0D, 0x6)]

/-- The jumps to a label, with the high nibble of their condition. -/
def jumps : List (Mnemonic × Nat) :=
  [(.jmp, 0x0), (.jez, 0x1), (.jnz, 0x2), (.jgz, 0x3), (.jlz, 0x4)]

def IsImmediate (o : Option Operand) (v : Int) : Prop :=
  o = some (.literal v) ∧ -128 ≤ v ∧ v ≤ 127

def IsRegister (o : Option Operand) (code : Nat) : Prop :=
  ∃ w, o = some (.name w) ∧ (w, code) ∈ registers

def IsSource (o : Option Operand) : Prop :=
  (∃ v, IsImmediate o v) ∨ ∃ s, IsRegister o s

inductive Tabled (l : Line) : Except Fault (Option (List Nat × Option String)) → Prop
  | blank : l.mnemonic = none → Tabled l (.ok none)
  | plain {m : Mnemonic} {b : Nat} : l.mnemonic = some m → (m, b) ∈ plain → Tabled l (.ok (some ([b], none)))
  | immediate {m : Mnemonic} {a b : Nat} {v : Int} : l.mnemonic = some m → (m, a, b) ∈ sourced →
      IsImmediate l.first v → Tabled l (.ok (some ([a, (v % 256).toNat], none)))
  | register {m : Mnemonic} {a b s : Nat} : l.mnemonic = some m → (m, a, b) ∈ sourced →
      IsRegister l.first s → Tabled l (.ok (some ([16 * s + b], none)))
  | noSource {m : Mnemonic} {a b : Nat} : l.mnemonic = some m → (m, a, b) ∈ sourced →
      ¬ IsSource l.first → Tabled l (.error (.invalidOperand m))
  | moveImmediate {v : Int} {d : Nat} : l.mnemonic = some .mov → IsImmediate l.first v → IsRegister l.second d →
      Tabled l (.ok (some ([16 * d + 0x9, (v % 256).toNat], none)))
  | moveRegister {s d : Nat} : l.mnemonic = some .mov → IsRegister l.first s → IsRegister l.second d →
      Tabled l (.ok (some ([16 * d + 0x8, s], none)))
  | moveNothing : l.mnemonic = some .mov → ¬ IsSource l.first → Tabled l (.error (.invalidOperand .mov))
  | moveNowhere : l.mnemonic = some .mov → IsSource l.first → (∀ d, ¬ IsRegister l.second d) →
      Tabled l (.error (.missingDestination .mov))
  | jump {m : Mnemonic} {c : Nat} {t : String} : l.mnemonic = some m → (m, c) ∈ jumps → l.target = some t →
      Tabled l (.ok (some ([16 * c + 0xC, 0x00], some t)))
  | jumpFirst {m : Mnemonic} {c : Nat} {w : String} : l.mnemonic = some m → (m, c) ∈ jumps → l.target = none →
      l.first = some (.name w) → Label.isName w → Tabled l (.ok (some ([16 * c + 0xC, 0x00], some w)))
  | jumpName {m : Mnemonic} {c : Nat} {w : String} : l.mnemonic = some m → (m, c) ∈ jumps → l.target = none →
      l.first = some (.name w) → ¬ Label.isName w → Tabled l (.error (.invalidOperand m))
  | jumpLiteral {m : Mnemonic} {c : Nat} {v : Int} : l.mnemonic = some m → (m, c) ∈ jumps → l.target = none →
      l.first = some (.literal v) → Tabled l (.error (.literalTarget m v))
  | jumpNowhere {m : Mnemonic} {c : Nat} : l.mnemonic = some m → (m, c) ∈ jumps → l.target = none →
      l.first = none → Tabled l (.error (.missingTarget m))

/-! ## Operands -/

theorem mem_registers_iff {w : String} {s : Nat} :
    (w, s) ∈ registers ↔ ∃ r, Register.ofName? w = some r ∧ r.code.toNat = s := by
  constructor
  · intro h
    have listed : ∀ p ∈ registers, (Register.ofName? p.1).map (·.code.toNat) = some p.2 := by decide +kernel
    exact Option.map_eq_some_iff.mp (listed _ h)
  · rintro ⟨r, hr, rfl⟩
    obtain ⟨xs, ys, hxs, -⟩ := List.lookup_eq_some_iff.mp hr
    have listed : ∀ p ∈ Register.all.map (fun r => (r.name, r)) ++ Register.directions,
        (p.1, p.2.code.toNat) ∈ registers := by decide +kernel
    exact listed (w, r) (by rw [hxs]; simp)

theorem isRegister_iff {o : Option Operand} {s : Nat} :
    IsRegister o s ↔ ∃ r, o.bind Operand.register? = some r ∧ r.code.toNat = s := by
  rcases o with _ | w | v
  · simp [IsRegister]
  · simp [IsRegister, mem_registers_iff, Operand.register?]
  · simp [IsRegister, Operand.register?]

theorem toNat_ofInt (v : Int) : (Int8.ofInt v).toUInt8.toNat = (v % 256).toNat :=
  BitVec.toNat_ofInt v

theorem toInt8_eq {b : UInt8} {v : Int} (hb : b.toNat = (v % 256).toNat) (hv : -128 ≤ v ∧ v ≤ 127) :
    b.toInt8.toInt = v := by
  have hb : b = (Int8.ofInt v).toUInt8 := UInt8.toNat_inj.mp (hb.trans (toNat_ofInt v).symm)
  rw [hb, Int8.toInt8_toUInt8]
  exact Int8.toInt_ofInt_of_le (by omega) (by omega)

theorem source?_of_immediate {o : Option Operand} {v : Int} (h : IsImmediate o v) :
    o.bind Operand.source? = some (.imm (Int8.ofInt v)) := by
  obtain ⟨rfl, hv⟩ := h
  simp [Operand.source?, Operand.immediate?, hv]

theorem source?_of_register {o : Option Operand} {s : Nat} (h : IsRegister o s) :
    ∃ r : Register, o.bind Operand.source? = some (.reg r) ∧ r.code.toNat = s := by
  obtain ⟨w, rfl, hw⟩ := h
  obtain ⟨r, hr, hs⟩ := mem_registers_iff.mp hw
  exact ⟨r, by simp [Operand.source?, Operand.immediate?, Operand.register?, hr], hs⟩

theorem source?_eq_none {o : Option Operand} (h : ¬ IsSource o) : o.bind Operand.source? = none := by
  rcases o with _ | w | v
  · rfl
  · have hw : Register.ofName? w = none := by
      by_contra hne
      obtain ⟨r, hr⟩ := Option.ne_none_iff_exists'.mp hne
      exact h (.inr ⟨_, w, rfl, mem_registers_iff.mpr ⟨r, hr, rfl⟩⟩)
    simp [Operand.source?, Operand.immediate?, Operand.register?, hw]
  · have hv : ¬ (-128 ≤ v ∧ v ≤ 127) := fun hv => h (.inl ⟨v, rfl, hv⟩)
    simp [Operand.source?, Operand.immediate?, Operand.register?, hv]

/-! ## Mnemonics -/

theorem mnemonic_cases (m : Mnemonic) :
    (∃ b, (m, b) ∈ plain) ∨ (∃ a b, (m, a, b) ∈ sourced) ∨ m = .mov ∨ ∃ c, (m, c) ∈ jumps := by
  cases m <;> simp [plain, sourced, jumps]

section
variable (l : Line) {m : Mnemonic} {a b c : Nat}

theorem encodeAs_plain (h : (m, b) ∈ plain) : ∃ i, l.encodeAs m = .ok i ∧ i.image = ([b], none) := by
  simp only [plain, List.mem_cons, Prod.mk.injEq, List.not_mem_nil, or_false] at h
  obtain ⟨rfl, rfl⟩ | ⟨rfl, rfl⟩ | ⟨rfl, rfl⟩ | ⟨rfl, rfl⟩ | ⟨rfl, rfl⟩ := h <;> exact ⟨_, rfl, rfl⟩

theorem encodeAs_sourced (h : (m, a, b) ∈ sourced) :
    ∃ form : Source → Instruction, l.encodeAs m = form <$> l.readSource m ∧
      (∀ v : Int, (form (.imm (Int8.ofInt v))).image = ([a, (v % 256).toNat], none)) ∧
      ∀ r : Register, (form (.reg r)).image = ([16 * r.code.toNat + b], none) := by
  have imm : ∀ (v : Int) (x : UInt8), [x, (Int8.ofInt v).toUInt8].map UInt8.toNat = [x.toNat, (v % 256).toNat] := by
    intro v x
    rw [← toNat_ofInt]
    rfl
  have reg : ∀ (r : Register) (x : UInt8), x.toNat < 16 →
      [Instruction.nibbles r.code x].map UInt8.toNat = [16 * r.code.toNat + x.toNat] := by
    intro r x hx
    rw [← Instruction.toNat_nibbles r.code_lt hx]
    rfl
  simp only [sourced, List.mem_cons, Prod.mk.injEq, List.not_mem_nil, or_false] at h
  obtain ⟨rfl, rfl, rfl⟩ | ⟨rfl, rfl, rfl⟩ | ⟨rfl, rfl, rfl⟩ := h
  · exact ⟨.add, rfl, fun v => Prod.ext (imm v 0x0A) rfl, fun r => Prod.ext (reg r 0x3 (by decide)) rfl⟩
  · exact ⟨.sub, rfl, fun v => Prod.ext (imm v 0x0B) rfl, fun r => Prod.ext (reg r 0x4 (by decide)) rfl⟩
  · exact ⟨.jro, rfl, fun v => Prod.ext (imm v 0x0D) rfl, fun r => Prod.ext (reg r 0x6 (by decide)) rfl⟩

theorem encodeAs_jump (h : (m, c) ∈ jumps) :
    ∃ cond, l.encodeAs m = .jump cond <$> l.readTarget m ∧
      ∀ t, (Instruction.jump cond t).image = ([16 * c + 0xC, 0x00], some t) := by
  simp only [jumps, List.mem_cons, Prod.mk.injEq, List.not_mem_nil, or_false] at h
  obtain ⟨rfl, rfl⟩ | ⟨rfl, rfl⟩ | ⟨rfl, rfl⟩ | ⟨rfl, rfl⟩ | ⟨rfl, rfl⟩ := h <;> exact ⟨_, rfl, fun _ => rfl⟩

theorem image_move (r d : Register) (v : Int) :
    (Instruction.mov (.imm (Int8.ofInt v)) d).image = ([16 * d.code.toNat + 0x9, (v % 256).toNat], none) ∧
    (Instruction.mov (.reg r) d).image = ([16 * d.code.toNat + 0x8, r.code.toNat], none) := by
  have first : ∀ x : UInt8, x.toNat < 16 → (Instruction.nibbles d.code x).toNat = 16 * d.code.toNat + x.toNat :=
    fun x hx => Instruction.toNat_nibbles d.code_lt hx
  rw [← toNat_ofInt]
  refine ⟨Prod.ext ?_ rfl, Prod.ext ?_ rfl⟩
  · exact congrArg (· :: _) (first 0x9 (by decide))
  · exact congrArg (· :: _) (first 0x8 (by decide))

end

/-! ## Encoding follows the table -/

section
variable {l : Line} {m : Mnemonic}

theorem encoded_eq (hm : l.mnemonic = some m) : l.encoded = (fun i => some i.image) <$> l.encodeAs m := by
  simp only [Line.encoded, Line.encode, hm]
  cases l.encodeAs m <;> rfl

theorem readSource_eq_ok {s : Source} (h : l.first.bind Operand.source? = some s) : l.readSource m = .ok s := by
  simp [Line.readSource, h]

theorem readSource_eq_error (h : ¬ IsSource l.first) : l.readSource m = .error (.invalidOperand m) := by
  simp [Line.readSource, source?_eq_none h]

theorem readDestination_eq_ok {d : Nat} (h : IsRegister l.second d) :
    ∃ r, l.readDestination m = .ok r ∧ r.code.toNat = d := by
  obtain ⟨r, hr, hd⟩ := isRegister_iff.mp h
  exact ⟨r, by simp [Line.readDestination, hr], hd⟩

theorem readDestination_eq_error (h : ∀ d, ¬ IsRegister l.second d) :
    l.readDestination m = .error (.missingDestination m) := by
  cases hr : l.second.bind Operand.register? with
  | none => simp [Line.readDestination, hr]
  | some r => exact absurd (isRegister_iff.mpr ⟨r, hr, rfl⟩) (h _)

theorem encodeAs_move {s : Source} (h : l.first.bind Operand.source? = some s) :
    l.encodeAs .mov = .mov s <$> l.readDestination .mov := by
  simp only [Line.encodeAs, readSource_eq_ok h]
  cases l.readDestination .mov <;> rfl

theorem Tabled.eq {r : Except Fault (Option (List Nat × Option String))} (h : Tabled l r) : l.encoded = r := by
  cases h with
  | blank hm => simp [Line.encoded, Line.encode, hm]
  | plain hm hb =>
    obtain ⟨i, hi, image⟩ := encodeAs_plain l hb
    rw [encoded_eq hm, hi, ← image]
    rfl
  | immediate hm hab hv =>
    obtain ⟨form, hf, image, -⟩ := encodeAs_sourced l hab
    rw [encoded_eq hm, hf, readSource_eq_ok (source?_of_immediate hv), ← image]
    rfl
  | register hm hab hs =>
    obtain ⟨form, hf, -, image⟩ := encodeAs_sourced l hab
    obtain ⟨r, hr, rfl⟩ := source?_of_register hs
    rw [encoded_eq hm, hf, readSource_eq_ok hr, ← image]
    rfl
  | noSource hm hab hno =>
    obtain ⟨form, hf, -⟩ := encodeAs_sourced l hab
    rw [encoded_eq hm, hf, readSource_eq_error hno]
    rfl
  | moveImmediate hm hv hd =>
    obtain ⟨d, hd, rfl⟩ := readDestination_eq_ok hd
    rw [encoded_eq hm, encodeAs_move (source?_of_immediate hv), hd, ← (image_move d d _).1]
    rfl
  | moveRegister hm hs hd =>
    obtain ⟨r, hr, rfl⟩ := source?_of_register hs
    obtain ⟨d, hd, rfl⟩ := readDestination_eq_ok hd
    rw [encoded_eq hm, encodeAs_move hr, hd, ← (image_move r d 0).2]
    rfl
  | moveNothing hm hno =>
    rw [encoded_eq hm, Line.encodeAs, readSource_eq_error hno]
    rfl
  | moveNowhere hm hs hno =>
    obtain ⟨s, hs⟩ : ∃ s, l.first.bind Operand.source? = some s := by
      rcases hs with ⟨v, hv⟩ | ⟨s, hs⟩
      · exact ⟨_, source?_of_immediate hv⟩
      · obtain ⟨r, hr, -⟩ := source?_of_register hs
        exact ⟨_, hr⟩
    rw [encoded_eq hm, encodeAs_move hs, readDestination_eq_error hno]
    rfl
  | jump hm hc ht =>
    obtain ⟨cond, hj, image⟩ := encodeAs_jump l hc
    rw [encoded_eq hm, hj, Line.readTarget, ht, ← image]
    rfl
  | jumpFirst hm hc ht hw hn =>
    obtain ⟨cond, hj, image⟩ := encodeAs_jump l hc
    rw [encoded_eq hm, hj, Line.readTarget, ht, hw, ← image]
    simp only [hn, ite_true]
    rfl
  | jumpName hm hc ht hw hn =>
    obtain ⟨cond, hj, -⟩ := encodeAs_jump l hc
    rw [encoded_eq hm, hj, Line.readTarget, ht, hw]
    simp only [hn]
    rfl
  | jumpLiteral hm hc ht hv =>
    obtain ⟨cond, hj, -⟩ := encodeAs_jump l hc
    rw [encoded_eq hm, hj, Line.readTarget, ht, hv]
    rfl
  | jumpNowhere hm hc ht hno =>
    obtain ⟨cond, hj, -⟩ := encodeAs_jump l hc
    rw [encoded_eq hm, hj, Line.readTarget, ht, hno]
    rfl

end

theorem exists_tabled (l : Line) : ∃ r, Tabled l r := by
  cases hm : l.mnemonic with
  | none => exact ⟨_, .blank hm⟩
  | some m =>
    rcases mnemonic_cases m with ⟨b, hb⟩ | ⟨a, b, hab⟩ | rfl | ⟨c, hc⟩
    · exact ⟨_, .plain hm hb⟩
    · by_cases hs : IsSource l.first
      · rcases hs with ⟨v, hv⟩ | ⟨s, hs⟩
        · exact ⟨_, .immediate hm hab hv⟩
        · exact ⟨_, .register hm hab hs⟩
      · exact ⟨_, .noSource hm hab hs⟩
    · by_cases hs : IsSource l.first
      · by_cases hd : ∃ d, IsRegister l.second d
        · obtain ⟨d, hd⟩ := hd
          rcases hs with ⟨v, hv⟩ | ⟨s, hs⟩
          · exact ⟨_, .moveImmediate hm hv hd⟩
          · exact ⟨_, .moveRegister hm hs hd⟩
        · exact ⟨_, .moveNowhere hm hs (not_exists.mp hd)⟩
      · exact ⟨_, .moveNothing hm hs⟩
    · cases ht : l.target with
      | some t => exact ⟨_, .jump hm hc ht⟩
      | none =>
        rcases hf : l.first with _ | w | v
        · exact ⟨_, .jumpNowhere hm hc ht hf⟩
        · by_cases hn : Label.isName w
          · exact ⟨_, .jumpFirst hm hc ht hf hn⟩
          · exact ⟨_, .jumpName hm hc ht hf hn⟩
        · exact ⟨_, .jumpLiteral hm hc ht hf⟩

theorem tabled_iff (l : Line) (r : Except Fault (Option (List Nat × Option String))) :
    Tabled l r ↔ l.encoded = r := by
  constructor
  · exact Tabled.eq
  · intro h
    obtain ⟨r', hr'⟩ := exists_tabled l
    rw [← h, hr'.eq]
    exact hr'

theorem literal_byte {l : Line} {i : Instruction} {v : Int} {b : UInt8} (h : l.encode = .ok (some i))
    (hv : l.first = some (.literal v)) (ht : i.target? = none) (hb : i.bytes[1]? = some b) : b.toInt8.toInt = v := by
  have encoded : l.encoded = .ok (some i.image) := by rw [Line.encoded, h]; rfl
  have hb : i.image.1[1]? = some b.toNat := by simp [Instruction.image, hb]
  have ht : i.image.2 = none := ht
  have written : ∀ {w : Int}, IsImmediate l.first w → some (w % 256).toNat = some b.toNat → b.toInt8.toInt = v := by
    rintro w ⟨hw, range⟩ hb
    rw [hv] at hw
    cases hw
    exact toInt8_eq (Option.some.inj hb).symm range
  generalize i.image = image at encoded hb ht
  cases (tabled_iff l _).mpr encoded with
  | plain => cases hb
  | register => cases hb
  | immediate hm hab hw => exact written hw hb
  | moveImmediate hm hw => exact written hw hb
  | moveRegister hm hs =>
    obtain ⟨w, hw, -⟩ := hs
    rw [hv] at hw
    cases hw
  | jump => cases ht
  | jumpFirst => cases ht

end Opcodes

/-- **Encoding is the opcode table.** A line is encoded to the bytes of its row of the table, or fails with the fault
of its row, and to nothing else. The size of an instruction is the number of its bytes, and the byte of an immediate,
read as a signed number, is the literal. -/
theorem encode_follows_table (l : Line) :
    (∀ r, Opcodes.Tabled l r ↔ Option.map Instruction.image <$> l.encode = r) ∧
    ∀ i, l.encode = .ok (some i) → i.size = i.bytes.length ∧
      ∀ v b, l.first = some (.literal v) → i.target? = none → i.bytes[1]? = some b → b.toInt8.toInt = v := by
  refine ⟨Opcodes.tabled_iff l, fun i h => ⟨i.length_bytes.symm, ?_⟩⟩
  intro v b hv ht hb
  exact Opcodes.literal_byte h hv ht hb

end T21
