import T21.Encoding
import T21.Event
import T21.Proofs.Grammar
import T21.Proofs.Reading

/-!
# Lines as they are written

A name with a colon is read as the declaration of the name. The text of an instruction is read as one line, which
encodes to the instruction and has nothing surplus in it, whatever names registers and targets have in common.
-/

namespace T21

open Text

/-! ## Characters -/

def isRunChar (c : Char) : Bool :=
  c.isUpper || c.isDigit || c == '-'

def isWritten (c : Char) : Bool :=
  isRunChar c || c == ' ' || c == ',' || c == ':'

theorem isUpper_iff_toNat {c : Char} : c.isUpper ↔ 0x41 ≤ c.toNat ∧ c.toNat ≤ 0x5A := by
  have letter : (c.val ≥ 'A'.val ∧ c.val ≤ 'Z'.val) ↔ 0x41 ≤ c.toNat ∧ c.toNat ≤ 0x5A := Iff.rfl
  exact decide_eq_true_iff.trans letter

theorem toNat_of_isRunChar {c : Char} (h : isRunChar c) :
    (0x41 ≤ c.toNat ∧ c.toNat ≤ 0x5A) ∨ (0x30 ≤ c.toNat ∧ c.toNat ≤ 0x39) ∨ c.toNat = 0x2D := by
  simpa [isRunChar, isUpper_iff_toNat, Char.isDigit_iff_toNat, ← Char.toNat_inj, or_assoc] using h

theorem isWordChar_of_isRunChar {c : Char} (h : isRunChar c) : Token.isWordChar c := by
  have hn := toNat_of_isRunChar h
  simp [Token.isWordChar, isBlank, blankRanges, ← Char.toNat_inj]
  omega

theorem ne_of_isWritten {c : Char} (h : isWritten c) : c ≠ '#' ∧ c ≠ '\n' ∧ c ≠ '\r' := by
  refine ⟨?_, ?_, ?_⟩ <;> intro e <;> subst e <;> revert h <;> decide

theorem toUpper_of_isWritten {c : Char} (h : isWritten c) : c.toUpper = c := by
  simp only [isWritten, Bool.or_eq_true, beq_iff_eq] at h
  rcases h with ((h | rfl) | rfl) | rfl
  · have := toNat_of_isRunChar h
    rw [← Char.toNat_inj, toNat_toUpper, if_neg (by omega)]
  · rfl
  · rfl
  · rfl

/-! ## Runs -/

namespace Token

structure Writes (cs : List Char) (ts : List Token) : Prop where
  chars : ∀ c ∈ cs, isWritten c
  scan : scanFrom [] cs = .ok ts

/-- The run, with nothing but separators around it, is the token. -/
structure IsRun (w : List Char) (t : Token) : Prop where
  chars : ∀ c ∈ w, isRunChar c
  close : close w = [t]

namespace IsRun
variable {w cs : List Char} {t : Token} {ts : List Token}

theorem scanFrom_append (h : IsRun w t) (cs : List Char) : scanFrom [] (w ++ cs) = scanFrom w cs :=
  scanFrom_word (fun c hc => isWordChar_of_isRunChar (h.chars c hc)) [] cs

theorem isWritten_append (h : IsRun w t) (hcs : ∀ c ∈ cs, isWritten c) : ∀ c ∈ w ++ cs, isWritten c := by
  intro c hc
  rcases List.mem_append.mp hc with hc | hc
  · simp [isWritten, h.chars c hc]
  · exact hcs c hc

theorem alone (h : IsRun w t) : Writes w [t] := by
  have hcs : ∀ c ∈ w ++ [], isWritten c := h.isWritten_append nofun
  have hscan := h.scanFrom_append []
  rw [List.append_nil] at hcs hscan
  exact ⟨hcs, by rw [hscan, scanFrom, h.close]⟩

theorem blank (h : IsRun w t) (hcs : Writes cs ts) : Writes (w ++ ' ' :: cs) (t :: ts) := by
  constructor
  · apply h.isWritten_append
    simpa [isWritten] using hcs.chars
  · rw [h.scanFrom_append, scanFrom_blank _ _ (by decide), hcs.scan, h.close]
    rfl

theorem comma (h : IsRun w t) (hcs : Writes cs ts) : Writes (w ++ ',' :: ' ' :: cs) (t :: .comma :: ts) := by
  constructor
  · apply h.isWritten_append
    simpa [isWritten] using hcs.chars
  · rw [h.scanFrom_append, scanFrom_comma, scanFrom_start _ (by decide), hcs.scan, h.close]
    rfl

theorem colon (h : IsRun w t) : Writes (w ++ [':']) [.label (String.ofList w)] := by
  constructor
  · apply h.isWritten_append
    simp [isWritten]
  · have hne : w ≠ [] := by
      rintro rfl
      cases h.close
    rw [h.scanFrom_append, scanFrom_colon, if_neg hne, scanFrom]
    rfl

end IsRun

theorem isRun_of_all {w : List Char} {t : Token} (h : w.all isRunChar) (hc : close w = [t]) : IsRun w t :=
  ⟨List.all_eq_true.mp h, hc⟩

theorem isRun_keyword (m : Mnemonic) : IsRun m.keyword.toList (.word m.keyword) := by
  cases m <;> exact isRun_of_all (by decide) (by decide)

theorem isRun_register (r : Register) : IsRun r.name.toList (.word r.name) := by
  have port : ∀ n : Fin 8, (Register.port n).name.toList.all isRunChar ∧
      Token.close (Register.port n).name.toList = [.word (Register.port n).name] := by decide
  cases r with
  | acc => exact isRun_of_all (by decide) (by decide)
  | nil => exact isRun_of_all (by decide) (by decide)
  | port n => exact isRun_of_all (port n).1 (port n).2

theorem isRun_name {name : String} (h : Label.isName name) : IsRun name.toList (.word name) := by
  simp only [Label.isName, Bool.and_eq_true, Bool.not_eq_true', List.isEmpty_eq_false_iff, List.all_eq_true] at h
  obtain ⟨hne, hup⟩ := h
  refine ⟨fun c hc => by simp [isRunChar, hup c hc], ?_⟩
  obtain ⟨c, cs, hcs⟩ := List.exists_cons_of_ne_nil hne
  have hc : c.isUpper := hup c (by simp [hcs])
  -- a word that begins with a letter is no number
  have number : number? (c :: cs) = none := by
    have hn := isUpper_iff_toNat.mp hc
    have hdigit : c.isDigit = false := by
      simp [← Bool.not_eq_true, Char.isDigit_iff_toNat]
      omega
    have hminus : c ≠ '-' := by
      simp [← Char.toNat_inj]
      omega
    simp [number?, natural?, hminus, hdigit]
  rw [hcs, close, ofRun, number, ← hcs, String.ofList_toList]

theorem natural?_toDigits {n : Nat} (h : n < 1000) : natural? (Nat.toDigits 10 n) = some n := by
  have hlen : (Nat.toDigits 10 n).length ≤ 3 := (Nat.length_toDigits_le_iff (by decide) (by decide)).mpr h
  have hdigit : ∀ c ∈ Nat.toDigits 10 n, c.isDigit :=
    fun c hc => Nat.isDigit_of_mem_toDigits (by decide) (by decide) hc
  have hvalue : digitsValue (Nat.toDigits 10 n) = n := Nat.ofDigitChars_ten_toDigits
  rw [natural?, if_pos ⟨Nat.toDigits_ne_nil, hlen, List.all_eq_true.mpr hdigit⟩, hvalue]

theorem isRun_number {v : Int} (h : -1000 < v ∧ v < 1000) : IsRun (toString v).toList (.num v) := by
  have hdigit : ∀ {n : Nat} {c : Char}, c ∈ Nat.toDigits 10 n → c.isDigit :=
    fun hc => Nat.isDigit_of_mem_toDigits (by decide) (by decide) hc
  have hclose : ∀ w, number? w = some v → Token.close w = [.num v] := by
    intro w hw
    cases w with
    | nil => cases hw
    | cons c w => simp [Token.close, ofRun, hw]
  rw [Int.toString_eq_repr, Int.repr_eq_if]
  split
  · rw [Nat.toList_repr]
    refine ⟨fun c hc => by simp [isRunChar, hdigit hc], hclose _ ?_⟩
    have hminus : (Nat.toDigits 10 v.toNat).head? ≠ some '-' := by
      intro e
      have := hdigit (List.mem_of_head? e)
      revert this
      decide
    rw [number?, if_neg hminus, natural?_toDigits (by omega)]
    simp
    omega
  · have htext : ("-" ++ (-v).toNat.repr).toList = '-' :: Nat.toDigits 10 (-v).toNat := by
      rw [String.toList_append, Nat.toList_repr]
      rfl
    rw [htext]
    refine ⟨?_, hclose _ ?_⟩
    · intro c hc
      rcases List.mem_cons.mp hc with rfl | hc
      · decide
      · simp [isRunChar, hdigit hc]
    · rw [number?, List.head?_cons, if_pos rfl, List.tail_cons, natural?_toDigits (by omega)]
      simp
      omega

end Token

/-! ## Reading what is written -/

theorem Line.tokens_of_read {raw : String} {l : Line} (h : Line.read raw = .ok l) :
    ∃ ts, Line.tokens raw = .ok ts ∧ Line.ofTokens ts = .ok l.mute := by
  have hm := Line.mute_read raw
  rw [h] at hm
  exact bind_eq_ok.mp hm.symm

theorem Line.read_of_tokens {raw : String} {ts : List Token} {l : Line} (h : Line.tokens raw = .ok ts)
    (hl : Line.ofTokens ts = .ok l) : ∃ l', Line.read raw = .ok l' ∧ l'.mute = l := by
  have hm := Line.mute_read raw
  rw [h] at hm
  exact map_eq_ok.mp (hm.trans hl)

theorem Token.Writes.tokens {raw : String} {ts : List Token} (h : Writes raw.toList ts) :
    Line.tokens raw = .ok ts := by
  have hash : '#' ∉ raw.toList := fun hmem => (ne_of_isWritten (h.chars _ hmem)).1 rfl
  have hcode : Line.code raw = raw.toList := by
    rw [Line.code, List.takeWhile_eq_self_iff.mpr fun c hc => by simpa using (ne_of_isWritten (h.chars c hc)).1]
    exact upper_eq_self fun c hc => toUpper_of_isWritten (h.chars c hc)
  rw [Line.tokens, hcode, if_neg hash, h.scan]
  simp

theorem Token.Writes.read {raw : String} {ts : List Token} {l : Line} (h : Writes raw.toList ts)
    (hd : Line.Derives ts l) (hs : l.Settled) (hc : l.comment = none) : Line.read raw = .ok l := by
  obtain ⟨l', hl', hm⟩ := Line.read_of_tokens h.tokens (Line.ofTokens_of_settled hd hs)
  subst hm
  have hcomment : l'.comment = none := by simpa [Line.mute] using hc
  rw [hl', Line.mute, hcomment, Option.map_none, ← hcomment]

/-! ## Labels -/

theorem writes_label {name : String} (h : Label.isName name) :
    Token.Writes (name ++ ":").toList [.label name] := by
  have := (Token.isRun_name h).colon
  rwa [String.ofList_toList, ← show (name ++ ":").toList = name.toList ++ [':'] from String.toList_append] at this

theorem read_label {name : String} (h : Label.isName name) :
    Line.read (name ++ ":") = .ok { label := some name } := by
  refine (writes_label h).read ⟨?_, [], .blank, rfl⟩ ?_ rfl
  · intro n hn
    cases hn
    exact h
  · intro w hw
    cases hw

/-! ## Instructions -/

def Source.operand : Source → Operand
  | imm v => .literal v.toInt
  | reg r => .name r.name

/-- The parts of the text of an instruction. A target that is spelled like a register stands first. -/
def Instruction.line : Instruction → Line
  | nop => { mnemonic := some .nop }
  | swp => { mnemonic := some .swp }
  | sav => { mnemonic := some .sav }
  | neg => { mnemonic := some .neg }
  | hlt => { mnemonic := some .hlt }
  | add s => { mnemonic := some .add, first := some s.operand }
  | sub s => { mnemonic := some .sub, first := some s.operand }
  | jro s => { mnemonic := some .jro, first := some s.operand }
  | mov s d => { mnemonic := some .mov, first := some s.operand, second := some (.name d.name) }
  | jump c t =>
    if (Register.ofName? t).isSome then { mnemonic := some c.mnemonic, first := some (.name t) }
    else { mnemonic := some c.mnemonic, target := some t }

theorem Register.ofName?_name (r : Register) : Register.ofName? r.name = some r := by
  have port : ∀ n : Fin 8, Register.ofName? (Register.port n).name = some (.port n) := by decide +kernel
  cases r with
  | acc => decide +kernel
  | nil => decide +kernel
  | port n => exact port n

theorem Source.source?_operand (s : Source) : s.operand.source? = some s := by
  cases s with
  | imm v =>
    have hv : -128 ≤ v.toInt ∧ v.toInt ≤ 127 := ⟨v.le_toInt, Int.le_of_lt_add_one v.toInt_lt⟩
    simp [Source.operand, Operand.source?, Operand.immediate?, hv]
  | reg r => simp [Source.operand, Operand.source?, Operand.immediate?, Operand.register?, Register.ofName?_name]

theorem Source.isOperand_operand (s : Source) : s.operand.token.isOperand := by
  cases s with
  | imm v => rfl
  | reg r => simp [Source.operand, Operand.token, Token.isOperand, Token.isRegister, Register.ofName?_name]

theorem isRun_source (s : Source) : Token.IsRun s.text.toList s.operand.token := by
  cases s with
  | imm v =>
    have := v.le_toInt
    have := v.toInt_lt
    exact Token.isRun_number (by omega)
  | reg r => exact Token.isRun_register r

namespace Instruction

def Named (i : Instruction) : Prop :=
  ∀ name, i.target? = some name → Label.isName name

theorem settled_line (i : Instruction) : i.line.Settled := by
  cases i with
  | jump c t =>
    simp only [line]
    split
    · exact nofun
    · rename_i hno
      intro w hw hr
      cases hw
      exact absurd hr hno
  | _ => exact nofun

theorem writes_text {i : Instruction} (h : i.Named) :
    ∃ ts, Token.Writes i.text.toList ts ∧ Line.Derives ts i.line := by
  have absent : ∀ w : String, none = some w → Label.isName w := by
    intro w hw
    cases hw
  have mnemonic : ∀ m : Mnemonic,
      ∃ ts, Token.Writes m.keyword.toList ts ∧ Line.Derives ts { mnemonic := some m } :=
    fun m => ⟨_, (Token.isRun_keyword m).alone, absent, _, .instruction .none absent, rfl⟩
  have source : ∀ (m : Mnemonic) (s : Source), ∃ ts, Token.Writes (m.keyword ++ " " ++ s.text).toList ts ∧
      Line.Derives ts { mnemonic := some m, first := some s.operand } := by
    intro m s
    refine ⟨_, ?_, absent, _, .instruction (.first s.isOperand_operand) absent, rfl⟩
    simpa using (Token.isRun_keyword m).blank (isRun_source s).alone
  cases i with
  | nop => exact mnemonic .nop
  | swp => exact mnemonic .swp
  | sav => exact mnemonic .sav
  | neg => exact mnemonic .neg
  | hlt => exact mnemonic .hlt
  | add s => exact source .add s
  | sub s => exact source .sub s
  | jro s => exact source .jro s
  | mov s d =>
    have hd : (Token.word d.name).isRegister := by simp [Token.isRegister, Register.ofName?_name]
    have hw : Token.Writes (mov s d).text.toList [.word "MOV", s.operand.token, .comma, .word d.name] := by
      have := (Token.isRun_keyword .mov).blank ((isRun_source s).comma (Token.isRun_register d).alone)
      simpa [text, Mnemonic.keyword] using this
    exact ⟨_, hw, absent, _, .instruction (.comma s.isOperand_operand hd) absent, rfl⟩
  | jump c t =>
    have ht : Label.isName t := h t rfl
    have hw : Token.Writes (jump c t).text.toList [.word c.mnemonic.keyword, .word t] := by
      simpa [text] using (Token.isRun_keyword c.mnemonic).blank (Token.isRun_name ht).alone
    refine ⟨_, hw, ?_⟩
    simp only [line]
    split
    · rename_i hr
      exact ⟨absent, _, .instruction (.first hr) absent, rfl⟩
    · refine ⟨absent, _, .instruction .none ?_, rfl⟩
      intro w hw
      cases hw
      exact ht

theorem read_text {i : Instruction} (h : i.Named) : Line.read i.text = .ok i.line := by
  obtain ⟨ts, hw, hd⟩ := writes_text h
  refine hw.read hd i.settled_line ?_
  cases i with
  | jump c t => simp only [line]; split <;> rfl
  | _ => rfl

theorem encode_line {i : Instruction} (h : i.Named) : i.line.encode = .ok (some i) := by
  have hsource : ∀ (m : Mnemonic) (s : Source) (o : Option Operand),
      Line.readSource { mnemonic := some m, first := some s.operand, second := o } m = .ok s := by
    intro m s o
    simp [Line.readSource, s.source?_operand]
  cases i with
  | nop | swp | sav | neg | hlt => rfl
  | add s | sub s | jro s =>
    simp only [line, Line.encode, Line.encodeAs, hsource]
    rfl
  | mov s d =>
    simp only [line, Line.encode, Line.encodeAs, hsource]
    simp [Line.readDestination, Operand.register?, Register.ofName?_name, pure_eq_ok]
  | jump c t =>
    have ht : Label.isName t := h t rfl
    have htarget : ∀ m, (jump c t).line.readTarget m = .ok t := by
      intro m
      simp only [line]
      split <;> simp [Line.readTarget, ht]
    have hm : (jump c t).line.mnemonic = some c.mnemonic := by
      simp only [line]
      split <;> rfl
    simp only [Line.encode, hm]
    cases c <;> simp only [Condition.mnemonic, Line.encodeAs, htarget] <;> rfl

theorem warnings_line {i : Instruction} (h : i.Named) : i.line.warnings = [] := by
  have hsurplus : i.line.surplus i = [] := by
    cases i with
    | jump c t =>
      simp only [line]
      split <;> rfl
    | _ => rfl
  unfold Line.warnings
  rw [encode_line h]
  split
  · rename_i hi
    cases hi
    rw [hsurplus]
    rfl
  · rfl

theorem label_line (i : Instruction) : i.line.label = none := by
  cases i with
  | jump c t => simp only [line]; split <;> rfl
  | _ => rfl

end Instruction

/-! ## Names are read -/

theorem Line.isName_of_read {raw name : String} {l : Line} (h : Line.read raw = .ok l)
    (hl : l.label = some name) : Label.isName name := by
  obtain ⟨ts, -, hm⟩ := Line.tokens_of_read h
  exact (Line.derives_of_ofTokens hm).label name hl

theorem Line.Derives.target {ts : List Token} {l : Line} (h : Line.Derives ts l) :
    ∀ w, l.target = some w → Label.isName w := by
  obtain ⟨-, body, hb, -⟩ := h
  generalize l.mnemonic = m, l.first = o, l.second = r, l.target = t at hb
  cases hb with
  | blank => exact nofun
  | instruction _ ht => exact ht

theorem Line.encode_named {l : Line} {i : Instruction} (target : ∀ w, l.target = some w → Label.isName w)
    (h : l.encode = .ok (some i)) : i.Named := by
  have jump : ∀ {m : Mnemonic} {c : Condition}, Instruction.jump c <$> l.readTarget m = .ok i → i.Named := by
    intro m c hi
    obtain ⟨name, hr, rfl⟩ := map_eq_ok.mp hi
    intro w hw
    cases hw
    unfold Line.readTarget at hr
    split at hr
    · rename_i ht
      cases hr
      exact target _ ht
    · split at hr
      · rename_i hname
        cases hr
        exact hname
      · cases hr
    · cases hr
    · cases hr
  have source : ∀ {m : Mnemonic} {form : Source → Instruction}, (∀ s, (form s).target? = none) →
      form <$> l.readSource m = .ok i → i.Named := by
    intro m form hform hi
    obtain ⟨s, -, rfl⟩ := map_eq_ok.mp hi
    intro w hw
    rw [hform s] at hw
    cases hw
  unfold Line.encode at h
  split at h
  · cases h
  · rename_i m hm
    obtain ⟨j, hj, hi⟩ := map_eq_ok.mp h
    cases hi
    cases m with
    | nop | swp | sav | neg | hlt =>
      cases hj
      exact nofun
    | add | sub | jro => exact source (fun _ => rfl) hj
    | mov =>
      obtain ⟨s, -, hj⟩ := bind_eq_ok.mp hj
      obtain ⟨d, -, hj⟩ := bind_eq_ok.mp hj
      cases hj
      exact nofun
    | jmp | jez | jnz | jgz | jlz => exact jump hj

end T21
