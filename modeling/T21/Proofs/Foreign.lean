import T21.Proofs.Lexemes
import T21.Proofs.Replacement
import T21.Proofs.Spelling
import T21.Proofs.Step
import T21.Proofs.Written

/-!
# Foreign characters

Labels, mnemonics, operands and targets are written in letters, digits and `-`, and between them stand commas, colons
and blanks. A line that has anything else before its first `#` is not read, wherever in the line it stands. Bytes that
are not UTF-8 are decoded to such a character, so there they spoil the line too, and in a comment they do nothing.
-/

namespace T21

open Text Text.Utf8

def isForeign (c : Char) : Bool :=
  !(c.isAlpha || c.isDigit || c == '-' || c == ',' || c == ':' || isBlank c)

theorem isAlpha_iff_toNat {c : Char} :
    c.isAlpha ↔ (0x41 ≤ c.toNat ∧ c.toNat ≤ 0x5A) ∨ (0x61 ≤ c.toNat ∧ c.toNat ≤ 0x7A) := by
  have lower : c.isLower ↔ 0x61 ≤ c.toNat ∧ c.toNat ≤ 0x7A := by
    have letter : ('a'.val ≤ c.val ∧ c.val ≤ 'z'.val) ↔ 0x61 ≤ c.toNat ∧ c.toNat ≤ 0x7A := Iff.rfl
    exact (Bool.and_eq_true_iff.trans (and_congr decide_eq_true_iff decide_eq_true_iff)).trans letter
  exact Bool.or_eq_true_iff.trans (or_congr isUpper_iff_toNat lower)

theorem isForeign_toUpper (c : Char) : isForeign c.toUpper = isForeign c := by
  have hn := toNat_toUpper c
  by_cases hc : 0x61 ≤ c.toNat ∧ c.toNat ≤ 0x7A
  · rw [if_pos hc] at hn
    have letter : c.isAlpha := isAlpha_iff_toNat.mpr (.inr hc)
    have letter' : c.toUpper.isAlpha := isAlpha_iff_toNat.mpr (.inl (by omega))
    simp [isForeign, letter, letter']
  · rw [if_neg hc, Char.toNat_inj] at hn
    rw [hn]

theorem isForeign_of_isRunChar {c : Char} (h : isRunChar c) : isForeign c = false := by
  simp only [isRunChar, Bool.or_eq_true] at h
  rcases h with (h | h) | h
  · have letter : c.isAlpha := isAlpha_iff_toNat.mpr (.inl (isUpper_iff_toNat.mp h))
    simp [isForeign, letter]
  · simp [isForeign, h]
  · simp [isForeign, h]

/-! ## Tokens -/

def Token.Native : Token → Prop
  | .label name => ∀ c ∈ name.toList, isForeign c = false
  | .word w => ∀ c ∈ w.toList, isForeign c = false
  | _ => True

namespace Token

theorem native_of_numeral {run : List Char} {v : Int} (h : Numeral run v) : ∀ c ∈ run, isForeign c = false := by
  have digits : ∀ {ds : List Char} {n : Nat}, Decimal ds n → ∀ c ∈ ds, isForeign c = false := by
    intro ds n hn
    cases hn with
    | one ha => simp [isForeign, ha]
    | two ha hb => simp [isForeign, ha, hb]
    | three ha hb hc => simp [isForeign, ha, hb, hc]
  cases h with
  | plain hn => exact digits hn
  | minus hn => exact List.forall_mem_cons.mpr ⟨by decide, digits hn⟩

theorem native_of_close {run : List Char} (h : ∀ t ∈ close run, t.Native) : ∀ c ∈ run, isForeign c = false := by
  cases run with
  | nil => nofun
  | cons d run =>
    have ht := h _ List.mem_cons_self
    unfold ofRun at ht
    split at ht
    · rename_i hv
      exact native_of_numeral (number?_eq_some_iff.mp hv)
    · simpa [Native] using ht

theorem native_of_scanFrom {run cs : List Char} {ts : List Token} (h : scanFrom run cs = .ok ts)
    (native : ∀ t ∈ ts, t.Native) : ∀ c ∈ run ++ cs, isForeign c = false := by
  induction cs generalizing run ts with
  | nil =>
    cases h
    simpa using native_of_close native
  | cons d cs ih =>
    simp only [scanFrom] at h
    rw [List.forall_mem_append, List.forall_mem_cons]
    split at h
    · rename_i colon
      subst colon
      split at h
      · cases h
      · obtain ⟨us, hus, rfl⟩ := map_eq_ok.mp h
        rw [List.forall_mem_cons] at native
        exact ⟨by simpa [Native] using native.1, by decide, ih hus native.2⟩
    · split at h
      · rename_i comma
        subst comma
        obtain ⟨us, hus, rfl⟩ := map_eq_ok.mp h
        rw [List.forall_mem_append, List.forall_mem_cons] at native
        exact ⟨native_of_close native.1, by decide, ih hus native.2.2⟩
      · split at h
        · rename_i blank
          obtain ⟨us, hus, rfl⟩ := map_eq_ok.mp h
          rw [List.forall_mem_append] at native
          exact ⟨native_of_close native.1, by simp [isForeign, blank], ih hus native.2⟩
        · have word := ih h native
          rw [List.append_assoc, List.forall_mem_append] at word
          simpa using word

end Token

namespace Line

theorem native_name {name : String} (h : Label.isName name) : ∀ c ∈ name.toList, isForeign c = false := by
  intro c hc
  exact isForeign_of_isRunChar ((Token.isRun_name h).chars c hc)

theorem native_keyword (m : Mnemonic) : ∀ c ∈ m.keyword.toList, isForeign c = false := by
  intro c hc
  exact isForeign_of_isRunChar ((Token.isRun_keyword m).chars c hc)

theorem native_register {w : String} (h : (Token.word w).isRegister) : ∀ c ∈ w.toList, isForeign c = false := by
  obtain ⟨r, hr⟩ := Option.isSome_iff_exists.mp h
  obtain ⟨xs, ys, hxs, -⟩ := List.lookup_eq_some_iff.mp hr
  have listed : (Register.all.map (fun r => (r.name, r)) ++ Register.directions).all
      fun p => p.1.toList.all isRunChar := by decide
  have chars := List.all_eq_true.mp listed (w, r) (by rw [hxs]; simp)
  intro c hc
  exact isForeign_of_isRunChar (List.all_eq_true.mp chars c hc)

theorem native_operand {o : Operand} (h : o.token.isOperand) : o.token.Native := by
  cases o with
  | name w => exact native_register h
  | literal v => trivial

theorem Operands.native {o r : Option Operand} {ts : List Token} (h : Operands o r ts) : ∀ t ∈ ts, t.Native := by
  cases h with
  | none => nofun
  | first ho => simpa using native_operand ho
  | both ho hw => simpa using ⟨native_operand ho, native_register hw⟩
  | comma ho hw => simpa using ⟨native_operand ho, trivial, native_register hw⟩

theorem Derives.native {ts : List Token} {l : Line} (h : Derives ts l) : ∀ t ∈ ts, t.Native := by
  obtain ⟨label, m, o, r, t, c⟩ := l
  obtain ⟨hlabel, body, hb, rfl⟩ := h
  have hl : ∀ t ∈ (label.map Token.label).toList, t.Native := by
    simpa [Token.Native] using fun name hname => native_name (hlabel name hname)
  have hc : ∀ t ∈ (c.map Token.comment).toList, t.Native := by
    simp [Token.Native]
  have hbody : ∀ t ∈ body, t.Native := by
    cases hb with
    | blank => nofun
    | @instruction m o r t ts hos ht =>
      have target : ∀ u ∈ (t.map Token.word).toList, u.Native := by
        simpa [Token.Native] using fun w hw => native_name (ht w hw)
      exact List.forall_mem_cons.mpr ⟨native_keyword m, List.forall_mem_append.mpr ⟨hos.native, target⟩⟩
  exact List.forall_mem_append.mpr ⟨List.forall_mem_append.mpr ⟨hl, hbody⟩, hc⟩

/-- What the tokens of a line leave out are separators, which are not foreign. -/
theorem exists_read_error {raw : String} (h : ∃ c ∈ raw.toList.takeWhile (· ≠ '#'), isForeign c) :
    ∃ cause, read raw = .error cause := by
  cases hr : read raw with
  | error cause => exact ⟨cause, rfl⟩
  | ok l =>
    obtain ⟨ts, hts, hl⟩ := tokens_of_read hr
    obtain ⟨us, hus, rfl⟩ := map_eq_ok.mp hts
    have native := (derives_of_ofTokens hl).native
    rw [List.forall_mem_append] at native
    obtain ⟨c, hc, foreign⟩ := h
    have hupper : c.toUpper ∈ [] ++ code raw := List.mem_map_of_mem hc
    have plain := Token.native_of_scanFrom hus native.1 c.toUpper hupper
    rw [isForeign_toUpper, foreign] at plain
    cases plain

end Line

/-! ## Lines -/

theorem takeWhile_append_cons {α : Type} [DecidableEq α] {a : α} {xs : List α} (h : a ∉ xs) (ys : List α) :
    (xs ++ a :: ys).takeWhile (· ≠ a) = xs := by
  have kept : ∀ x ∈ xs, decide (x ≠ a) = true := by
    intro x hx
    simp only [decide_eq_true_eq]
    rintro rfl
    exact h hx
  rw [List.takeWhile_append_of_pos kept]
  simp

namespace Assembler

structure Refused (s : Assembler) (line : Nat) (s' : Assembler) : Prop where
  diagnostics : ∃ cause, s'.diagnostics = s.diagnostics.push ⟨s.source, line, .malformed cause⟩
  labels : s'.labels = s.labels
  fixups : s'.fixups = s.fixups
  code : s'.code = s.code
  listing : s'.listing = s.listing

theorem refused_of_foreign (s : Assembler) (line : Nat) {raw : String}
    (h : ∃ c ∈ raw.toList.takeWhile (· ≠ '#'), isForeign c) : s.Refused line (s.feed line raw) := by
  obtain ⟨cause, hr⟩ := Line.exists_read_error h
  have reported : s.feed line raw = s.report line (.malformed cause) := by simp only [feed, hr]
  rw [reported]
  exact ⟨⟨cause, rfl⟩, rfl, rfl, rfl, rfl⟩

theorem feed_comment (s : Assembler) (line : Nat) {raw : String} (h : '#' ∈ raw.toList) :
    s.feed line raw = s.feed line (String.ofList (raw.toList.takeWhile (· ≠ '#') ++ ['#'])) := by
  apply feed_tokens
  have same := takeWhile_append_cons (Token.hash_not_mem_code raw.toList) []
  simp only [Line.tokens, Line.code, String.toList_ofList, same, h, List.mem_append, List.mem_singleton, or_true]

end Assembler

/-! ## Streams -/

theorem hash_mem_decode {bytes : List UInt8} : '#' ∈ (decode bytes).toList ↔ 0x23 ∈ bytes := by
  constructor
  · intro h
    obtain ⟨b, hb, e⟩ := mem_decode (by decide) (by decide) h
    have hash : b = 0x23 := UInt8.toNat_inj.mp e
    exact hash ▸ hb
  · intro h
    obtain ⟨xs, ys, rfl⟩ := List.append_of_mem h
    rw [decode_append_ascii xs ys (by decide)]
    simp

/-- Cutting at the first `#` and decoding commute, since no other character has its byte. -/
theorem takeWhile_decode (bytes : List UInt8) :
    (decode bytes).toList.takeWhile (· ≠ '#') = (decode (bytes.takeWhile (· ≠ 0x23))).toList := by
  by_cases h : 0x23 ∈ bytes
  · obtain ⟨code, comment, rfl, hcode⟩ := List.eq_append_cons_of_mem h
    have hash : '#' ∉ (decode code).toList := fun hm => hcode (hash_mem_decode.mp hm)
    rw [takeWhile_append_cons hcode, decode_append_ascii code comment (by decide)]
    exact takeWhile_append_cons hash _
  · have hash : '#' ∉ (decode bytes).toList := fun hm => h (hash_mem_decode.mp hm)
    rw [List.takeWhile_eq_self_iff.mpr, List.takeWhile_eq_self_iff.mpr]
    · simpa using fun b hb (e : b = 0x23) => h (e ▸ hb)
    · simpa using fun c hc (e : c = '#') => hash (e ▸ hc)

theorem numbered_concat (lines : List String) (raw : String) :
    numbered (lines ++ [raw]) = numbered lines ++ [.raw (lines.length + 1) raw] := by
  simp [numbered, List.zipIdx_append, Nat.add_comm]

/-- A piece of a stream is fed as the text it decodes to, since what else it loses at its end is blank. -/
theorem Assembler.run_piece (source : String) (input : Stream) {k : Nat} {bytes : List UInt8}
    (h : input.pieces[k]? = some bytes) :
    run source (numbered (input.lines.take (k + 1))) =
      (run source (numbered (input.lines.take k))).feed (k + 1) (decode bytes) := by
  have line : input.lines[k]? = some (String.ofList (dropLineEnds (decode bytes).toList)) := by
    rw [Stream.lines, List.getElem?_map, h, Option.map_some]
  have before : (input.lines.take k).length = k :=
    List.length_take_of_le (Nat.le_of_lt (List.getElem?_eq_some_iff.mp line).1)
  rw [List.take_add_one, line, Option.toList_some, numbered_concat, before, run_snoc]
  apply feed_congr
  simp [trimmed, trim_dropLineEnds]

theorem isForeign_replacement : isForeign replacement := by decide

/-- **Foreign characters spoil a line.** If one stands before the first `#`, the line is reported once, as malformed,
and does nothing else. In a stream the same is true of bytes there that encode no text. Behind the first `#` neither
matters: the line does what it does with an empty comment. -/
theorem foreign_characters_refuse_line :
    (∀ (s : Assembler) (line : Nat) (raw : String),
      ((∃ c ∈ raw.toList.takeWhile (· ≠ '#'), isForeign c) → s.Refused line (s.feed line raw)) ∧
      ('#' ∈ raw.toList →
        s.feed line raw = s.feed line (String.ofList (raw.toList.takeWhile (· ≠ '#') ++ ['#'])))) ∧
    ∀ (source : String) (input : Stream) (k : Nat) (bytes : List UInt8), input.pieces[k]? = some bytes →
      let s := Assembler.run source (numbered (input.lines.take k))
      let s' := Assembler.run source (numbered (input.lines.take (k + 1)))
      let code := bytes.takeWhile (· ≠ 0x23)
      ((∃ c ∈ (decode bytes).toList.takeWhile (· ≠ '#'), isForeign c) → s.Refused (k + 1) s') ∧
      ((∀ text, encode text ≠ code) → s.Refused (k + 1) s') ∧
      (0x23 ∈ bytes → s' = s.feed (k + 1) (decode (code ++ [0x23]))) := by
  refine ⟨fun s line raw => ⟨s.refused_of_foreign line, s.feed_comment line⟩, ?_⟩
  intro source input k bytes h s s' code
  have fed : s' = s.feed (k + 1) (decode bytes) := Assembler.run_piece source input h
  rw [fed]
  refine ⟨s.refused_of_foreign (k + 1), ?_, ?_⟩
  · intro ill
    apply s.refused_of_foreign (k + 1)
    rw [takeWhile_decode]
    exact ⟨replacement, replacement_mem_decode ill, isForeign_replacement⟩
  · intro hash
    have emptied : (decode (code ++ [0x23])).toList = (decode code).toList ++ ['#'] := by
      rw [decode_append_ascii code [] (by decide)]
      rfl
    rw [s.feed_comment (k + 1) (hash_mem_decode.mpr hash), takeWhile_decode, ← emptied, String.ofList_toList]

/-- The second line is cut off within a character before its comment, and the first one has a stray byte in it. -/
theorem truncated_bytes_refuse_line :
    let input : Stream :=
      { data := encode "hlt #" ++ [0xFF, 0x0A] ++ encode "mov up,acc" ++ [0xE2, 0x82] ++ encode "#\n" }
    let s := Assembler.run "t" (numbered (input.lines.take 1))
    let code := encode "mov up,acc" ++ [0xE2, 0x82]
    s = (Assembler.start "t").feed 1 "hlt #" ∧ (∀ text, encode text ≠ code) ∧
      s.Refused 2 (Assembler.run "t" (numbered (input.lines.take 2))) := by
  intro input s code
  have cut : input.pieces = [encode "hlt #" ++ [0xFF, 0x0A], code ++ encode "#\n"] := by decide +kernel
  have ill : ∀ text, encode text ≠ code := by
    intro text h
    have again : encode (decode code) ≠ code := by decide +kernel
    rw [← h, decode_encode] at again
    exact again rfl
  obtain ⟨-, streams⟩ := foreign_characters_refuse_line
  obtain ⟨-, -, comment⟩ := streams "t" input 0 _ (by rw [cut]; rfl)
  obtain ⟨-, invalid, -⟩ := streams "t" input 1 (code ++ encode "#\n") (by rw [cut]; rfl)
  have first : decode ((encode "hlt #" ++ [0xFF, 0x0A]).takeWhile (· ≠ 0x23) ++ [0x23]) = "hlt #" := by decide +kernel
  have second : (code ++ encode "#\n").takeWhile (· ≠ 0x23) = code := by decide +kernel
  rw [second] at invalid
  rw [first] at comment
  exact ⟨comment (by decide +kernel), ill, invalid ill⟩

end T21
