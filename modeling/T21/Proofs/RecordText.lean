import T21.HexRecord.Parse
import T21.Proofs.Except
import T21.Proofs.Hex
import T21.Proofs.Slices
import T21.Proofs.Utf8

/-!
# Records and their text

A line is accepted as a record exactly when, trimmed and in upper case, it is the text of the record. A line of the
right shape spells bytes, and reading it group by group gives these bytes and cannot fail. The checks on kind, length
and checksum leave one record for each accepted sequence of bytes.
-/

namespace T21.HexRecord

open Text

/-! ## Lines and fields -/

def Shaped (line : List Char) : Prop :=
  ∃ digits, line = ':' :: digits ∧ (∀ c ∈ digits, Hex.IsDigit c) ∧ digits.length % 2 = 0 ∧ 10 ≤ digits.length

structure Fields where
  length : UInt8
  high : UInt8
  low : UInt8
  code : UInt8
  payload : List UInt8
  checksum : UInt8

namespace Fields

def bytes (f : Fields) : List UInt8 :=
  f.length :: f.high :: f.low :: f.code :: (f.payload ++ [f.checksum])

theorem exists_bytes_eq {bytes : List UInt8} (h : 5 ≤ bytes.length) : ∃ f : Fields, bytes = f.bytes := by
  match bytes, h with
  | length :: high :: low :: code :: rest, h =>
    rcases List.eq_nil_or_concat rest with rfl | ⟨payload, checksum, rfl⟩
    · simp at h
    · exact ⟨⟨length, high, low, code, payload, checksum⟩, by simp [Fields.bytes]⟩

end Fields

theorem shaped_iff {line : List Char} :
    Shaped line ↔ ∃ f : Fields, upper line = ':' :: f.bytes.flatMap Hex.byte := by
  constructor
  · rintro ⟨digits, rfl, hd, even, enough⟩
    obtain ⟨bytes, hb⟩ := Option.isSome_iff_exists.mp (Hex.isSome_bytes?.mpr ⟨hd, even⟩)
    have spelled := Hex.bytes?_eq_some_iff.mp hb
    have two : digits.length = 2 * bytes.length := by
      rw [← Hex.length_flatMap_byte, ← spelled, upper, List.length_map]
    obtain ⟨f, rfl⟩ := Fields.exists_bytes_eq (show 5 ≤ bytes.length by omega)
    exact ⟨f, congrArg (':' :: ·) spelled⟩
  · rintro ⟨f, h⟩
    cases line with
    | nil => cases h
    | cons c digits =>
      obtain ⟨hc, spelled⟩ := List.cons_eq_cons.mp h
      rw [toUpper_eq_iff (by decide)] at hc
      subst hc
      have read := Hex.isSome_bytes?.mp (Option.isSome_of_eq_some (Hex.bytes?_eq_some_iff.mpr spelled))
      have two : digits.length = 2 * f.bytes.length := by
        rw [← Hex.length_flatMap_byte, ← spelled, List.length_map]
      have enough : 5 ≤ f.bytes.length := by simp [Fields.bytes]
      exact ⟨digits, rfl, read.1, read.2, by omega⟩

/-! ## Groups

The length, the offset, the kind, the payload and the checksum are groups of digits of the line. -/

namespace Fields

def payloadGroup (line : List Char) : List Char :=
  (line.drop 9).take (line.length - 11)

/-- Each group is read as a number by itself, and the payload two bytes of its encoding at a time. -/
structure ReadByGroups (f : Fields) (line : List Char) : Prop where
  length : Hex.number? 256 ((line.drop 1).take 2) = some f.length.toNat
  offset : Hex.number? 65536 ((line.drop 3).take 4) = some (256 * f.high.toNat + f.low.toNat)
  code : Hex.number? 256 ((line.drop 7).take 2) = some f.code.toNat
  payload_length : (Utf8.encode (String.ofList (payloadGroup line))).length = 2 * f.payload.length
  payload : ∀ i b, f.payload[i]? = some b → ∃ pair : String,
    ((Utf8.encode (String.ofList (payloadGroup line))).drop (2 * i)).take 2 = Utf8.encode pair ∧
      Hex.number? 256 pair.toList = some b.toNat
  checksum : Hex.number? 256 (line.drop (line.length - 2)) = some f.checksum.toNat

section
variable {f : Fields} {line : List Char} (h : upper line = ':' :: f.bytes.flatMap Hex.byte)
include h

theorem length_line : line.length = 11 + 2 * f.payload.length := by
  have := congrArg List.length h
  simp only [upper, List.length_map, List.length_cons, Hex.length_flatMap_byte, bytes, List.length_append,
    List.length_nil] at this
  omega

theorem drop_nine : (upper line).drop 9 = f.payload.flatMap Hex.byte ++ Hex.byte f.checksum := by
  rw [h, bytes]
  simp [Hex.byte]

theorem upper_payloadGroup : upper (payloadGroup line) = f.payload.flatMap Hex.byte := by
  have group : upper (payloadGroup line) = ((upper line).drop 9).take (2 * f.payload.length) := by
    rw [payloadGroup, upper_take_drop, length_line h, Nat.add_sub_cancel_left]
  rw [group, drop_nine h, ← Hex.length_flatMap_byte, List.take_left]

theorem ascii_payloadGroup : ∀ c ∈ payloadGroup line, c.toNat < 0x80 := by
  intro c hc
  have written : c.toUpper ∈ f.payload.flatMap Hex.byte := by
    rw [← upper_payloadGroup h]
    exact List.mem_map_of_mem hc
  obtain ⟨n, hn, e⟩ := Hex.mem_flatMap_byte written
  have value := congrArg Char.toNat e
  rw [toNat_toUpper, Hex.toNat_digit hn] at value
  grind

theorem exists_pair {i : Nat} {b : UInt8} (hb : f.payload[i]? = some b) : ∃ pair : String,
    ((Utf8.encode (String.ofList (payloadGroup line))).drop (2 * i)).take 2 = Utf8.encode pair ∧
      Hex.number? 256 pair.toList = some b.toNat := by
  have ascii := ascii_payloadGroup h
  have part : ∀ c ∈ ((payloadGroup line).drop (2 * i)).take 2, c.toNat < 0x80 := by
    intro c hc
    exact ascii c (List.mem_of_mem_drop (List.mem_of_mem_take hc))
  refine ⟨String.ofList (((payloadGroup line).drop (2 * i)).take 2), ?_, ?_⟩
  · rw [Utf8.encode_ascii ascii, Utf8.encode_ascii part, List.map_take, List.map_drop]
  · rw [String.toList_ofList]
    apply Hex.number?_byte
    rw [upper_take_drop, upper_payloadGroup h, Hex.take_drop_flatMap_byte f.payload i hb]

theorem upper_checksumGroup : upper (line.drop (line.length - 2)) = Hex.byte f.checksum := by
  have behind : line.length - 2 = 9 + 2 * f.payload.length := by
    rw [length_line h]
    omega
  have cut : upper (line.drop (line.length - 2)) = ((upper line).drop 9).drop (2 * f.payload.length) := by
    simp only [upper, List.map_drop, List.drop_drop, behind]
  rw [cut, drop_nine h, ← Hex.length_flatMap_byte, List.drop_left]

theorem readByGroups : f.ReadByGroups line := by
  have cut : ∀ i n, upper ((line.drop i).take n) = ((':' :: f.bytes.flatMap Hex.byte).drop i).take n := by
    intro i n
    rw [upper_take_drop, h]
  have size : (payloadGroup line).length = 2 * f.payload.length := by
    have digits := congrArg List.length (upper_payloadGroup h)
    rwa [Hex.length_flatMap_byte, upper, List.length_map] at digits
  refine ⟨Hex.number?_byte (cut 1 2), Hex.number?_two_bytes (cut 3 4), Hex.number?_byte (cut 7 2), ?_, ?_,
    Hex.number?_byte (upper_checksumGroup h)⟩
  · rw [Utf8.encode_ascii (ascii_payloadGroup h), List.length_map, size]
  · intro i b hb
    exact exists_pair h hb

theorem readPayload?_eq : readPayload? (payloadGroup line) = some f.payload := by
  have read := readByGroups h
  have count : sliceCount 2 (Utf8.encode (String.ofList (payloadGroup line))).toArray.size = f.payload.length := by
    rw [List.size_toArray, read.payload_length, sliceCount]
    omega
  apply mapM_eq_some
  rw [slices, count, List.map_map]
  apply List.ext_getElem?
  intro i
  cases hb : f.payload[i]? with
  | none =>
    have past : f.payload.length ≤ i := List.getElem?_eq_none_iff.mp hb
    simp [past]
  | some b =>
    have inside : i < f.payload.length := (List.getElem?_eq_some_iff.mp hb).1
    obtain ⟨pair, cut, value⟩ := read.payload i b hb
    rw [List.getElem?_map, List.getElem?_range inside, List.getElem?_map, hb]
    simp only [Option.map_some, Function.comp_apply, toList_slice, Nat.mul_comm i 2, cut,
      Utf8.decode?_encode, Option.getD_some, Hex.byte?_eq value]

end

end Fields

theorem Groups.isSome_ofLine? {line : List Char} : (Groups.ofLine? line).isSome ↔ Shaped line := by
  cases line with
  | nil => simp [Groups.ofLine?, Shaped]
  | cons c digits =>
    have odd : (digits.length + 1) % 2 = 1 ↔ digits.length % 2 = 0 := by omega
    rw [Groups.ofLine?, Option.isSome_ite]
    simp [Shaped, odd, Hex.isSome_digitValue?]

theorem Groups.ofLine?_of_shaped {line : List Char} (h : Shaped line) : Groups.ofLine? line =
    some ⟨(line.drop 1).take 2, (line.drop 3).take 4, (line.drop 7).take 2, Fields.payloadGroup line,
      line.drop (line.length - 2)⟩ := by
  have found := Groups.isSome_ofLine?.mpr h
  unfold Groups.ofLine? at found ⊢
  split at found
  · rw [if_pos ‹_›]
    rfl
  · cases found

/-- The fields are checked for their kind, their length and their checksum, in this order. -/
def Fields.check (f : Fields) : Except Error HexRecord := do
  let kind ← Kind.ofCode f.code
  verified kind (UInt16.ofNat (256 * f.high.toNat + f.low.toNat)) f.payload f.length f.checksum

theorem parse_of_not_shaped {s : String} (h : ¬ Shaped (trim s.toList)) :
    parse s = .error (.malformed (String.ofList (trim s.toList))) := by
  rw [← Groups.isSome_ofLine?, Option.not_isSome_iff_eq_none] at h
  simp only [parse, h, Option.getDM_none, throw_eq_error, error_bind]

/-- No group of a line that spells fields fails to be read. -/
theorem parse_of_spelled {s : String} {f : Fields} (h : upper (trim s.toList) = ':' :: f.bytes.flatMap Hex.byte) :
    parse s = f.check := by
  have read := Fields.readByGroups h
  simp only [parse, Groups.ofLine?_of_shaped (shaped_iff.mpr ⟨f, h⟩), Hex.byte?_eq read.length, read.offset,
    Hex.byte?_eq read.code, Fields.readPayload?_eq h, Hex.byte?_eq read.checksum, Option.getDM_some, pure_bind]
  rfl

/-! ## Checks -/

theorem Kind.ofCode_eq_ok_iff {code : UInt8} {k : Kind} : Kind.ofCode code = .ok k ↔ code = k.code := by
  constructor
  · intro h
    unfold ofCode at h
    split at h
    · rename_i found hf
      cases h
      have := List.find?_some hf
      exact (beq_iff_eq.mp this).symm
    · cases h
  · rintro rfl
    cases k <;> rfl

theorem offset_eq_iff {high low : UInt8} {offset : UInt16} :
    UInt16.ofNat (256 * high.toNat + low.toNat) = offset ↔
      high = UInt8.ofNat (offset.toNat / 256) ∧ low = UInt8.ofNat (offset.toNat % 256) := by
  have hh := high.toNat_lt
  have hl := low.toNat_lt
  constructor
  · rintro rfl
    have value : (UInt16.ofNat (256 * high.toNat + low.toNat)).toNat = 256 * high.toNat + low.toNat :=
      UInt16.toNat_ofNat_of_lt' (show _ < 65536 by omega)
    have quotient : (256 * high.toNat + low.toNat) / 256 = high.toNat := by omega
    have rest : (256 * high.toNat + low.toNat) % 256 = low.toNat := by omega
    rw [value, quotient, rest, UInt8.ofNat_toNat, UInt8.ofNat_toNat]
    exact ⟨rfl, rfl⟩
  · rintro ⟨rfl, rfl⟩
    have ho := offset.toNat_lt
    rw [UInt8.toNat_ofNat_of_lt' (show offset.toNat / 256 < 256 by omega),
      UInt8.toNat_ofNat_of_lt' (show offset.toNat % 256 < 256 by omega), Nat.div_add_mod, UInt16.ofNat_toNat]

def fields (r : HexRecord) : Fields where
  length := UInt8.ofNat r.payload.length
  high := UInt8.ofNat (r.offset.toNat / 256)
  low := UInt8.ofNat (r.offset.toNat % 256)
  code := r.kind.code
  payload := r.payload
  checksum := r.checksum

theorem bytes_fields (r : HexRecord) : r.fields.bytes = r.bytes := rfl

theorem length_eq_iff {length : UInt8} {payload : List UInt8} (h : payload.length ≤ maxPayload) :
    payload.length = length.toNat ↔ length = UInt8.ofNat payload.length := by
  have value : (UInt8.ofNat payload.length).toNat = payload.length :=
    UInt8.toNat_ofNat_of_lt' (Nat.lt_succ_of_le h)
  constructor
  · intro e
    rw [e, UInt8.ofNat_toNat]
  · rintro rfl
    exact value.symm

theorem check_eq_ok_iff {f : Fields} {r : HexRecord} : f.check = .ok r ↔ f = r.fields := by
  obtain ⟨length, high, low, code, payload, checksum⟩ := f
  constructor
  · -- a check that fails gives an error, so all three have passed
    intro h
    obtain ⟨kind, hk, h⟩ := bind_eq_ok.mp h
    dsimp only [verified] at h
    split at h
    · rename_i hl
      split at h
      · rename_i hc
        cases h
        obtain ⟨hhigh, hlow⟩ := offset_eq_iff.mp (Eq.refl (UInt16.ofNat (256 * high.toNat + low.toNat)))
        have hlength := (length_eq_iff (by rw [hl]; exact Nat.le_of_lt_succ length.toNat_lt)).mp hl
        have hcode : code = kind.code := Kind.ofCode_eq_ok_iff.mp hk
        simp only [fields, ← hhigh, ← hlow, ← hlength, hc, hcode]
      · cases h
    · cases h
  · intro h
    obtain ⟨kind, offset, data, hdata⟩ := r
    cases h
    have hk : Kind.ofCode kind.code = .ok kind := Kind.ofCode_eq_ok_iff.mpr rfl
    have hl : data.length = (UInt8.ofNat data.length).toNat := (length_eq_iff hdata).mpr rfl
    have ho : UInt16.ofNat (256 * (UInt8.ofNat (offset.toNat / 256)).toNat +
        (UInt8.ofNat (offset.toNat % 256)).toNat) = offset := offset_eq_iff.mpr ⟨rfl, rfl⟩
    simp only [Fields.check, hk, ok_bind, verified, dif_pos hl, ho]
    rfl

/-! ## Sums -/

/-- The sum of bytes with its carries. -/
def total : List UInt8 → Nat
  | [] => 0
  | b :: bytes => b.toNat + total bytes

theorem total_concat (b : UInt8) : ∀ bytes : List UInt8, total (bytes ++ [b]) = total bytes + b.toNat
  | [] => Nat.add_comm _ _
  | a :: bytes => by rw [List.cons_append, total, total_concat b bytes, total, Nat.add_assoc]

theorem toNat_byteSum (bytes : List UInt8) : (byteSum bytes).toNat = total bytes % 256 := by
  have from_start : ∀ (bytes : List UInt8) (a : UInt8),
      (bytes.foldl (· + ·) a).toNat = (a.toNat + total bytes) % 256 := by
    intro bytes
    induction bytes with
    | nil =>
      intro a
      exact (Nat.mod_eq_of_lt a.toNat_lt).symm
    | cons b bytes ih =>
      intro a
      rw [List.foldl_cons, ih, UInt8.toNat_add, total]
      omega
  rw [byteSum, from_start, UInt8.toNat_zero, Nat.zero_add]

/-- The checksum is the byte that makes the sum zero. -/
theorem checksum_eq_iff {r : HexRecord} {c : UInt8} : r.checksum = c ↔ (total r.body + c.toNat) % 256 = 0 := by
  have sum := toNat_byteSum r.body
  have hc := c.toNat_lt
  rw [← UInt8.toNat_inj, checksum, UInt8.toNat_sub, UInt8.toNat_zero, sum]
  omega

/-! ## Whole lines -/

theorem toList_text (r : HexRecord) : r.text.toList = ':' :: r.bytes.flatMap Hex.byte :=
  String.toList_ofList

theorem length_text (r : HexRecord) : r.text.length = 11 + 2 * r.payload.length := by
  rw [← String.length_toList, toList_text, List.length_cons, Hex.length_flatMap_byte]
  simp only [bytes, body, List.length_append, List.length_cons, List.length_nil]
  omega

theorem parse_eq_ok_iff {s : String} {r : HexRecord} :
    parse s = .ok r ↔ upper (trim s.toList) = r.text.toList := by
  rw [toList_text, ← bytes_fields]
  constructor
  · intro h
    by_cases shaped : Shaped (trim s.toList)
    · obtain ⟨f, spelled⟩ := shaped_iff.mp shaped
      rw [parse_of_spelled spelled, check_eq_ok_iff] at h
      rw [spelled, h]
    · rw [parse_of_not_shaped shaped] at h
      cases h
  · intro h
    rw [parse_of_spelled h, check_eq_ok_iff]

theorem isBlank_text (r : HexRecord) {c : Char} (hc : c ∈ r.text.toList) : isBlank c = false := by
  rw [toList_text] at hc
  rcases List.mem_cons.mp hc with rfl | hc
  · rfl
  · obtain ⟨n, hn, rfl⟩ := Hex.mem_flatMap_byte hc
    exact Hex.isBlank_digit hn

theorem parse_text (r : HexRecord) : parse r.text = .ok r := by
  have colon : ':'.toUpper = ':' := by decide
  rw [parse_eq_ok_iff, trim_eq_self fun _ => r.isBlank_text, toList_text, upper, List.map_cons, colon]
  exact congrArg _ (Hex.upper_flatMap_byte r.bytes)

theorem ofPayload_eq_ok_iff {kind : Kind} {offset : UInt16} {payload : List UInt8} {r : HexRecord} :
    ofPayload kind offset payload = .ok r ↔
      payload.length ≤ 255 ∧ r.kind = kind ∧ r.offset = offset ∧ r.payload = payload := by
  unfold ofPayload
  split
  · rename_i h
    constructor
    · rintro ⟨⟩
      exact ⟨h, rfl, rfl, rfl⟩
    · rintro ⟨-, rfl, rfl, rfl⟩
      rfl
  · rename_i h
    constructor
    · intro e
      cases e
    · rintro ⟨hp, -⟩
      exact absurd hp h

/-- **Each record has one text, up to case and blanks around it.** A payload makes a record when it has at most
255 bytes, and every record has such a payload. The text takes two characters for each byte of it and eleven
more, and it reads as the record. A line reads as the record just when its trimmed text in upper case is that
text. -/
theorem text_is_canonical :
    (∀ kind offset payload r, ofPayload kind offset payload = .ok r ↔
      payload.length ≤ 255 ∧ r.kind = kind ∧ r.offset = offset ∧ r.payload = payload) ∧
    (∀ r : HexRecord, r.payload.length ≤ 255 ∧ r.text.length = 11 + 2 * r.payload.length ∧
      parse r.text = .ok r) ∧
    ∀ (s : String) (r : HexRecord), parse s = .ok r ↔ r.text = String.ofList (upper (trim s.toList)) := by
  refine ⟨fun _ _ _ _ => ofPayload_eq_ok_iff, fun r => ⟨r.length_le, r.length_text, r.parse_text⟩, ?_⟩
  intro s r
  rw [parse_eq_ok_iff, ← String.toList_inj, String.toList_ofList, eq_comm]

end T21.HexRecord
