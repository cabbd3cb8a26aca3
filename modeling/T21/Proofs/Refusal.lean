import T21.Proofs.RecordText

/-!
# Refused records

A line is malformed by its shape alone. A line of the right shape is judged by its bytes: its kind first, then its
length, then its checksum.
-/

namespace T21

namespace HexRecord

open Text

/-! ## Judgement -/

theorem Kind.code_le (k : Kind) : k.code ≤ 5 := by
  cases k <;> decide

theorem Kind.exists_code {code : UInt8} (h : code ≤ 5) : ∃ k : Kind, k.code = code := by
  have below : ∀ n < 6, ∃ k ∈ Kind.all, k.code = UInt8.ofNat n := by decide
  obtain ⟨k, -, hk⟩ := below code.toNat (Nat.lt_succ_of_le (UInt8.le_iff_toNat_le.mp h))
  rw [UInt8.ofNat_toNat] at hk
  exact ⟨k, hk⟩

theorem Kind.ofCode_eq_error {code : UInt8} (h : 5 < code) : Kind.ofCode code = .error (.unknownKind code) := by
  unfold ofCode
  split
  · rename_i k hk
    have found := List.find?_some hk
    have le := k.code_le
    rw [beq_iff_eq.mp found] at le
    exact absurd h (UInt8.not_lt.mpr le)
  · rfl

namespace Fields

/-- What becomes of fields: they are refused for their kind, else for their length, else for their sum, and make a
record otherwise. -/
inductive Judged (f : Fields) : Except Error HexRecord → Prop
  | unknownKind : 5 < f.code → Judged f (.error (.unknownKind f.code))
  | lengthMismatch : f.code ≤ 5 → f.length.toNat ≠ f.payload.length →
      Judged f (.error (.lengthMismatch f.length.toNat f.payload.length))
  | checksumMismatch {expected : UInt8} : f.code ≤ 5 → f.length.toNat = f.payload.length →
      total f.bytes % 256 ≠ 0 → (total f.bytes.dropLast + expected.toNat) % 256 = 0 →
      Judged f (.error (.checksumMismatch expected f.checksum))
  | record {r : HexRecord} : f.length.toNat = f.payload.length → total f.bytes % 256 = 0 →
      r.kind.code = f.code → r.offset.toNat = 256 * f.high.toNat + f.low.toNat → r.payload = f.payload →
      Judged f (.ok r)

section
variable {f : Fields}

theorem dropLast_bytes : f.bytes.dropLast = f.length :: f.high :: f.low :: f.code :: f.payload := by
  have split : f.bytes = (f.length :: f.high :: f.low :: f.code :: f.payload) ++ [f.checksum] := rfl
  rw [split, List.dropLast_concat]

theorem total_bytes : total f.bytes = total f.bytes.dropLast + f.checksum.toNat := by
  rw [dropLast_bytes, ← total_concat]
  rfl

theorem check_unknown (h : 5 < f.code) : f.check = .error (.unknownKind f.code) := by
  rw [check, Kind.ofCode_eq_error h, error_bind]

theorem check_length {k : Kind} (hk : k.code = f.code) (hl : f.length.toNat ≠ f.payload.length) :
    f.check = .error (.lengthMismatch f.length.toNat f.payload.length) := by
  have known : Kind.ofCode f.code = .ok k := Kind.ofCode_eq_ok_iff.mpr hk.symm
  rw [check, known, ok_bind, verified, dif_neg hl.symm]

theorem check_checksum {k : Kind} (hk : k.code = f.code) (hl : f.length.toNat = f.payload.length) :
    ∃ r : HexRecord, r.kind = k ∧ r.offset.toNat = 256 * f.high.toNat + f.low.toNat ∧ r.payload = f.payload ∧
      r.body = f.bytes.dropLast ∧
      f.check = if r.checksum = f.checksum then .ok r else .error (.checksumMismatch r.checksum f.checksum) := by
  have known : Kind.ofCode f.code = .ok k := Kind.ofCode_eq_ok_iff.mpr hk.symm
  have bound : f.payload.length ≤ maxPayload := by
    rw [← hl]
    exact Nat.le_of_lt_succ f.length.toNat_lt
  have value : (UInt16.ofNat (256 * f.high.toNat + f.low.toNat)).toNat = 256 * f.high.toNat + f.low.toNat := by
    have hh := f.high.toNat_lt
    have hl := f.low.toNat_lt
    exact UInt16.toNat_ofNat_of_lt' (show _ < 65536 by omega)
  refine ⟨⟨k, UInt16.ofNat (256 * f.high.toNat + f.low.toNat), f.payload, bound⟩, rfl, value, rfl, ?_, ?_⟩
  · obtain ⟨high, low⟩ := offset_eq_iff.mp (Eq.refl (UInt16.ofNat (256 * f.high.toNat + f.low.toNat)))
    have length := (length_eq_iff bound).mp hl.symm
    rw [dropLast_bytes, body, ← high, ← low, ← length, hk]
  · rw [check, known, ok_bind, verified, dif_pos hl.symm]

theorem Judged.eq {result : Except Error HexRecord} (h : f.Judged result) : f.check = result := by
  cases h with
  | unknownKind hk => exact check_unknown hk
  | lengthMismatch hk hl =>
    obtain ⟨k, hk⟩ := Kind.exists_code hk
    exact check_length hk hl
  | checksumMismatch hk hl hsum he =>
    obtain ⟨k, hk⟩ := Kind.exists_code hk
    obtain ⟨r, -, -, -, hbody, hcheck⟩ := check_checksum hk hl
    rw [← hbody] at he
    rw [total_bytes, ← hbody] at hsum
    rw [hcheck, if_neg fun hc => hsum (checksum_eq_iff.mp hc), checksum_eq_iff.mpr he]
  | record hl hsum hk ho hp =>
    rename_i r
    obtain ⟨made, hkind, hoffset, hpayload, hbody, hcheck⟩ := check_checksum hk hl
    rw [total_bytes, ← hbody] at hsum
    have same : made = r := by
      obtain ⟨kind, offset, payload, bound⟩ := made
      cases hkind
      cases hpayload.trans hp.symm
      cases UInt16.toNat_inj.mp (hoffset.trans ho.symm)
      rfl
    rw [hcheck, if_pos (checksum_eq_iff.mpr hsum), same]

theorem exists_judged (f : Fields) : ∃ result, f.Judged result := by
  by_cases hk : f.code ≤ 5
  · by_cases hl : f.length.toNat = f.payload.length
    · obtain ⟨k, hcode⟩ := Kind.exists_code hk
      obtain ⟨r, hkind, ho, hp, hbody, -⟩ := check_checksum hcode hl
      by_cases hsum : total f.bytes % 256 = 0
      · exact ⟨_, .record hl hsum (by rw [hkind, hcode]) ho hp⟩
      · have expected : (total f.bytes.dropLast + r.checksum.toNat) % 256 = 0 := by
          rw [← hbody]
          exact checksum_eq_iff.mp rfl
        exact ⟨_, .checksumMismatch hk hl hsum expected⟩
    · exact ⟨_, .lengthMismatch hk hl⟩
  · exact ⟨_, .unknownKind (UInt8.not_le.mp hk)⟩

theorem judged_iff {result : Except Error HexRecord} : f.Judged result ↔ f.check = result := by
  refine ⟨Judged.eq, fun h => ?_⟩
  obtain ⟨result', hr⟩ := exists_judged f
  rw [← h, hr.eq]
  exact hr

end

end Fields

/-- **Every line is judged.** A line is malformed exactly if, trimmed, it is not a colon with an even number of digits
behind it, at least ten. The digits of any other line spell the bytes of fields, group by group, and what is read from
it is the one judgement on these: their kind is refused first, then their length, then their sum. -/
theorem parse_judges_line (s : String) :
    let line := trim s.toList
    (parse s = .error (.malformed (String.ofList line)) ↔ ¬ Shaped line) ∧
    (Shaped line → ∃ f : Fields, upper line = ':' :: f.bytes.flatMap Hex.byte ∧ f.ReadByGroups line ∧
      ∀ result, f.Judged result ↔ parse s = result) := by
  intro line
  by_cases shaped : Shaped line
  · obtain ⟨f, spelled⟩ := shaped_iff.mp shaped
    have judged : parse s = f.check := parse_of_spelled spelled
    refine ⟨⟨fun h => ?_, fun h => absurd shaped h⟩, fun _ => ⟨f, spelled, Fields.readByGroups spelled, ?_⟩⟩
    · rw [judged] at h
      cases Fields.judged_iff.mpr h
    · intro result
      rw [judged]
      exact Fields.judged_iff
  · have malformed := parse_of_not_shaped shaped
    exact ⟨⟨fun _ => shaped, fun _ => malformed⟩, fun h => absurd h shaped⟩

-- a sign would be read in a group, but no line with a sign has the shape of a record
example : Hex.number? 256 ['+', '3'] = some 3 ∧
    parse ":+300300002337A1E" = .error (.malformed ":+300300002337A1E") := by decide

-- the kind is refused before the length, and the length before the checksum
example : parse ":05000009FF" = .error (.unknownKind 9) ∧ parse ":05000000FF" = .error (.lengthMismatch 5 0) ∧
    parse ":00000000FF" = .error (.checksumMismatch 0x00 0xFF) := by decide

end HexRecord

end T21
