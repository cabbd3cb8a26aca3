import T21.Proofs.RecordText

/-!
# Damaged records

Records whose texts differ in one character have byte sums that differ, so no two do. A text that has lost a character
has an odd number of digits. So a record with one character replaced or lost is refused, and only a change of case
goes unnoticed.
-/

namespace T21

namespace Text

theorem toNat_toLower (c : Char) :
    c.toLower.toNat = if 0x41 ≤ c.toNat ∧ c.toNat ≤ 0x5A then c.toNat + 0x20 else c.toNat := by
  have isUpper : (c.val ≥ 'A'.val ∧ c.val ≤ 'Z'.val) ↔ 0x41 ≤ c.toNat ∧ c.toNat ≤ 0x5A := Iff.rfl
  unfold Char.toLower
  split
  · rename_i h
    have hc := isUpper.mp h
    have distance : ('a'.val - 'A'.val).toNat = 0x20 := by decide
    rw [if_pos hc, Char.toNat_mk, UInt32.toNat_add, distance, Char.toNat_val]
    omega
  · rename_i h
    rw [if_neg fun hc => h (isUpper.mpr hc)]

theorem toUpper_eq_iff_of_upper {c d : Char} (hd : d.toUpper = d) : c.toUpper = d ↔ c = d ∨ c = d.toLower := by
  have upper := congrArg Char.toNat hd
  rw [toNat_toUpper] at upper
  rw [← Char.toNat_inj, ← Char.toNat_inj, ← Char.toNat_inj, toNat_toUpper, toNat_toLower]
  grind

namespace Hex

theorem flatMap_byte_inj {as bs : List UInt8} (h : as.flatMap byte = bs.flatMap byte) : as = bs := by
  have read : ∀ bytes : List UInt8, bytes? (bytes.flatMap byte) = some bytes := by
    intro bytes
    exact bytes?_eq_some_iff.mpr (upper_flatMap_byte bytes)
  have both := congrArg bytes? h
  rw [read, read] at both
  exact Option.some.inj both

theorem exists_set_byte {d : Char} : ∀ {as bs : List UInt8} {k : Nat},
    (as.flatMap byte).set k d = bs.flatMap byte → ∃ j b, bs = as.set j b
  | [], bs, k, h => ⟨0, 0, flatMap_byte_inj h.symm⟩
  | a :: as, [], k, h => by
    have lengths := congrArg List.length h
    rw [List.length_set, length_flatMap_byte, length_flatMap_byte] at lengths
    simp at lengths
  | a :: as, b :: bs, 0, h => by
    have rest := (List.cons.inj (List.cons.inj h).2).2
    exact ⟨0, b, by rw [List.set_cons_zero, flatMap_byte_inj rest]⟩
  | a :: as, b :: bs, 1, h => by
    have rest := (List.cons.inj (List.cons.inj h).2).2
    exact ⟨0, b, by rw [List.set_cons_zero, flatMap_byte_inj rest]⟩
  | a :: as, b :: bs, k + 2, h => by
    obtain ⟨high, h⟩ := List.cons.inj h
    obtain ⟨low, rest⟩ := List.cons.inj h
    have same : [a] = [b] := by
      apply flatMap_byte_inj
      simp [byte, high, low]
    obtain ⟨j, c, hc⟩ := exists_set_byte rest
    exact ⟨j + 1, c, by rw [List.set_cons_succ, hc, (List.cons.inj same).1]⟩

end Hex

end Text

namespace HexRecord

open Text

/-! ## One byte -/

theorem total_set {a b : UInt8} : ∀ (bytes : List UInt8) (j : Nat), bytes[j]? = some a →
    total (bytes.set j b) + a.toNat = total bytes + b.toNat
  | x :: bytes, 0, h => by
    cases h
    rw [List.set_cons_zero, total, total]
    omega
  | x :: bytes, j + 1, h => by
    have rest := total_set (b := b) bytes j h
    rw [List.set_cons_succ, total, total]
    omega

theorem total_bytes_mod (r : HexRecord) : total r.bytes % 256 = 0 := by
  rw [bytes, total_concat]
  exact checksum_eq_iff.mp rfl

/-- No record has the bytes of another with one of them changed. -/
theorem bytes_eq_of_set {r r' : HexRecord} {j : Nat} {b : UInt8} (h : r'.bytes = r.bytes.set j b) :
    r'.bytes = r.bytes := by
  cases ha : r.bytes[j]? with
  | none => rw [h, List.set_eq_of_length_le (List.getElem?_eq_none_iff.mp ha)]
  | some a =>
    have zero := r.total_bytes_mod
    have zero' := r'.total_bytes_mod
    have moved := total_set (b := b) r.bytes j ha
    rw [← h] at moved
    have hlt := a.toNat_lt
    have hlt' := b.toNat_lt
    have same : b = a := UInt8.toNat_inj.mp (by omega)
    obtain ⟨hj, rfl⟩ := List.getElem?_eq_some_iff.mp ha
    rw [h, same, List.set_getElem_self]

/-! ## One character -/

theorem eq_of_text_eq {r r' : HexRecord} (h : r'.text.toList = r.text.toList) : r' = r := by
  have read := r'.parse_text
  rw [String.toList_inj.mp h, parse_text] at read
  exact (Except.ok.inj read).symm

theorem eq_of_text_set {r r' : HexRecord} {i : Nat} {d : Char} (h : r.text.toList.set i d = r'.text.toList) :
    r' = r := by
  apply eq_of_text_eq
  rw [toList_text, toList_text] at h
  rw [toList_text, toList_text]
  cases i with
  | zero => rw [(List.cons.inj h).2]
  | succ i =>
    obtain ⟨j, b, hb⟩ := Hex.exists_set_byte (List.cons.inj h).2
    rw [bytes_eq_of_set hb]

/-- Digits come in pairs, so a line that is read has an odd number of characters besides blanks. -/
theorem countP_of_parse {s : String} {r : HexRecord} (h : parse s = .ok r) :
    s.toList.countP (fun c => !isBlank c) = 11 + 2 * r.payload.length := by
  have read := parse_eq_ok_iff.mp h
  obtain ⟨l, e, split, hl, he⟩ := exists_trim s.toList
  have blank : ∀ cs : List Char, (∀ c ∈ cs, isBlank c) → cs.countP (fun c => !isBlank c) = 0 := by
    intro cs hcs
    rw [List.countP_eq_zero]
    intro c hc
    simp [hcs c hc]
  have kept : (trim s.toList).countP (fun c => !isBlank c) = (trim s.toList).length := by
    rw [List.countP_eq_length]
    intro c hc
    have written : c.toUpper ∈ r.text.toList := by
      rw [← read]
      exact List.mem_map_of_mem hc
    rw [← isBlank_toUpper, r.isBlank_text written]
    rfl
  have size := congrArg List.length read
  rw [upper, List.length_map, String.length_toList, length_text] at size
  rw [split, List.countP_append, List.countP_append, blank l hl, blank e he, kept, size]
  omega

theorem toUpper_text (r : HexRecord) {c : Char} (hc : c ∈ r.text.toList) : c.toUpper = c := by
  rw [toList_text] at hc
  rcases List.mem_cons.mp hc with rfl | hc
  · decide
  · obtain ⟨n, hn, rfl⟩ := Hex.mem_flatMap_byte hc
    exact Hex.toUpper_digit hn

section
variable {r : HexRecord} {i : Nat} {old c : Char} (h : r.text.toList[i]? = some old)

theorem upper_trim_set (hc : isBlank c = false) :
    upper (trim (r.text.toList.set i c)) = r.text.toList.set i c.toUpper := by
  have same : upper r.text.toList = r.text.toList := upper_eq_self fun _ => r.toUpper_text
  rw [trim_eq_self, upper, List.map_set, ← upper, same]
  intro d hd
  rcases List.mem_or_eq_of_mem_set hd with hd | rfl
  · exact r.isBlank_text hd
  · exact hc

include h

theorem parse_set_same (hc : c.toUpper = old) : parse (String.ofList (r.text.toList.set i c)) = .ok r := by
  obtain ⟨hi, rfl⟩ := List.getElem?_eq_some_iff.mp h
  have visible : isBlank c = false := by
    rw [← isBlank_toUpper, hc]
    exact r.isBlank_text (List.getElem_mem hi)
  rw [parse_eq_ok_iff, String.toList_ofList, upper_trim_set visible, hc, List.set_getElem_self]

theorem toUpper_of_parse_set {r' : HexRecord} (hp : parse (String.ofList (r.text.toList.set i c)) = .ok r') :
    c.toUpper = old := by
  obtain ⟨hi, rfl⟩ := List.getElem?_eq_some_iff.mp h
  cases hc : isBlank c with
  | true =>
    -- trimmed away or not, a blank leaves an even number of characters
    have count := countP_of_parse hp
    have visible := r.isBlank_text (List.getElem_mem hi)
    rw [String.toList_ofList, List.countP_set hi, countP_of_parse r.parse_text, hc, visible] at count
    simp only [Bool.not_false, Bool.not_true, if_true, Bool.false_eq_true, if_false] at count
    omega
  | false =>
    have read := parse_eq_ok_iff.mp hp
    rw [String.toList_ofList, upper_trim_set hc] at read
    have new : (r.text.toList.set i c.toUpper)[i]? = some c.toUpper := List.getElem?_set_self hi
    rw [read, eq_of_text_set read, h] at new
    exact (Option.some.inj new).symm

theorem not_parse_eraseIdx {r' : HexRecord} : parse (String.ofList (r.text.toList.eraseIdx i)) ≠ .ok r' := by
  intro hp
  obtain ⟨hi, -⟩ := List.getElem?_eq_some_iff.mp h
  have count := countP_of_parse hp
  have visible : (r.text.toList.eraseIdx i).countP (fun c => !isBlank c) = (r.text.toList.eraseIdx i).length := by
    rw [List.countP_eq_length]
    intro d hd
    rw [r.isBlank_text (List.mem_of_mem_eraseIdx hd)]
    rfl
  rw [String.toList_ofList, visible, List.length_eraseIdx, if_pos hi, String.length_toList, length_text] at count
  omega

end

theorem exists_error_iff {s : String} : (∃ e, parse s = .error e) ↔ ∀ r, parse s ≠ .ok r := by
  cases parse s with
  | error e => simp
  | ok r => simp

/-- **Damage to one character is noticed.** A record whose text has another character at one place is refused, unless
that is the digit in lower case. A record whose text has lost a character is refused. -/
theorem damage_is_noticed (r : HexRecord) (i : Nat) (old : Char) (h : r.text.toList[i]? = some old) :
    (∀ c, (∃ e, parse (String.ofList (r.text.toList.set i c)) = .error e) ↔ c ≠ old ∧ c ≠ old.toLower) ∧
    ∃ e, parse (String.ofList (r.text.toList.eraseIdx i)) = .error e := by
  refine ⟨fun c => ?_, exists_error_iff.mpr fun _ => not_parse_eraseIdx h⟩
  have same := toUpper_eq_iff_of_upper (c := c) (r.toUpper_text (List.mem_of_getElem? h))
  rw [exists_error_iff, ← not_or, ← same]
  exact ⟨fun refused hc => refused r (parse_set_same h hc), fun hc _ hp => hc (toUpper_of_parse_set h hp)⟩

/-- A blank in place of the last digit is trimmed away, so the line is refused as if the digit were lost. -/
theorem damage_is_noticed_at_end : endOfFile.text.toList[10]? = some 'F' ∧
    (∃ e, parse ":00000001F " = .error e) ∧ ∃ e, parse ":00000001F" = .error e := by
  have last : endOfFile.text.toList[10]? = some 'F' := by decide
  have noticed := damage_is_noticed endOfFile 10 'F' last
  exact ⟨last, (noticed.1 ' ').mpr (by decide), noticed.2⟩

end HexRecord

end T21
