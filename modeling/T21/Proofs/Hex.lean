import T21.Proofs.Text

/-!
# Reading hexadecimal

A run of digits is read as the bytes whose upper-case digits it spells, and as nothing else. So reading undoes
writing, and writing undoes reading up to the case of the digits. Read as a number, the digits of bytes are the number
that the bytes stand for.
-/

namespace T21.Text.Hex

/-! ## Digits -/

theorem toNat_ofNat {n : Nat} (h : n < 0xD800) : (Char.ofNat n).toNat = n := by
  unfold Char.ofNat
  rw [dif_pos (.inl h)]
  rfl

theorem toNat_digit {n : Nat} (h : n < 16) : (digit n).toNat = if n < 10 then n + 0x30 else n + 0x37 := by
  unfold digit
  split
  · exact toNat_ofNat (by omega)
  · exact toNat_ofNat (by omega)

theorem digitValue?_eq_some_iff {c : Char} {n : Nat} :
    digitValue? c = some n ↔ n < 16 ∧ c.toUpper = digit n := by
  have value : digitValue? c =
      if 0x30 ≤ c.toNat ∧ c.toNat ≤ 0x39 then some (c.toNat - 0x30)
      else if 0x41 ≤ c.toNat ∧ c.toNat ≤ 0x46 then some (c.toNat - 0x37)
      else if 0x61 ≤ c.toNat ∧ c.toNat ≤ 0x66 then some (c.toNat - 0x57)
      else none := rfl
  rw [value]
  constructor
  · intro h
    have hn : n < 16 := by grind
    refine ⟨hn, ?_⟩
    rw [← Char.toNat_inj, toNat_toUpper, toNat_digit hn]
    grind
  · rintro ⟨hn, h⟩
    rw [← Char.toNat_inj, toNat_toUpper, toNat_digit hn] at h
    grind

theorem toUpper_digit {n : Nat} (h : n < 16) : (digit n).toUpper = digit n := by
  revert n
  decide

theorem isBlank_digit {n : Nat} (h : n < 16) : isBlank (digit n) = false := by
  revert n
  decide

def IsDigit (c : Char) : Prop :=
  '0' ≤ c ∧ c ≤ '9' ∨ 'A' ≤ c ∧ c ≤ 'F' ∨ 'a' ≤ c ∧ c ≤ 'f'

theorem isSome_digitValue? {c : Char} : (digitValue? c).isSome ↔ IsDigit c := by
  unfold digitValue? IsDigit
  split
  · simp [*]
  · split
    · simp [*]
    · split <;> simp [*]

/-! ## Bytes -/

/-- Reads pairs of digits; an odd digit or any other character is refused. -/
def bytes? : List Char → Option (List UInt8)
  | [] => some []
  | [_] => none
  | h :: l :: rest => do
    let hi ← digitValue? h
    let lo ← digitValue? l
    let bytes ← bytes? rest
    return UInt8.ofNat (16 * hi + lo) :: bytes

theorem byte_ofNat {hi lo : Nat} (h : hi < 16) (l : lo < 16) :
    byte (UInt8.ofNat (16 * hi + lo)) = [digit hi, digit lo] := by
  have value : (UInt8.ofNat (16 * hi + lo)).toNat = 16 * hi + lo :=
    UInt8.toNat_ofNat_of_lt' (show _ < 256 by omega)
  have high : (16 * hi + lo) / 16 = hi := by omega
  have low : (16 * hi + lo) % 16 = lo := by omega
  rw [byte, value, high, low]

theorem length_flatMap_byte (bytes : List UInt8) : (bytes.flatMap byte).length = 2 * bytes.length := by
  induction bytes with
  | nil => rfl
  | cons b bytes ih =>
    rw [List.flatMap_cons, List.length_append, ih]
    simp only [byte, List.length_cons, List.length_nil]
    omega

theorem mem_byte {b : UInt8} {c : Char} (h : c ∈ byte b) : ∃ n < 16, c = digit n := by
  have hb := b.toNat_lt
  simp only [byte, List.mem_cons, List.not_mem_nil, or_false] at h
  rcases h with rfl | rfl
  · exact ⟨_, by omega, rfl⟩
  · exact ⟨_, by omega, rfl⟩

theorem mem_flatMap_byte {bytes : List UInt8} {c : Char} (h : c ∈ bytes.flatMap byte) : ∃ n < 16, c = digit n := by
  obtain ⟨b, -, hc⟩ := List.mem_flatMap.mp h
  exact mem_byte hc

theorem upper_flatMap_byte (bytes : List UInt8) : upper (bytes.flatMap byte) = bytes.flatMap byte := by
  apply upper_eq_self
  intro c hc
  obtain ⟨n, hn, rfl⟩ := mem_flatMap_byte hc
  exact toUpper_digit hn

theorem bytes?_cons_cons {h l : Char} {rest : List Char} {bytes : List UInt8} :
    bytes? (h :: l :: rest) = some bytes ↔ ∃ hi lo tail, digitValue? h = some hi ∧ digitValue? l = some lo ∧
      bytes? rest = some tail ∧ bytes = UInt8.ofNat (16 * hi + lo) :: tail := by
  simp only [bytes?, bind, Option.bind_eq_some_iff, pure, Option.some.injEq]
  constructor
  · rintro ⟨hi, hh, lo, hl, tail, hr, rfl⟩
    exact ⟨hi, lo, tail, hh, hl, hr, rfl⟩
  · rintro ⟨hi, lo, tail, hh, hl, hr, rfl⟩
    exact ⟨hi, hh, lo, hl, tail, hr, rfl⟩

theorem bytes?_eq_some_iff : ∀ {cs : List Char} {bytes : List UInt8},
    bytes? cs = some bytes ↔ upper cs = bytes.flatMap byte
  | [], bytes => by
    cases bytes <;> simp [bytes?, upper, byte]
  | [c], bytes => by
    cases bytes <;> simp [bytes?, upper, byte]
  | h :: l :: rest, bytes => by
    rw [bytes?_cons_cons]
    constructor
    · rintro ⟨hi, lo, tail, hh, hl, hr, rfl⟩
      obtain ⟨hhi, eh⟩ := digitValue?_eq_some_iff.mp hh
      obtain ⟨hlo, el⟩ := digitValue?_eq_some_iff.mp hl
      have er : upper rest = tail.flatMap byte := bytes?_eq_some_iff.mp hr
      rw [List.flatMap_cons, byte_ofNat hhi hlo, ← er, ← eh, ← el]
      rfl
    · intro e
      cases bytes with
      | nil => cases e
      | cons b tail =>
        have hb := b.toNat_lt
        obtain ⟨eh, e⟩ := List.cons.inj e
        obtain ⟨el, er⟩ := List.cons.inj e
        refine ⟨b.toNat / 16, b.toNat % 16, tail, digitValue?_eq_some_iff.mpr ⟨by omega, eh⟩,
          digitValue?_eq_some_iff.mpr ⟨by omega, el⟩, bytes?_eq_some_iff.mpr er, ?_⟩
        rw [Nat.div_add_mod, UInt8.ofNat_toNat]

theorem isSome_bytes? : ∀ {cs : List Char}, (bytes? cs).isSome ↔ (∀ c ∈ cs, IsDigit c) ∧ cs.length % 2 = 0
  | [] => by simp [bytes?]
  | [c] => by simp [bytes?]
  | h :: l :: rest => by
    have pair : (bytes? (h :: l :: rest)).isSome ↔
        (digitValue? h).isSome ∧ (digitValue? l).isSome ∧ (bytes? rest).isSome := by
      cases hh : digitValue? h <;> cases hl : digitValue? l <;> cases hr : bytes? rest <;> simp [bytes?, hh, hl, hr]
    have even : (h :: l :: rest).length % 2 = rest.length % 2 := by
      rw [List.length_cons, List.length_cons]
      omega
    rw [pair, isSome_digitValue?, isSome_digitValue?, isSome_bytes?, even]
    simp only [List.forall_mem_cons, and_assoc]

theorem take_drop_flatMap_byte {b : UInt8} : ∀ (bytes : List UInt8) (i : Nat), bytes[i]? = some b →
    ((bytes.flatMap byte).drop (2 * i)).take 2 = byte b
  | _ :: _, 0, rfl => rfl
  | _ :: bytes, i + 1, h => take_drop_flatMap_byte bytes i h

/-! ## Numbers -/

def value (bytes : List UInt8) : Nat :=
  bytes.foldl (fun n b => 256 * n + b.toNat) 0

theorem foldlM_digits : ∀ {bytes : List UInt8} {cs : List Char} {n : Nat}, upper cs = bytes.flatMap byte →
    cs.foldlM (fun n c => (digitValue? c).map (16 * n + ·)) n =
      some (bytes.foldl (fun n b => 256 * n + b.toNat) n)
  | [], [], _, _ => rfl
  | _ :: _, [_], _, e => by cases (List.cons.inj e).2
  | b :: bytes, h :: l :: rest, n, e => by
    have hb := b.toNat_lt
    obtain ⟨eh, e⟩ := List.cons.inj e
    obtain ⟨el, er⟩ := List.cons.inj e
    have hh : digitValue? h = some (b.toNat / 16) := digitValue?_eq_some_iff.mpr ⟨by omega, eh⟩
    have hl : digitValue? l = some (b.toNat % 16) := digitValue?_eq_some_iff.mpr ⟨by omega, el⟩
    have two : 16 * (16 * n + b.toNat / 16) + b.toNat % 16 = 256 * n + b.toNat := by omega
    rw [List.foldlM_cons, hh, Option.map_some, Option.bind_eq_bind, Option.bind_some, List.foldlM_cons, hl,
      Option.map_some, Option.bind_eq_bind, Option.bind_some, two, foldlM_digits er, List.foldl_cons]

/-- Digits that spell bytes have no sign before them and are read as the number that the bytes stand for. -/
theorem number?_eq {limit : Nat} {cs : List Char} {bytes : List UInt8} (h : upper cs = bytes.flatMap byte)
    (ne : bytes ≠ []) (fits : value bytes < limit) : number? limit cs = some (value bytes) := by
  have sign : ∀ n < 16, digit n ≠ '+' := by decide
  have unsigned : cs.head? ≠ some '+' := by
    intro e
    have first : '+' ∈ bytes.flatMap byte := by
      rw [← h]
      exact List.mem_map.mpr ⟨'+', List.mem_of_head? e, by decide⟩
    obtain ⟨n, hn, e⟩ := mem_flatMap_byte first
    exact sign n hn e.symm
  have some_digit : cs ≠ [] := by
    intro e
    subst e
    cases bytes with
    | nil => exact ne rfl
    | cons b bytes => cases h
  simp only [number?, if_neg unsigned, if_neg some_digit, foldlM_digits h]
  exact Option.filter_some_pos (decide_eq_true fits)

theorem number?_byte {cs : List Char} {b : UInt8} (h : upper cs = byte b) : number? 256 cs = some b.toNat := by
  have digits : upper cs = [b].flatMap byte := by simpa using h
  have same : value [b] = b.toNat := by simp [value]
  rw [number?_eq digits (by simp) (by rw [same]; exact b.toNat_lt), same]

theorem byte?_eq {cs : List Char} {b : UInt8} (h : number? 256 cs = some b.toNat) : byte? cs = some b := by
  rw [byte?, h, Option.map_some, UInt8.ofNat_toNat]

theorem number?_two_bytes {cs : List Char} {high low : UInt8} (h : upper cs = byte high ++ byte low) :
    number? 65536 cs = some (256 * high.toNat + low.toNat) := by
  have digits : upper cs = [high, low].flatMap byte := by simpa using h
  have same : value [high, low] = 256 * high.toNat + low.toNat := by simp [value]
  have hh := high.toNat_lt
  have hl := low.toNat_lt
  rw [number?_eq digits (by simp) (by rw [same]; omega), same]

end T21.Text.Hex
