import T21.Proofs.Utf8

/-!
# Replacement characters

The decoder writes a character either for the bytes that encode it or as a replacement for bytes that encode nothing.
So a decoded text without a replacement character stands for its own encoding, and bytes that are no encoding leave a
replacement character behind.
-/

namespace T21.Text.Utf8

/-! ## Encoded characters as numbers -/

theorem toNat_encodeChar {v : Nat} (valid : v < 0xD800 ∨ 0xDFFF < v ∧ v < 0x110000) :
    (String.utf8EncodeChar (Char.ofNat v)).map UInt8.toNat =
      if v ≤ 0x7F then [v]
      else if v ≤ 0x7FF then [v / 64 + 0xC0, v % 64 + 0x80]
      else if v ≤ 0xFFFF then [v / 4096 + 0xE0, v / 64 % 64 + 0x80, v % 64 + 0x80]
      else [v / 262144 + 0xF0, v / 4096 % 64 + 0x80, v / 64 % 64 + 0x80, v % 64 + 0x80] := by
  have hv : (Char.ofNat v).val.toNat = v := by
    rw [Char.ofNat, dif_pos valid]
    rfl
  unfold String.utf8EncodeChar
  rw [hv]
  by_cases h1 : v ≤ 0x7F
  · simp [h1]
    omega
  by_cases h2 : v ≤ 0x7FF
  · simp [h1, h2]
    omega
  by_cases h3 : v ≤ 0xFFFF
  · simp [h1, h2, h3]
    omega
  · simp [h1, h2, h3]
    omega

/-! ## First bytes -/

theorem lead_eq_inr {a : Nat} {p : Pending} (h : lead a = .inr p) : p.LeftBy a := by
  obtain hl | ⟨-, hl⟩ | ⟨q, hl, hq⟩ := lead_cases a <;> rw [hl] at h <;> cases h
  exact hq

theorem lead_eq_inl {a : Nat} {c : Char} (h : lead a = .inl c) : c = replacement ∨ a < 0x80 ∧ c = Char.ofNat a := by
  obtain hl | ⟨ha, hl⟩ | ⟨q, hl, -⟩ := lead_cases a <;> rw [hl] at h <;> cases h
  · exact .inl rfl
  · exact .inr ⟨ha, rfl⟩

/-! ## Sequences under way -/

inductive Begun : List UInt8 → Pending → Prop
  | lead {a : UInt8} {p : Pending} : lead a.toNat = .inr p → Begun [a] p
  | more {bytes : List UInt8} {b : UInt8} {p : Pending} {n : Nat} : Begun bytes p →
      p.lo ≤ b.toNat ∧ b.toNat ≤ p.hi → p.after = n + 1 →
      Begun (bytes ++ [b]) ⟨0x80, 0xBF, n, p.value * 64 + (b.toNat - 0x80)⟩

theorem Begun.length_le {bytes : List UInt8} {p : Pending} (h : Begun bytes p) :
    0 < bytes.length ∧ bytes.length + p.after ≤ 3 := by
  induction h with
  | lead hl =>
    have := lead_eq_inr hl
    simp only [Pending.LeftBy, List.length_singleton] at this ⊢
    omega
  | more _ _ ha ih =>
    simp only [List.length_append, List.length_singleton]
    omega

theorem Begun.encodeChar {bytes : List UInt8} {p : Pending} (h : Begun bytes p) (ha : p.after = 0) {b : UInt8}
    (hb : p.lo ≤ b.toNat ∧ b.toNat ≤ p.hi) :
    String.utf8EncodeChar (Char.ofNat (p.value * 64 + (b.toNat - 0x80))) = bytes ++ [b] := by
  rw [← List.map_inj_right (f := UInt8.toNat) fun _ _ => UInt8.toNat_inj.mp]
  cases h with
  | lead hl =>
    have hp := lead_eq_inr hl
    rw [Pending.LeftBy] at hp
    rw [toNat_encodeChar (by omega), if_neg (by omega), if_pos (by omega)]
    simp
    omega
  | @more front c q n h hc hn =>
    cases h with
    | lead hl =>
      have hq := lead_eq_inr hl
      rw [Pending.LeftBy] at hq
      dsimp only at ha hb ⊢
      rw [toNat_encodeChar (by omega), if_neg (by omega), if_neg (by omega), if_pos (by omega)]
      simp
      omega
    | @more front d r m h hd hm =>
      cases h with
      | lead hl =>
        have hr := lead_eq_inr hl
        rw [Pending.LeftBy] at hr
        dsimp only at ha hb hc hn ⊢
        rw [toNat_encodeChar (by omega), if_neg (by omega), if_neg (by omega), if_neg (by omega)]
        simp
        omega
      | more h _ ha' =>
        -- a fifth byte is never awaited
        have := h.length_le
        dsimp only at ha hn hm
        omega

/-! ## The decoder -/

/-- Unless something has been replaced, the text and the character under way account for all bytes read. -/
def Decoder.Faithful (bytes : List UInt8) (d : Decoder) : Prop :=
  replacement ∈ d.text ∨ ∃ rest, bytes = d.text.toList.flatMap String.utf8EncodeChar ++ rest ∧
    d.pending.elim (rest = []) (Begun rest)

namespace Decoder
variable {bytes : List UInt8} {d : Decoder}

theorem mem_begin_of_mem {c : Char} (h : c ∈ d.text) (b : Nat) : c ∈ (d.begin b).text := by
  unfold begin
  cases lead b with
  | inl c' => exact Array.mem_push.mpr (.inl h)
  | inr p => exact h

theorem mem_feed_of_mem {c : Char} (h : c ∈ d.text) (b : UInt8) : c ∈ (d.feed b).text := by
  obtain ⟨-, he⟩ | ⟨p, -, ⟨-, -, he⟩ | ⟨-, -, he⟩ | ⟨-, he⟩⟩ := d.feed_cases b <;> rw [he]
  · exact mem_begin_of_mem h _
  · exact Array.mem_push.mpr (.inl h)
  · exact h
  · exact mem_begin_of_mem (Array.mem_push.mpr (.inl h)) _

theorem Faithful.begin (h : Faithful bytes d) (hp : d.pending = none) (b : UInt8) :
    Faithful (bytes ++ [b]) (d.begin b.toNat) := by
  rcases h with h | ⟨rest, hbytes, hrest⟩
  · exact .inl (mem_begin_of_mem h _)
  rw [hp] at hrest
  cases hrest
  rw [Decoder.begin]
  cases hl : lead b.toNat with
  | inr p => exact .inr ⟨[b], by rw [hbytes, List.append_nil], .lead hl⟩
  | inl c =>
    rcases lead_eq_inl hl with rfl | ⟨hb, rfl⟩
    · exact .inl Array.mem_push_self
    · have ascii : String.utf8EncodeChar (Char.ofNat b.toNat) = [b] := by
        rw [← List.map_inj_right (f := UInt8.toNat) fun _ _ => UInt8.toNat_inj.mp, toNat_encodeChar (by omega),
          if_pos (by omega)]
        rfl
      exact .inr ⟨[], by simp [hbytes, push, ascii], rfl⟩

theorem Faithful.feed (h : Faithful bytes d) (b : UInt8) : Faithful (bytes ++ [b]) (d.feed b) := by
  cases hp : d.pending with
  | none =>
    have he : d.feed b = d.begin b.toNat := by simp [Decoder.feed, hp]
    rw [he]
    exact h.begin hp b
  | some p =>
    rcases h with h | ⟨rest, hbytes, hrest⟩
    · exact .inl (mem_feed_of_mem h b)
    rw [hp] at hrest
    by_cases hb : p.lo ≤ b.toNat ∧ b.toNat ≤ p.hi
    · by_cases ha : p.after = 0
      · have he : d.feed b = d.push (Char.ofNat (p.value * 64 + (b.toNat - 0x80))) := by
          simp [Decoder.feed, hp, hb, ha]
        have hc := Begun.encodeChar hrest ha hb
        rw [he]
        exact .inr ⟨[], by simp [hbytes, push, hc], rfl⟩
      · obtain ⟨n, hn⟩ := Nat.exists_eq_succ_of_ne_zero ha
        have he : d.feed b = { d with pending := some ⟨0x80, 0xBF, n, p.value * 64 + (b.toNat - 0x80)⟩ } := by
          simp [Decoder.feed, hp, hb, hn]
        rw [he]
        exact .inr ⟨rest ++ [b], by simp [hbytes], .more hrest hb hn⟩
    · have he : d.feed b = (d.push replacement).begin b.toNat := by simp [Decoder.feed, hp, hb]
      rw [he]
      exact .inl (mem_begin_of_mem Array.mem_push_self _)

theorem Faithful.foldl_feed : ∀ (more : List UInt8) {bytes : List UInt8} {d : Decoder}, Faithful bytes d →
    Faithful (bytes ++ more) (more.foldl Decoder.feed d)
  | [], _, _, h => by simpa using h
  | b :: more, bytes, _, h => by simpa using Faithful.foldl_feed more (h.feed b)

end Decoder

theorem encode_decode {bytes : List UInt8} (h : replacement ∉ (decode bytes).toList) :
    encode (decode bytes) = bytes := by
  have start : Decoder.Faithful [] {} := .inr ⟨[], rfl, rfl⟩
  have read := start.foldl_feed bytes
  rw [List.nil_append] at read
  rw [encode, toList_decode, Decoder.finish]
  rw [toList_decode, Decoder.finish] at h
  cases hp : (bytes.foldl Decoder.feed {}).pending with
  | some p => simp [hp, Decoder.push] at h
  | none =>
    simp only [hp, Array.mem_toList_iff] at h
    obtain hr | ⟨rest, hbytes, hrest⟩ := read
    · exact absurd hr h
    · rw [hp] at hrest
      cases hrest
      rw [List.append_nil] at hbytes
      exact hbytes.symm

theorem replacement_mem_decode {bytes : List UInt8} (h : ∀ text, encode text ≠ bytes) :
    replacement ∈ (decode bytes).toList := by
  apply Decidable.byContradiction
  intro hno
  exact h _ (encode_decode hno)

end T21.Text.Utf8
