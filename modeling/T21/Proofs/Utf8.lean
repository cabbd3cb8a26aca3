import T21.Text

/-!
# Decoding UTF-8

What the decoder has written does not bear on what it reads next, and a byte below `0x80` ends whatever
character is under way. So decoding starts afresh after every such byte, whether or not the bytes before it are
well formed, and ASCII characters come from nowhere else. On the bytes of a text it gives the text back.
-/

namespace T21.Text.Utf8

/-! ## Characters under way -/

/-- Only continuation bytes go on with the character, and whatever comes out of it lies above ASCII: the least
next byte makes up such a value if it is the last, and a value of at least two if another follows. -/
structure Pending.Sound (p : Pending) : Prop where
  continuation : 0x80 ≤ p.lo
  aboveAscii : p.after = 0 → 0x80 ≤ p.value * 64 + (p.lo - 0x80)
  atLeastTwo : 2 ≤ p.value * 64 + (p.lo - 0x80)

/-- What the first byte of a sequence leaves to the bytes behind it. -/
def Pending.LeftBy (p : Pending) (a : Nat) : Prop :=
  (p.after = 0 ∧ 0xC2 ≤ a ∧ a < 0xE0 ∧ p.value = a - 0xC0 ∧ p.lo = 0x80 ∧ p.hi = 0xBF) ∨
  (p.after = 1 ∧ 0xE0 ≤ a ∧ a < 0xF0 ∧ p.value = a - 0xE0 ∧ 0x80 ≤ p.lo ∧ p.hi ≤ 0xBF ∧
    (a = 0xE0 → 0xA0 ≤ p.lo) ∧ (a = 0xED → p.hi ≤ 0x9F)) ∨
  (p.after = 2 ∧ 0xF0 ≤ a ∧ a < 0xF5 ∧ p.value = a - 0xF0 ∧ 0x80 ≤ p.lo ∧ p.hi ≤ 0xBF ∧
    (a = 0xF0 → 0x90 ≤ p.lo) ∧ (a = 0xF4 → p.hi ≤ 0x8F))

theorem lead_cases (a : Nat) :
    lead a = .inl replacement ∨ (a < 0x80 ∧ lead a = .inl (Char.ofNat a)) ∨ ∃ p, lead a = .inr p ∧ p.LeftBy a := by
  generalize h : lead a = r
  unfold lead at h
  split at h
  · exact .inr (.inl ⟨‹_›, h.symm⟩)
  split at h
  · exact .inl h.symm
  iterate 7
    split at h
    · refine .inr (.inr ⟨_, h.symm, ?_⟩)
      dsimp only [Pending.LeftBy]
      omega
  exact .inl h.symm

theorem Pending.LeftBy.sound {p : Pending} {a : Nat} (h : p.LeftBy a) : p.Sound := by
  unfold LeftBy at h
  constructor <;> omega

theorem Pending.Sound.last {p : Pending} (h : p.Sound) {b : Nat} (hb : p.lo ≤ b) (ha : p.after = 0) :
    0x80 ≤ p.value * 64 + (b - 0x80) := by
  have := h.aboveAscii ha
  omega

theorem Pending.Sound.next {p : Pending} (h : p.Sound) {b : Nat} (hb : p.lo ≤ b) :
    Pending.Sound ⟨0x80, 0xBF, p.after - 1, p.value * 64 + (b - 0x80)⟩ := by
  have := h.atLeastTwo
  constructor <;> dsimp only <;> omega

/-- A number that is no code point gives the null character; any other character comes from its own number. -/
theorem eq_of_ofNat_eq {n : Nat} {c : Char} (h : Char.ofNat n = c) (hc : c.toNat ≠ 0) : n = c.toNat := by
  by_cases hn : n.isValidChar
  · rw [← h, Char.ofNat, dif_pos hn]
    rfl
  · rw [← h, Char.ofNat, dif_neg hn] at hc
    exact absurd rfl hc

theorem replacement_not_ascii : ¬ replacement.toNat < 0x80 := by decide

theorem eq_of_lead_eq {b : Nat} {c : Char} (h : lead b = .inl c) (hc : c.toNat ≠ 0) (ascii : c.toNat < 0x80) :
    b = c.toNat := by
  obtain hl | ⟨-, hl⟩ | ⟨p, hl, -⟩ := lead_cases b <;> rw [hl] at h
  · rw [← Sum.inl.inj h] at ascii
    exact absurd ascii replacement_not_ascii
  · exact eq_of_ofNat_eq (Sum.inl.inj h) hc
  · cases h

/-! ## First bytes of encoded characters -/

theorem lead_two {v : Nat} (lo : 0x7F < v) (hi : v ≤ 0x7FF) :
    lead (v / 64 % 32 + 192) = .inr ⟨0x80, 0xBF, 0, v / 64⟩ := by
  unfold lead
  have value : v / 64 % 32 + 192 - 0xC0 = v / 64 := by omega
  rw [if_neg (by omega), if_neg (by omega), if_pos (by omega), value]

theorem lead_three {v : Nat} (lo : 0x7FF < v) (hi : v ≤ 0xFFFF) (valid : v < 0xD800 ∨ 0xDFFF < v) :
    ∃ p, lead (v / 4096 % 16 + 224) = .inr p ∧ p.after = 1 ∧ p.value = v / 4096 ∧
      p.lo ≤ v / 64 % 64 + 128 ∧ v / 64 % 64 + 128 ≤ p.hi := by
  unfold lead
  rw [if_neg (by omega), if_neg (by omega), if_neg (by omega)]
  split
  · refine ⟨_, rfl, rfl, ?_, ?_, ?_⟩ <;> dsimp only <;> omega
  · split
    · refine ⟨_, rfl, rfl, ?_, ?_, ?_⟩ <;> dsimp only <;> omega
    · rw [if_pos (by omega)]
      refine ⟨_, rfl, rfl, ?_, ?_, ?_⟩ <;> dsimp only <;> omega

theorem lead_four {v : Nat} (lo : 0xFFFF < v) (hi : v < 0x110000) :
    ∃ p, lead (v / 262144 % 8 + 240) = .inr p ∧ p.after = 2 ∧ p.value = v / 262144 ∧
      p.lo ≤ v / 4096 % 64 + 128 ∧ v / 4096 % 64 + 128 ≤ p.hi := by
  unfold lead
  rw [if_neg (by omega), if_neg (by omega), if_neg (by omega), if_neg (by omega), if_neg (by omega),
    if_neg (by omega)]
  split
  · refine ⟨_, rfl, rfl, ?_, ?_, ?_⟩ <;> dsimp only <;> omega
  · split
    · refine ⟨_, rfl, rfl, ?_, ?_, ?_⟩ <;> dsimp only <;> omega
    · rw [if_pos (by omega)]
      refine ⟨_, rfl, rfl, ?_, ?_, ?_⟩ <;> dsimp only <;> omega

/-! ## One byte -/

namespace Decoder

def Sound (d : Decoder) : Prop := ∀ p, d.pending = some p → p.Sound

theorem sound_push (d : Decoder) (c : Char) : (d.push c).Sound := by
  intro p hp
  cases hp

theorem sound_begin (d : Decoder) (b : Nat) : (d.begin b).Sound := by
  obtain h | ⟨-, h⟩ | ⟨p, h, hp⟩ := lead_cases b <;> rw [begin, h]
  · exact d.sound_push _
  · exact d.sound_push _
  · intro q hq
    cases hq
    exact hp.sound

theorem feed_cases (d : Decoder) (byte : UInt8) :
    (d.pending = none ∧ d.feed byte = d.begin byte.toNat) ∨
    ∃ p, d.pending = some p ∧
      ((p.lo ≤ byte.toNat ∧ p.after = 0 ∧
          d.feed byte = d.push (Char.ofNat (p.value * 64 + (byte.toNat - 0x80)))) ∨
        (p.lo ≤ byte.toNat ∧ p.after ≠ 0 ∧
          d.feed byte =
            { d with pending := some ⟨0x80, 0xBF, p.after - 1, p.value * 64 + (byte.toNat - 0x80)⟩ }) ∨
        (¬ (p.lo ≤ byte.toNat ∧ byte.toNat ≤ p.hi) ∧
          d.feed byte = (d.push replacement).begin byte.toNat)) := by
  unfold feed
  cases d.pending with
  | none => exact .inl ⟨rfl, rfl⟩
  | some p =>
    refine .inr ⟨p, rfl, ?_⟩
    by_cases hb : p.lo ≤ byte.toNat ∧ byte.toNat ≤ p.hi
    · by_cases ha : p.after = 0
      · exact .inl ⟨hb.1, ha, by simp only [if_pos hb, if_pos ha]⟩
      · exact .inr (.inl ⟨hb.1, ha, by simp only [if_pos hb, if_neg ha]⟩)
    · exact .inr (.inr ⟨hb, by simp only [if_neg hb]⟩)

theorem Sound.feed {d : Decoder} (h : d.Sound) (byte : UInt8) : (d.feed byte).Sound := by
  obtain ⟨-, he⟩ | ⟨p, hp, ⟨-, -, he⟩ | ⟨hb, -, he⟩ | ⟨-, he⟩⟩ := d.feed_cases byte <;> rw [he]
  · exact sound_begin _ _
  · exact sound_push _ _
  · intro q hq
    cases hq
    exact (h p hp).next hb
  · exact sound_begin _ _

/-- An ASCII byte ends the character under way, complete or not, and stands for itself. -/
theorem Sound.feed_ascii {d : Decoder} (h : d.Sound) {byte : UInt8} (hb : byte.toNat < 0x80) :
    d.feed byte = d.finish.push (Char.ofNat byte.toNat) := by
  have begun : ∀ d : Decoder, d.begin byte.toNat = d.push (Char.ofNat byte.toNat) := by
    intro d
    rw [begin, lead, if_pos hb]
  obtain ⟨hp, he⟩ | ⟨p, hp, ⟨hlo, -, -⟩ | ⟨hlo, -, -⟩ | ⟨-, he⟩⟩ := d.feed_cases byte
  · rw [he, finish, hp, begun]
  · exact absurd (Nat.le_trans (h p hp).continuation hlo) (Nat.not_le.mpr hb)
  · exact absurd (Nat.le_trans (h p hp).continuation hlo) (Nat.not_le.mpr hb)
  · rw [he, finish, hp, begun]

section
variable {c : Char} (hc : c.toNat ≠ 0) (ascii : c.toNat < 0x80)
include hc ascii

theorem mem_begin {d : Decoder} {b : Nat} (h : c ∈ (d.begin b).text) : c ∈ d.text ∨ b = c.toNat := by
  unfold begin at h
  cases hl : lead b with
  | inr p => rw [hl] at h; exact .inl h
  | inl c' =>
    rw [hl] at h
    rcases Array.mem_push.mp h with h | rfl
    · exact .inl h
    · exact .inr (eq_of_lead_eq hl hc ascii)

theorem Sound.mem_feed {d : Decoder} (hd : d.Sound) {byte : UInt8} (h : c ∈ (d.feed byte).text) :
    c ∈ d.text ∨ byte.toNat = c.toNat := by
  obtain ⟨-, he⟩ | ⟨p, hp, ⟨hb, ha, he⟩ | ⟨-, -, he⟩ | ⟨-, he⟩⟩ := d.feed_cases byte <;> rw [he] at h
  · exact mem_begin hc ascii h
  · rcases Array.mem_push.mp h with h | h
    · exact .inl h
    · have hv := (hd p hp).last hb ha
      rw [eq_of_ofNat_eq h.symm hc] at hv
      exact absurd ascii (Nat.not_lt.mpr hv)
  · exact .inl h
  · rcases mem_begin hc ascii h with h | h
    · rcases Array.mem_push.mp h with h | rfl
      · exact .inl h
      · exact absurd ascii replacement_not_ascii
    · exact .inr h

theorem Sound.mem_foldl_feed : ∀ {bytes : List UInt8} {d : Decoder}, d.Sound →
    c ∈ (bytes.foldl Decoder.feed d).text → c ∈ d.text ∨ ∃ b ∈ bytes, b.toNat = c.toNat
  | [], _, _, h => .inl h
  | b :: bytes, _, hd, h => by
    rcases Sound.mem_foldl_feed (hd.feed b) h with h | ⟨b', hb', e⟩
    · rcases hd.mem_feed hc ascii h with h | e
      · exact .inl h
      · exact .inr ⟨b, List.mem_cons_self, e⟩
    · exact .inr ⟨b', List.mem_cons_of_mem _ hb', e⟩

end

theorem finish_feed_ne_empty (d : Decoder) (byte : UInt8) : (d.feed byte).finish.text ≠ #[] := by
  have begun : ∀ (d : Decoder) (b : Nat), (d.begin b).finish.text ≠ #[] := by
    intro d b
    unfold begin
    cases lead b <;> simp [finish, push]
  obtain ⟨-, he⟩ | ⟨p, -, ⟨-, -, he⟩ | ⟨-, -, he⟩ | ⟨-, he⟩⟩ := d.feed_cases byte <;> rw [he]
  · exact begun _ _
  · simp [finish, push]
  · simp [finish, push]
  · exact begun _ _

/-! ## What is written already -/

def behind (front : Array Char) (d : Decoder) : Decoder := { d with text := front ++ d.text }

theorem push_behind (front : Array Char) (d : Decoder) (c : Char) :
    (d.behind front).push c = (d.push c).behind front := by
  simp [push, behind]

theorem begin_behind (front : Array Char) (d : Decoder) (b : Nat) :
    (d.behind front).begin b = (d.begin b).behind front := by
  unfold begin
  cases lead b with
  | inl c => exact push_behind front d c
  | inr p => rfl

theorem feed_behind (front : Array Char) (d : Decoder) (byte : UInt8) :
    (d.behind front).feed byte = (d.feed byte).behind front := by
  have same : (d.behind front).pending = d.pending := rfl
  unfold feed
  rw [same]
  cases d.pending with
  | none => exact begin_behind front d _
  | some p =>
    simp only
    split
    · split
      · exact push_behind front d _
      · rfl
    · rw [push_behind, begin_behind]

theorem finish_behind (front : Array Char) (d : Decoder) :
    (d.behind front).finish = d.finish.behind front := by
  have same : (d.behind front).pending = d.pending := rfl
  unfold finish
  rw [same]
  cases d.pending with
  | none => rfl
  | some p => exact push_behind front d _

/-! ## Runs -/

theorem foldl_feed_behind (front : Array Char) : ∀ (bytes : List UInt8) (d : Decoder),
    bytes.foldl feed (d.behind front) = (bytes.foldl feed d).behind front
  | [], _ => rfl
  | b :: bytes, d => by rw [List.foldl_cons, feed_behind, foldl_feed_behind front bytes, List.foldl_cons]

theorem Sound.foldl_feed : ∀ {d : Decoder} (bytes : List UInt8), d.Sound → (bytes.foldl Decoder.feed d).Sound
  | _, [], h => h
  | _, b :: bytes, h => Sound.foldl_feed bytes (h.feed b)

theorem sound_empty : ({} : Decoder).Sound := by
  intro p hp
  cases hp

/-! ## Encoded characters -/

section
variable (text : Array Char) {p : Pending} {b : Nat}

theorem feed_lead (hb : b < 256) (h : lead b = .inr p) : feed ⟨text, none⟩ (UInt8.ofNat b) = ⟨text, some p⟩ := by
  simp only [feed, UInt8.toNat_ofNat_of_lt' hb, begin, h]

theorem feed_more {n : Nat} (hb : b < 256) (h : p.lo ≤ b ∧ b ≤ p.hi) (ha : p.after = n + 1) :
    feed ⟨text, some p⟩ (UInt8.ofNat b) = ⟨text, some ⟨0x80, 0xBF, n, p.value * 64 + (b - 0x80)⟩⟩ := by
  simp [feed, UInt8.toNat_ofNat_of_lt' hb, h, ha]

theorem feed_last (hb : b < 256) (h : p.lo ≤ b ∧ b ≤ p.hi) (ha : p.after = 0) :
    feed ⟨text, some p⟩ (UInt8.ofNat b) = ⟨text.push (Char.ofNat (p.value * 64 + (b - 0x80))), none⟩ := by
  simp [feed, UInt8.toNat_ofNat_of_lt' hb, h, ha, push]

end

/-- The four lengths of an encoded character, each read back by the branch of `lead` that expects it. -/
theorem foldl_feed_encodeChar (text : Array Char) (c : Char) :
    (String.utf8EncodeChar c).foldl feed ⟨text, none⟩ = ⟨text.push c, none⟩ := by
  have valid : c.toNat < 0xD800 ∨ 0xDFFF < c.toNat ∧ c.toNat < 0x110000 := c.valid
  have same : Char.ofNat c.toNat = c := c.ofNat_toNat
  have hv : c.val.toNat = c.toNat := rfl
  unfold String.utf8EncodeChar
  rw [hv]
  -- from here on only the number of the character matters
  generalize c.toNat = v at valid same
  by_cases h1 : v ≤ 0x7F
  · have : lead v = .inl c := by rw [lead, if_pos (by omega), same]
    simp [h1, feed, begin, this, push, UInt8.toNat_ofNat_of_lt' (show v < 2 ^ 8 by omega)]
  by_cases h2 : v ≤ 0x7FF
  · have value : v / 64 * 64 + (v % 64 + 128 - 0x80) = v := by omega
    simp only [h1, h2, ite_true, ite_false, List.foldl_cons, List.foldl_nil]
    rw [feed_lead text (by omega) (lead_two (by omega) h2), feed_last text (by omega) (by dsimp only; omega) rfl,
      value, same]
  by_cases h3 : v ≤ 0xFFFF
  · obtain ⟨p, hl, ha, hp, hb⟩ := lead_three (by omega) h3 (by omega)
    have value : (v / 4096 * 64 + (v / 64 % 64 + 128 - 0x80)) * 64 + (v % 64 + 128 - 0x80) = v := by omega
    simp only [h1, h2, h3, ite_true, ite_false, List.foldl_cons, List.foldl_nil]
    rw [feed_lead text (by omega) hl, feed_more text (by omega) hb ha,
      feed_last text (by omega) (by dsimp only; omega) rfl, hp, value, same]
  · obtain ⟨p, hl, ha, hp, hb⟩ := lead_four (v := v) (by omega) (by omega)
    have value : ((v / 262144 * 64 + (v / 4096 % 64 + 128 - 0x80)) * 64 + (v / 64 % 64 + 128 - 0x80)) * 64 +
        (v % 64 + 128 - 0x80) = v := by omega
    simp only [h1, h2, h3, ite_false, List.foldl_cons, List.foldl_nil]
    rw [feed_lead text (by omega) hl, feed_more text (by omega) hb ha,
      feed_more text (by omega) (by dsimp only; omega) rfl,
      feed_last text (by omega) (by dsimp only; omega) rfl, hp, value, same]

theorem foldl_feed_encode : ∀ (cs : List Char) (text : Array Char),
    (cs.flatMap String.utf8EncodeChar).foldl feed ⟨text, none⟩ = ⟨text ++ cs, none⟩
  | [], text => by simp
  | c :: cs, text => by
    rw [List.flatMap_cons, List.foldl_append, foldl_feed_encodeChar, foldl_feed_encode cs]
    simp

end Decoder

/-! ## Whole sequences -/

theorem toList_decode (bytes : List UInt8) :
    (decode bytes).toList = (bytes.foldl Decoder.feed {}).finish.text.toList :=
  String.toList_ofList

/-- Decoding starts afresh after an ASCII byte. -/
theorem decode_append_ascii (xs ys : List UInt8) {b : UInt8} (hb : b.toNat < 0x80) :
    (decode (xs ++ b :: ys)).toList = (decode xs).toList ++ Char.ofNat b.toNat :: (decode ys).toList := by
  have sound := Decoder.sound_empty.foldl_feed xs
  have fresh : ∀ (d : Decoder) (c : Char), d.finish.push c = ({} : Decoder).behind (d.finish.text.push c) := by
    intro d c
    simp [Decoder.push, Decoder.behind]
  rw [toList_decode, toList_decode, toList_decode, List.foldl_append, List.foldl_cons, sound.feed_ascii hb,
    fresh, Decoder.foldl_feed_behind, Decoder.finish_behind]
  simp [Decoder.behind]

theorem mem_decode {bytes : List UInt8} {c : Char} (hc : c.toNat ≠ 0) (ascii : c.toNat < 0x80)
    (h : c ∈ (decode bytes).toList) : ∃ b ∈ bytes, b.toNat = c.toNat := by
  rw [toList_decode, Array.mem_toList_iff, Decoder.finish] at h
  have written : c ∈ (bytes.foldl Decoder.feed {}).text → ∃ b ∈ bytes, b.toNat = c.toNat := by
    intro hm
    rcases Decoder.sound_empty.mem_foldl_feed hc ascii hm with hm | hm
    · cases Array.not_mem_empty _ hm
    · exact hm
  split at h
  · exact written h
  · rcases Array.mem_push.mp h with h | rfl
    · exact written h
    · exact absurd ascii replacement_not_ascii

theorem decode_eq_nil {bytes : List UInt8} : (decode bytes).toList = [] ↔ bytes = [] := by
  rw [toList_decode, Array.toList_eq_nil_iff]
  constructor
  · intro h
    rcases List.eq_nil_or_concat bytes with rfl | ⟨front, b, rfl⟩
    · rfl
    · rw [List.concat_eq_append, List.foldl_append] at h
      exact absurd h (Decoder.finish_feed_ne_empty _ b)
  · rintro rfl
    rfl

theorem decode_encode (text : String) : decode (encode text) = text := by
  unfold decode encode
  rw [Decoder.foldl_feed_encode]
  simp [Decoder.finish]

/-- A character of ASCII is one byte, so the bytes of such a text can be cut anywhere. -/
theorem encode_ascii : ∀ {cs : List Char}, (∀ c ∈ cs, c.toNat < 0x80) →
    encode (String.ofList cs) = cs.map fun c => UInt8.ofNat c.toNat
  | [], _ => rfl
  | c :: cs, h => by
    have short : String.utf8EncodeChar c = [UInt8.ofNat c.toNat] := by
      have hc : c.toNat ≤ 0x7F := Nat.le_of_lt_succ (h c List.mem_cons_self)
      exact if_pos hc
    have rest := encode_ascii fun d hd => h d (List.mem_cons_of_mem c hd)
    simp only [encode, String.toList_ofList] at rest
    rw [encode, String.toList_ofList, List.flatMap_cons, short, rest]
    rfl

theorem decode?_encode (text : String) : decode? (encode text) = some text := by
  rw [decode?, decode_encode, if_pos rfl]

end T21.Text.Utf8
