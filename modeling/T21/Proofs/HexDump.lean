import Mathlib.Data.List.Forall2
import T21.Assembler
import T21.Proofs.Hex
import T21.Proofs.Slices

/-!
# Reading a hex dump

A dump is cut into rows at its line feeds and each row into groups at its spaces. Neither character stands in a group,
so the cuts find the rows and groups that were written, and reading the groups one by one gives the code back.
-/

namespace T21

open Text

/-- The rows of a dump, each cut into its groups. An empty dump has no rows. -/
def dumpRows (dump : String) : List (List (List Char)) :=
  if dump = "" then [] else (dump.toList.splitOn '\n').map (List.splitOn ' ')

/-! ## Rows -/

theorem isBlank_byte {b : UInt8} {c : Char} (h : c ∈ Hex.byte b) : isBlank c = false := by
  obtain ⟨n, hn, rfl⟩ := Hex.mem_byte h
  exact Hex.isBlank_digit hn

theorem blank_not_mem_byte {c : Char} (h : isBlank c) (b : UInt8) : c ∉ Hex.byte b := by
  intro hc
  rw [isBlank_byte hc] at h
  cases h

def rowText (row : List UInt8) : List Char :=
  [' '].intercalate (row.map Hex.byte)

theorem splitOn_rowText {row : List UInt8} (h : row ≠ []) : (rowText row).splitOn ' ' = row.map Hex.byte := by
  apply List.splitOn_intercalate
  · intro group hg
    obtain ⟨b, -, rfl⟩ := List.mem_map.mp hg
    exact blank_not_mem_byte (by decide) b
  · simpa using h

theorem rowText_ne_nil {row : List UInt8} (h : row ≠ []) : rowText row ≠ [] := by
  intro hnil
  have hsplit := splitOn_rowText h
  rw [hnil] at hsplit
  cases row with
  | nil => exact h rfl
  | cons b row => cases hsplit

theorem lineFeed_not_mem_rowText : ∀ row : List UInt8, '\n' ∉ rowText row
  | [] => by simp [rowText]
  | [b] => by simpa [rowText] using blank_not_mem_byte (by decide) b
  | b :: c :: row => by
    have hrest := lineFeed_not_mem_rowText (c :: row)
    simp only [rowText, List.map_cons] at hrest
    simp only [rowText, List.map_cons, List.intercalate_cons_cons, List.mem_append, not_or]
    exact ⟨⟨blank_not_mem_byte (by decide) b, by decide⟩, hrest⟩

/-! ## Dumps -/

namespace Assembly
variable (a : Assembly)

theorem toList_hexDump :
    a.hexDump.toList = ['\n'].intercalate ((slices 16 a.code).map fun row => rowText row.toList) := by
  rw [hexDump, String.toList_intercalate, List.map_map]
  congr 2
  funext row
  simp [Hex.joined, rowText, Hex.byteText, Function.comp_def]

theorem ne_nil_of_mem_slices {row : Array UInt8} (h : row ∈ slices 16 a.code) : row.toList ≠ [] := by
  obtain ⟨i, hi, rfl⟩ := List.mem_map.mp h
  have hpos := size_slice_pos (by decide) (List.mem_range.mp hi)
  intro hnil
  rw [← Array.length_toList, hnil] at hpos
  cases hpos

theorem slices_eq_nil_iff : slices 16 a.code = [] ↔ a.code = #[] := by
  have count : sliceCount 16 a.code.size = 0 ↔ a.code.size = 0 := by
    unfold sliceCount
    omega
  simp only [slices, List.map_eq_nil_iff, List.range_eq_nil, count, Array.size_eq_zero_iff]

theorem hexDump_eq_empty_iff : a.hexDump = "" ↔ a.code = #[] := by
  rw [← String.toList_inj, toList_hexDump, ← slices_eq_nil_iff]
  rcases h : slices 16 a.code with _ | ⟨row, _ | ⟨next, rows⟩⟩
  · simp
  · simpa using rowText_ne_nil (a.ne_nil_of_mem_slices (by simp [h]))
  · simp [List.intercalate_cons_cons]

theorem dumpRows_hexDump : dumpRows a.hexDump = (slices 16 a.code).map fun row => row.toList.map Hex.byte := by
  unfold dumpRows
  by_cases hcode : a.code = #[]
  · rw [if_pos (a.hexDump_eq_empty_iff.mpr hcode), a.slices_eq_nil_iff.mpr hcode, List.map_nil]
  · have hrows : (slices 16 a.code).map (fun row => rowText row.toList) ≠ [] := by
      simpa using mt a.slices_eq_nil_iff.mp hcode
    rw [if_neg (mt a.hexDump_eq_empty_iff.mp hcode), toList_hexDump, List.splitOn_intercalate '\n' _ hrows,
      List.map_map]
    · apply List.map_congr_left
      intro row hrow
      exact splitOn_rowText (a.ne_nil_of_mem_slices hrow)
    · intro l hl
      obtain ⟨row, -, rfl⟩ := List.mem_map.mp hl
      exact lineFeed_not_mem_rowText row.toList

theorem flatten_dumpRows : (dumpRows a.hexDump).flatten = a.code.toList.map Hex.byte := by
  have cover := flatMap_slices (n := 16) (by decide) a.code
  rw [dumpRows_hexDump, slices, List.map_map, ← List.flatMap_def, ← cover, List.map_flatMap]
  rfl

theorem length_dumpRows : (dumpRows a.hexDump).length = sliceCount 16 a.code.size := by
  rw [dumpRows_hexDump, List.length_map, slices, List.length_map, List.length_range]

theorem getElem?_dumpRows {i : Nat} {row : List (List Char)} (h : (dumpRows a.hexDump)[i]? = some row) :
    i < sliceCount 16 a.code.size ∧ row.length = (slice 16 a.code i).size := by
  have hi : i < sliceCount 16 a.code.size := by
    rw [← length_dumpRows]
    exact (List.getElem?_eq_some_iff.mp h).1
  refine ⟨hi, ?_⟩
  simp only [dumpRows_hexDump, slices, List.getElem?_map, List.getElem?_range hi, Option.map_some,
    Option.some.injEq] at h
  rw [← h, List.length_map, Array.length_toList]

end Assembly

/-! ## Groups -/

theorem upper_digits_of_byte (b : UInt8) :
    (Hex.byte b).length = 2 ∧ ∀ c ∈ Hex.byte b, c ∈ "0123456789ABCDEF".toList := by
  have upper : ∀ n < 16, Hex.digit n ∈ "0123456789ABCDEF".toList := by decide
  refine ⟨rfl, ?_⟩
  intro c hc
  obtain ⟨n, hn, rfl⟩ := Hex.mem_byte hc
  exact upper n hn

theorem bytes?_byte (b : UInt8) : Hex.bytes? (Hex.byte b) = some [b] := by
  rw [Hex.bytes?_eq_some_iff, ← Hex.upper_flatMap_byte]
  simp

/-- **A dump shows the code and nothing else.** It has a row for every sixteen bytes that the code has or has begun,
all of them full but perhaps the last and none of them empty; only empty code gives an empty dump. Line feeds stand
between rows and spaces between groups, and a group is two upper-case digits. Read in order the groups are the bytes
of the code, so code is told from its dump. -/
theorem hexDump_shows_code (a : Assembly) :
    let rows := dumpRows a.hexDump
    (a.hexDump = "" ↔ a.code = #[]) ∧
    rows.length = a.code.size ⌈/⌉ 16 ∧
    (∀ i row, rows[i]? = some row →
      0 < row.length ∧ row.length ≤ 16 ∧ (i + 1 < rows.length → row.length = 16)) ∧
    a.hexDump.toList = ['\n'].intercalate (rows.map [' '].intercalate) ∧
    (∀ group ∈ rows.flatten, group.length = 2 ∧ ∀ c ∈ group, c ∈ "0123456789ABCDEF".toList) ∧
    List.Forall₂ (fun group b => Hex.bytes? group = some [b]) rows.flatten a.code.toList ∧
    ∀ b : Assembly, a.hexDump = b.hexDump ↔ a.code = b.code := by
  intro rows
  have reads : ∀ a : Assembly, List.Forall₂ (fun group b => Hex.bytes? group = some [b])
      (dumpRows a.hexDump).flatten a.code.toList := by
    intro a
    rw [a.flatten_dumpRows, List.forall₂_map_left_iff, List.forall₂_same]
    exact fun b _ => bytes?_byte b
  refine ⟨a.hexDump_eq_empty_iff, ?_, ?_, ?_, ?_, reads a, ?_⟩
  · rw [← sliceCount_eq_ceilDiv]
    exact a.length_dumpRows
  · intro i row hrow
    obtain ⟨hi, hlen⟩ := a.getElem?_dumpRows hrow
    rw [hlen, a.length_dumpRows]
    exact ⟨size_slice_pos (by decide) hi, size_slice_le 16 a.code i, size_slice_of_succ_lt (by decide)⟩
  · have written : rows = _ := a.dumpRows_hexDump
    rw [a.toList_hexDump, written, List.map_map]
    rfl
  · intro group hg
    rw [a.flatten_dumpRows] at hg
    obtain ⟨b, -, rfl⟩ := List.mem_map.mp hg
    exact upper_digits_of_byte b
  · intro b
    constructor
    · intro h
      have unique : Relator.RightUnique fun (group : List Char) (x : UInt8) => Hex.bytes? group = some [x] := by
        intro group x y hx hy
        simpa using hx.symm.trans hy
      have hb := reads b
      rw [← h] at hb
      exact Array.toList_inj.mp (List.right_unique_forall₂' unique (reads a) hb)
    · intro h
      rw [Assembly.hexDump, Assembly.hexDump, h]

end T21
