import T21.Proofs.RecordText
import T21.Proofs.Slices

/-!
# Images and their records

The data records of an image write each of its addresses once, so the order in which they are loaded does not
matter, nor does the size of the slices. Written line by line and read again they are the same records. An image is
refused for its size and for nothing else: slice by slice, the offset fits in sixteen bits and the payload in a record.
The records hold the image in order, each but the last as much of it as the chunk allows.
-/

namespace T21.HexRecord

/-! ## Loading -/

/-- The addresses that a record is loaded at, each with its byte. They are not cut to sixteen bits. -/
def writes (r : HexRecord) : List (Nat × UInt8) :=
  (r.payload.zipIdx r.offset.toNat).map Prod.swap

def write (memory : Nat → Option UInt8) (w : Nat × UInt8) : Nat → Option UInt8 :=
  fun a => if a = w.1 then some w.2 else memory a

def load (records : List HexRecord) : Nat → Option UInt8 :=
  (records.flatMap writes).foldl write fun _ => none

theorem foldl_write_of_not_mem {a : Nat} : ∀ {ws : List (Nat × UInt8)} (m : Nat → Option UInt8),
    a ∉ ws.map Prod.fst → ws.foldl write m a = m a
  | [], _, _ => rfl
  | w :: ws, m, h => by
    rw [List.map_cons, List.mem_cons, not_or] at h
    rw [List.foldl_cons, foldl_write_of_not_mem _ h.2, write, if_neg h.1]

theorem foldl_write_of_mem {a : Nat} {b : UInt8} : ∀ {ws : List (Nat × UInt8)} (m : Nat → Option UInt8),
    (ws.map Prod.fst).Nodup → (a, b) ∈ ws → ws.foldl write m a = some b
  | w :: ws, m, hn, h => by
    rw [List.map_cons, List.nodup_cons] at hn
    rw [List.foldl_cons]
    rcases List.mem_cons.mp h with rfl | h
    · rw [foldl_write_of_not_mem _ hn.1, write, if_pos rfl]
    · exact foldl_write_of_mem _ hn.2 h

/-! ## The records of an image -/

section
variable (image : Array UInt8) (chunk : Nat)

theorem clampChunk_pos : 0 < clampChunk chunk := by
  unfold clampChunk maxPayload
  omega

def ofSlice (index : Nat) : HexRecord where
  kind := .data
  offset := UInt16.ofNat (index * clampChunk chunk)
  payload := (slice (clampChunk chunk) image index).toList
  length_le := by
    rw [Array.length_toList]
    exact Nat.le_trans (size_slice_le _ image index) (Nat.min_le_right _ _)

def ofSlices : List HexRecord :=
  (List.range (sliceCount (clampChunk chunk) image.size)).map (ofSlice image chunk)

theorem filter_data : (ofSlices image chunk ++ [endOfFile]).filter (·.kind == .data) = ofSlices image chunk := by
  rw [List.filter_append, List.filter_eq_self.mpr]
  · simp [endOfFile]
  · intro r hr
    obtain ⟨i, -, rfl⟩ := List.mem_map.mp hr
    rfl

theorem ofImage_of_large {image : Array UInt8} (chunk : Nat) (large : maxImage < image.size) :
    ofImage image chunk = .error (.imageTooLarge image.size) := by
  unfold ofImage
  rw [if_pos large]
  rfl

variable (h : image.size ≤ maxImage)
include h

/-- Neither check fails on a slice of an image that is not too large. -/
theorem checkedSlice_eq {i : Nat} (hi : i < sliceCount (clampChunk chunk) image.size) :
    checkedSlice (clampChunk chunk) image i = .ok (ofSlice image chunk i) := by
  have inside := (lt_sliceCount_iff (clampChunk_pos chunk)).mp hi
  have held : i * clampChunk chunk < 65536 := Nat.lt_of_lt_of_le inside h
  rw [checkedSlice, if_pos held, ofPayload_eq_ok_iff]
  exact ⟨(ofSlice image chunk i).length_le, rfl, rfl, rfl⟩

theorem mapM_checkedSlice :
    (List.range (sliceCount (clampChunk chunk) image.size)).mapM (checkedSlice (clampChunk chunk) image) =
      .ok (ofSlices image chunk) := by
  apply mapM_eq_ok
  intro i hi
  exact checkedSlice_eq image chunk h (List.mem_range.mp hi)

theorem ofImage_eq : ofImage image chunk = .ok (ofSlices image chunk ++ [endOfFile]) := by
  simp only [ofImage, if_neg (Nat.not_lt.mpr h), mapM_checkedSlice image chunk h]
  rfl

theorem toNat_offset_ofSlice {i : Nat} (hi : i < sliceCount (clampChunk chunk) image.size) :
    (ofSlice image chunk i).offset.toNat = i * clampChunk chunk := by
  have inside := (lt_sliceCount_iff (clampChunk_pos chunk)).mp hi
  rw [ofSlice, UInt16.toNat_ofNat_of_lt' (Nat.lt_of_lt_of_le inside h)]

theorem writes_ofSlices : (ofSlices image chunk).flatMap writes = image.toList.zipIdx.map Prod.swap := by
  rw [← take_sliceCount_mul (clampChunk_pos chunk) image, ← zipIdx_slices, List.map_flatMap, ofSlices, List.flatMap_map]
  apply List.flatMap_congr
  intro i hi
  rw [writes, toNat_offset_ofSlice image chunk h (List.mem_range.mp hi)]
  rfl

theorem ofSlices_within {r : HexRecord} (hr : r ∈ ofSlices image chunk) :
    r.offset.toNat + r.payload.length ≤ image.size := by
  obtain ⟨i, hi, rfl⟩ := List.mem_map.mp hr
  have hi := List.mem_range.mp hi
  have inside := (lt_sliceCount_iff (clampChunk_pos chunk)).mp hi
  rw [toNat_offset_ofSlice image chunk h hi]
  simp only [ofSlice, slice, Array.length_toList, Array.size_extract]
  omega

end

/-! ## Any order -/

section
variable {image : Array UInt8} {order : List HexRecord}
  (h : (order.flatMap writes).Perm (image.toList.zipIdx.map Prod.swap))
include h

theorem addresses_perm : ((order.flatMap writes).map Prod.fst).Perm (List.range image.size) := by
  have addresses : (image.toList.zipIdx.map Prod.swap).map Prod.fst = List.range image.size := by
    rw [List.map_map, List.range_eq_range']
    exact List.zipIdx_map_snd 0 image.toList
  rw [← addresses]
  exact h.map _

theorem load_eq : load order = fun a => image[a]? := by
  have addresses := addresses_perm h
  have once : ((order.flatMap writes).map Prod.fst).Nodup := addresses.nodup_iff.mpr List.nodup_range
  funext a
  cases ha : image[a]? with
  | some b =>
    apply foldl_write_of_mem _ once
    rw [h.mem_iff, List.mem_map]
    rw [← Array.getElem?_toList] at ha
    exact ⟨(b, a), List.mk_mem_zipIdx_iff_getElem?.mpr ha, rfl⟩
  | none =>
    apply foldl_write_of_not_mem
    rw [addresses.mem_iff, List.mem_range]
    exact Nat.not_lt.mpr (Array.getElem?_eq_none_iff.mp ha)

end

/-! ## Hex files -/

theorem lines_text (records : List HexRecord) :
    Text.lines (String.join (records.map fun r => r.text ++ "\n")) = records.map text := by
  have digits : ∀ l ∈ records.map text, ∀ c, Text.isBlank c → c ∉ l.toList := by
    intro l hl c hc hm
    obtain ⟨r, -, rfl⟩ := List.mem_map.mp hl
    rw [isBlank_text r hm] at hc
    cases hc
  have joined := Text.lines_join_ended (fun l hl => digits l hl '\n' (by decide))
    (fun l hl => digits l hl '\r' (by decide))
  rwa [List.map_map] at joined

/-- **An image outlasts its hex file.** The records of an image, written one in a line, are read back line by line.
Loaded in any order its data records write every address of the image once and no other, none of them past the
end of the address space, and leave the image in memory. What is loaded does not depend on the size of the
slices. -/
theorem image_outlasts_hex_file (image : Array UInt8) (chunk : Nat) (h : image.size ≤ 65536) :
    ∃ records, ofImage image chunk = .ok records ∧
      (Text.lines (String.join (records.map fun r => r.text ++ "\n"))).map parse = records.map .ok ∧
      ∀ order : List HexRecord, order.Perm (records.filter (·.kind == .data)) →
        ((order.flatMap writes).map Prod.fst).Perm (List.range image.size) ∧
        (∀ r ∈ order, r.offset.toNat + r.payload.length ≤ 65536) ∧
        (∀ a : Nat, load order a = image[a]?) ∧
        ∀ chunk' records' order', ofImage image chunk' = .ok records' →
          order'.Perm (records'.filter (·.kind == .data)) → load order' = load order := by
  refine ⟨ofSlices image chunk ++ [endOfFile], ofImage_eq image chunk h, ?_, ?_⟩
  · have read : ∀ r : HexRecord, (parse ∘ text) r = .ok r := by
      intro r
      rw [Function.comp_apply, parse_text]
    rw [lines_text, List.map_map]
    exact List.map_congr_left fun r _ => read r
  · have written : ∀ (chunk : Nat) (order : List HexRecord),
        order.Perm ((ofSlices image chunk ++ [endOfFile]).filter (·.kind == .data)) →
        (order.flatMap writes).Perm (image.toList.zipIdx.map Prod.swap) := by
      intro chunk order ho
      rw [filter_data] at ho
      rw [← writes_ofSlices image chunk h]
      exact ho.flatMap_right _
    intro order ho
    refine ⟨addresses_perm (written chunk order ho), ?_, congrFun (load_eq (written chunk order ho)), ?_⟩
    · intro r hr
      rw [filter_data] at ho
      exact Nat.le_trans (ofSlices_within image chunk h (ho.mem_iff.mp hr)) h
    · intro chunk' records' order' hrecords ho'
      rw [ofImage_eq image chunk' h] at hrecords
      cases hrecords
      rw [load_eq (written chunk' order' ho'), load_eq (written chunk order ho)]

/-- Slices of one byte, as a chunk of zero gives, in the reverse order. -/
theorem image_outlasts_hex_file_reversed :
    (#[0x0C, 0x02, 0x07] : Array UInt8).size ≤ 65536 ∧
      ∃ records, ofImage #[0x0C, 0x02, 0x07] 0 = .ok records ∧ records.length = 4 ∧
        ∀ a : Nat, load (records.filter (·.kind == .data)).reverse a = #[0x0C, 0x02, 0x07][a]? := by
  refine ⟨by decide, ?_⟩
  obtain ⟨records, hr, -, ho⟩ := image_outlasts_hex_file #[0x0C, 0x02, 0x07] 0 (by decide)
  refine ⟨records, hr, ?_, (ho _ (List.reverse_perm _)).2.2.1⟩
  have four : (ofImage #[0x0C, 0x02, 0x07] 0).map List.length = .ok 4 := by decide
  rw [hr] at four
  exact Except.ok.inj four

/-! ## Cutting -/

theorem ofImage_eq_error_iff {image : Array UInt8} {chunk : Nat} {e : Error} :
    ofImage image chunk = .error e ↔ 65536 < image.size ∧ e = .imageTooLarge image.size := by
  by_cases h : image.size ≤ 65536
  · rw [ofImage_eq image chunk h]
    simp [h]
  · have large : 65536 < image.size := Nat.lt_of_not_le h
    rw [ofImage_of_large chunk large]
    simp [large, eq_comm]

section
variable (image : Array UInt8) (chunk : Nat)

theorem length_ofSlices : (ofSlices image chunk).length = sliceCount (clampChunk chunk) image.size := by
  rw [ofSlices, List.length_map, List.length_range]

theorem getElem?_ofSlices {i : Nat} {r : HexRecord} (hr : (ofSlices image chunk)[i]? = some r) :
    i < sliceCount (clampChunk chunk) image.size ∧ r = ofSlice image chunk i := by
  obtain ⟨hi, rfl⟩ := List.getElem?_eq_some_iff.mp hr
  rw [length_ofSlices] at hi
  simp [ofSlices, hi]

theorem length_payload_ofSlice (i : Nat) :
    (ofSlice image chunk i).payload.length = (slice (clampChunk chunk) image i).size :=
  Array.length_toList

theorem payload_ofSlices : (ofSlices image chunk).flatMap payload = image.toList := by
  rw [ofSlices, List.flatMap_map]
  exact flatMap_slices (clampChunk_pos chunk) image

end

/-- **An image is cut into full records.** Only an image that is too large is refused. Any other is cut into as many
data records as its size needs, with the end of the file behind them, and the checks on a slice all pass. Each record
stands at its place in the image, none is empty, all but the last are full, and together their payloads are the
image. -/
theorem ofImage_cuts_image (image : Array UInt8) (chunk : Nat) :
    let c := min (max chunk 1) 255
    (∀ e, ofImage image chunk = .error e ↔ 65536 < image.size ∧ e = .imageTooLarge image.size) ∧
    (image.size ≤ 65536 → ∃ data : List HexRecord, ofImage image chunk = .ok (data ++ [endOfFile]) ∧
      (List.range (image.size ⌈/⌉ c)).mapM (checkedSlice c image) = .ok data ∧
      data.length = image.size ⌈/⌉ c ∧ data.flatMap payload = image.toList ∧
      ∀ i r, data[i]? = some r → r.kind = .data ∧ r.offset.toNat = i * c ∧
        0 < r.payload.length ∧ r.payload.length ≤ c ∧ (i + 1 < data.length → r.payload.length = c)) := by
  intro c
  have hc : 0 < c := clampChunk_pos chunk
  refine ⟨fun _ => ofImage_eq_error_iff, fun h => ?_⟩
  rw [← sliceCount_eq_ceilDiv]
  refine ⟨ofSlices image chunk, ofImage_eq image chunk h, mapM_checkedSlice image chunk h,
    length_ofSlices image chunk, payload_ofSlices image chunk, ?_⟩
  intro i r hr
  obtain ⟨hi, rfl⟩ := getElem?_ofSlices image chunk hr
  rw [length_payload_ofSlice, length_ofSlices]
  exact ⟨rfl, toNat_offset_ofSlice image chunk h hi, size_slice_pos hc hi, size_slice_le c image i,
    size_slice_of_succ_lt hc⟩

end T21.HexRecord
