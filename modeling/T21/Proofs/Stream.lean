import Mathlib.Data.List.Forall2
import T21.Assembler
import T21.Proofs.Text
import T21.Proofs.Utf8

/-!
# Streams and texts

A stream is cut at its line feeds first and each line is decoded on its own; a text has been decoded before it
is cut. The two agree, since no character but a line feed takes up a line feed byte, and what one of them drops
at the end of a line and the other does not is blank.
-/

namespace T21

open Text Text.Utf8

/-! ## Cutting commutes with decoding -/

theorem decode_append_lineFeed (xs ys : List UInt8) :
    (decode (xs ++ 0x0A :: ys)).toList = (decode xs).toList ++ '\n' :: (decode ys).toList :=
  decode_append_ascii xs ys (by decide)

theorem lineFeed_not_mem_decode {bytes : List UInt8} (h : 0x0A ∉ bytes) : '\n' ∉ (decode bytes).toList := by
  intro hm
  obtain ⟨b, hb, e⟩ := mem_decode (by decide) (by decide) hm
  have feed : b = 0x0A := UInt8.toNat_inj.mp e
  exact h (feed ▸ hb)

theorem splitOnP_decode (bytes : List UInt8) :
    (decode bytes).toList.splitOnP (· == '\n') = (bytes.splitOnP isLineFeed).map fun l => (decode l).toList := by
  by_cases h : 0x0A ∈ bytes
  · -- a line feed cuts both sides into two, each shorter than the whole
    obtain ⟨xs, ys, rfl⟩ := List.append_of_mem h
    rw [decode_append_lineFeed, List.splitOnP_append_cons _ _ (by rfl), List.splitOnP_append_cons _ _ (by rfl),
      splitOnP_decode xs, splitOnP_decode ys, List.map_append]
  · have other : ∀ b ∈ bytes, isLineFeed b = false := by
      intro b hb
      simp only [isLineFeed, beq_eq_false_iff_ne]
      exact fun e => h (e ▸ hb)
    have decoded : ∀ c ∈ (decode bytes).toList, (c == '\n') = false := by
      intro c hc
      rw [beq_eq_false_iff_ne]
      exact fun e => lineFeed_not_mem_decode h (e ▸ hc)
    rw [List.splitOnP_eq_singleton other, List.splitOnP_eq_singleton decoded, List.map_singleton]
termination_by bytes.length

theorem terminated_decode (bytes : List UInt8) :
    terminated (· == '\n') (decode bytes).toList = (terminated isLineFeed bytes).map fun l => (decode l).toList := by
  rw [terminated, splitOnP_decode, ← List.map_dropLast, terminated]

theorem remainder_decode (bytes : List UInt8) :
    remainder (· == '\n') (decode bytes).toList = (decode (remainder isLineFeed bytes)).toList := by
  rw [remainder, splitOnP_decode, remainder]
  exact List.getLastD_map (f := fun l => (decode l).toList) (a := [])

/-! ## Lines up to blanks -/

def trimmed (raw : String) : List Char := trim raw.toList

theorem trimmed_ended (bytes : List UInt8) :
    trim (dropLineEnds (decode (bytes ++ [0x0A])).toList) = trim (decode bytes).toList := by
  have ended : (decode (bytes ++ [0x0A])).toList = (decode bytes).toList ++ ['\n'] :=
    decode_append_lineFeed bytes []
  rw [trim_dropLineEnds, ended, trim_concat_blank _ (by decide)]

/-- Up to blanks at their ends, a stream has the lines of the text it decodes to. -/
theorem trimmed_lines (data : List UInt8) :
    (Stream.lines { data }).map trimmed = (Text.lines (decode data)).map trimmed := by
  have empty : (decode (remainder isLineFeed data)).toList.isEmpty = (remainder isLineFeed data).isEmpty := by
    rw [Bool.eq_iff_iff, List.isEmpty_iff, List.isEmpty_iff, decode_eq_nil]
  have ended : ∀ l, trim (dropReturn (decode l).toList) = trim (dropLineEnds (decode (l ++ [0x0A])).toList) := by
    intro l
    rw [trim_dropReturn, trimmed_ended]
  simp only [Stream.lines, Stream.pieces, Text.lines, terminated_decode, remainder_decode, empty]
  by_cases hr : (remainder isLineFeed data).isEmpty
  · simp [hr, trimmed, ended]
  · simp [hr, trimmed, ended, trim_dropLineEnds]

/-! ## Runs on equal lines -/

namespace Assembler

theorem feed_congr (s : Assembler) (line : Nat) {raw raw' : String} (h : trimmed raw = trimmed raw') :
    s.feed line raw = s.feed line raw' := by
  have : Line.read raw = Line.read raw' := congrArg (fun cs => Line.parse (upper cs)) h
  simp only [feed, this]

theorem foldl_step_congr {ls ms : List String}
    (h : List.Forall₂ (fun a b => ∀ (s : Assembler) line, s.feed line a = s.feed line b) ls ms) (n : Nat)
    (s : Assembler) :
    ((ls.zipIdx n).map fun (text, line) => Step.raw line text).foldl step s =
      ((ms.zipIdx n).map fun (text, line) => Step.raw line text).foldl step s := by
  induction h generalizing n s with
  | nil => rfl
  | cons hl _ ih =>
    rw [List.zipIdx_cons, List.zipIdx_cons, List.map_cons, List.map_cons, List.foldl_cons, List.foldl_cons]
    simp only [step, hl s n]
    exact ih (n + 1) _

theorem run_numbered_congr (source : String) {ls ms : List String}
    (h : List.Forall₂ (fun a b => ∀ (s : Assembler) line, s.feed line a = s.feed line b) ls ms) :
    run source (numbered ls) = run source (numbered ms) :=
  foldl_step_congr h 1 (start source)

theorem run_numbered_trimmed (source : String) {ls ms : List String} (h : ls.map trimmed = ms.map trimmed) :
    run source (numbered ls) = run source (numbered ms) := by
  rw [← List.forall₂_eq_eq_eq, List.forall₂_map_left_iff, List.forall₂_map_right_iff] at h
  apply run_numbered_congr
  exact h.imp fun a b hab s line => s.feed_congr line hab

end Assembler

/-- **A stream is its text.** Bytes that can be read to their end are assembled as the text they decode to: the
same labels, code, listing and diagnostics, and the same log. So the bytes of a text are assembled as the text
itself. -/
theorem assembleStream_eq_assemble (source : String) :
    (∀ data : List UInt8, assembleStream source { data } = .ok (assemble source (decode data))) ∧
    ∀ text : String, assembleStream source { data := encode text } = .ok (assemble source text) := by
  have stream : ∀ data : List UInt8, assembleStream source { data } = .ok (assemble source (decode data)) := by
    intro data
    simp only [assembleStream, assemble, Assembler.run_numbered_trimmed source (trimmed_lines data)]
  refine ⟨stream, ?_⟩
  intro text
  rw [stream, decode_encode]

end T21
