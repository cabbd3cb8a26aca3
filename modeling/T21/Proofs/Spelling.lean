import T21.Proofs.Reading
import T21.Proofs.Stream

/-!
# Spellings of a line

Case, the width of blanks and the text of a comment are free. The spelling of a line is what is left of it without
that freedom. Lines of one spelling do the same to every assembler, down to the words of its diagnostics and of
its log.
-/

namespace T21

namespace Text

def collapse : List Char → List Char
  | [] => []
  | c :: cs =>
    if isBlank c then if cs.head?.any isBlank then collapse cs else ' ' :: collapse cs
    else c :: collapse cs

/-- Drops the blanks beside a comma and those behind a colon, given the character before. -/
def tighten : Option Char → List Char → List Char
  | _, [] => []
  | before, c :: cs =>
    if isBlank c ∧ (before = some ',' ∨ before = some ':' ∨ cs.head? = some ',') then tighten (some c) cs
    else c :: tighten (some c) cs

end Text

open Text

def Line.spelling (raw : String) : List Char :=
  tighten none (collapse (trim (upper (raw.toList.takeWhile (· ≠ '#')))))

/-- Lines of one spelling, with a comment in both or in neither. -/
structure Alike (a b : String) : Prop where
  spelling : Line.spelling a = Line.spelling b
  comment : '#' ∈ a.toList ↔ '#' ∈ b.toList

/-! ## Tokens of a spelling -/

namespace Token

theorem sameRest_collapse (cs : List Char) : SameRest (collapse cs) cs := by
  induction cs with
  | nil => exact .refl []
  | cons c cs ih =>
    unfold collapse
    by_cases hc : isBlank c
    · rw [if_pos hc]
      cases cs with
      | nil => exact .blank (by decide) hc
      | cons d cs =>
        by_cases hd : isBlank d
        · rw [if_pos (by simpa using hd)]
          exact ih.trans (SameRest.blanks hc hd).symm
        · rw [if_neg (by simpa using hd)]
          exact (ih.cons ' ').trans (.blank (by decide) hc)
    · rw [if_neg hc]
      exact ih.cons c

/-- Behind a comma or a colon no word is open, and a comma closes the word before it with or without a blank. -/
theorem scanFrom_tighten (before : Option Char) (run cs : List Char)
    (h : before = some ',' ∨ before = some ':' → run = []) : scanFrom run (tighten before cs) = scanFrom run cs := by
  induction cs generalizing before run with
  | nil => rfl
  | cons c cs ih =>
    unfold tighten
    split
    · rename_i hd
      obtain ⟨hc, hd⟩ := hd
      have hsep := ne_of_isBlank hc
      rw [ih (some c) run fun hsome => absurd hsome (by simp [hsep])]
      rcases hd with hd | hd | hd
      · rw [h (.inl hd), scanFrom_start cs hc]
      · rw [h (.inr hd), scanFrom_start cs hc]
      · obtain ⟨tail, rfl⟩ := List.head?_eq_some_iff.mp hd
        exact (SameRest.blank_comma hc run).symm
    · simp only [scanFrom, ih (some c) [] fun _ => rfl]
      split
      · rfl
      · split
        · rfl
        · rename_i hcolon hcomma
          rw [ih (some c) (run ++ [c]) fun hsome => absurd hsome (by simp [hcolon, hcomma])]

theorem scanFrom_trimmed (cs : List Char) : scanFrom [] (trim cs) = scanFrom [] cs := by
  obtain ⟨l, r, hcs, hl, hr⟩ := exists_trim cs
  conv => rhs; rw [hcs]
  rw [SameRest.append_blanks _ hr, scanFrom_blanks hl]

theorem scanFrom_spelling (raw : String) : scanFrom [] (Line.spelling raw) = scanFrom [] (Line.code raw) := by
  rw [Line.spelling, scanFrom_tighten none _ _ (by simp), sameRest_collapse, scanFrom_trimmed, Line.code]

end Token

/-! ## Lines and programs -/

theorem Alike.tokens {a b : String} (h : Alike a b) : Line.tokens a = Line.tokens b := by
  simp only [Line.tokens, ← Token.scanFrom_spelling, h.spelling, h.comment]

namespace Assembler

theorem feed_tokens (s : Assembler) (line : Nat) {a b : String} (h : Line.tokens a = Line.tokens b) :
    s.feed line a = s.feed line b := by
  have hread : Line.mute <$> Line.read a = Line.mute <$> Line.read b := by rw [Line.mute_read, Line.mute_read, h]
  -- a comment has no part in what is made of a line
  have hmute : ∀ l : Line, s.accept line l.mute = s.accept line l := fun _ => rfl
  unfold feed
  rcases ha : Line.read a with cause | l <;> rcases hb : Line.read b with cause' | l' <;> rw [ha, hb] at hread
  · cases hread
    rfl
  · cases hread
  · cases hread
  · have same : l.mute = l'.mute := Except.ok.inj hread
    show s.accept line l = s.accept line l'
    rw [← hmute l, same, hmute]

end Assembler

/-- **Spelling is free.** Lines that differ in case, in blanks where these do not separate words and in the text of
a comment take every assembler to the same state, its diagnostics and its log included. So programs that are alike
line by line have one outcome. -/
theorem alike_assemble_alike (source : String) :
    (∀ (s : Assembler) (line : Nat) (a b : String), Alike a b → s.feed line a = s.feed line b) ∧
    ∀ text text' : String, List.Forall₂ Alike (Text.lines text) (Text.lines text') →
      assemble source text = assemble source text' := by
  have same : ∀ (s : Assembler) (line : Nat) (a b : String), Alike a b → s.feed line a = s.feed line b :=
    fun s line a b h => s.feed_tokens line h.tokens
  refine ⟨same, ?_⟩
  intro text text' h
  rw [assemble, assemble, Assembler.run_numbered_congr source (h.imp fun a b hab s line => same s line a b hab)]

/-- A line with a surplus operand and a target that is not declared, in two spellings. -/
theorem alike_assemble_loop :
    let a := " loop:\u3000jez  left ,acc # Wait, A: B"
    let b := "LOOP:JEZ LEFT,ACC#"
    (Alike a b ∧ ∀ (s : Assembler) (line : Nat), s.feed line a = s.feed line b) ∧
    List.Forall₂ Alike (Text.lines (a ++ "\nhlt")) (Text.lines (b ++ "\n  HLT")) ∧
      assemble "t" (a ++ "\nhlt") = assemble "t" (b ++ "\n  HLT") := by
  intro a b
  obtain ⟨lines, programs⟩ := alike_assemble_alike "t"
  have first : Alike a b := ⟨by decide +kernel, by decide +kernel⟩
  have second : Alike "hlt" "  HLT" := ⟨by decide +kernel, by decide +kernel⟩
  have cut : Text.lines (a ++ "\nhlt") = [a, "hlt"] := by decide +kernel
  have cut' : Text.lines (b ++ "\n  HLT") = [b, "  HLT"] := by decide +kernel
  have both : List.Forall₂ Alike (Text.lines (a ++ "\nhlt")) (Text.lines (b ++ "\n  HLT")) := by
    rw [cut, cut']
    exact .cons first (.cons second .nil)
  exact ⟨⟨first, fun s line => lines s line a b first⟩, both, programs _ _ both⟩

end T21
