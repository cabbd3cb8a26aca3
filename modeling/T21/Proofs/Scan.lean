import Mathlib.Data.List.TakeWhile
import T21.Proofs.Except
import T21.Token

/-!
# Scanning character by character

`Token.scanCode` takes a word at a time. The machine here goes from character to character and carries the word
that it is in, so what the rest of a line gives depends on that word alone. Rests that give the same tokens after
every word can stand for each other behind any beginning of a line.
-/

namespace T21.Token

def close : List Char → List Token
  | [] => []
  | c :: cs => [ofRun (c :: cs)]

/-- The tokens of the rest of a line, behind the word `run`. -/
def scanFrom : List Char → List Char → Except LineError (List Token)
  | run, [] => .ok (close run)
  | run, c :: cs =>
    if c = ':' then
      if run = [] then .error .strayColon else (label (String.ofList run) :: ·) <$> scanFrom [] cs
    else if c = ',' then (fun ts => close run ++ comma :: ts) <$> scanFrom [] cs
    else if Text.isBlank c then (close run ++ ·) <$> scanFrom [] cs
    else scanFrom (run ++ [c]) cs

/-! ## One character -/

section
variable (run cs : List Char) {c : Char}

theorem scanFrom_comma : scanFrom run (',' :: cs) = (fun ts => close run ++ comma :: ts) <$> scanFrom [] cs := by
  simp [scanFrom]

theorem scanFrom_colon : scanFrom run (':' :: cs) =
    if run = [] then .error .strayColon else (label (String.ofList run) :: ·) <$> scanFrom [] cs := by
  simp [scanFrom]

theorem ne_of_isBlank (h : Text.isBlank c) : c ≠ ':' ∧ c ≠ ',' ∧ c ≠ '#' := by
  refine ⟨?_, ?_, ?_⟩ <;> intro e <;> subst e <;> revert h <;> decide

theorem scanFrom_blank (h : Text.isBlank c) : scanFrom run (c :: cs) = (close run ++ ·) <$> scanFrom [] cs := by
  have hc := ne_of_isBlank h
  simp [scanFrom, hc, h]

theorem scanFrom_start (h : Text.isBlank c) : scanFrom [] (c :: cs) = scanFrom [] cs := by
  rw [scanFrom_blank _ _ h]
  exact id_map _

theorem scanFrom_wordChar (h : isWordChar c) : scanFrom run (c :: cs) = scanFrom (run ++ [c]) cs := by
  simp only [isWordChar, Bool.not_eq_true', Bool.or_eq_false_iff, beq_eq_false_iff_ne] at h
  simp [scanFrom, h]

end

theorem scanFrom_word {w : List Char} (h : ∀ c ∈ w, isWordChar c) (run cs : List Char) :
    scanFrom run (w ++ cs) = scanFrom (run ++ w) cs := by
  induction w generalizing run with
  | nil => simp
  | cons c w ih =>
    rw [List.cons_append, scanFrom_wordChar _ _ (h c List.mem_cons_self),
      ih (fun d hd => h d (List.mem_cons_of_mem _ hd)), List.append_assoc, List.singleton_append]

/-! ## The machine finds the tokens -/

theorem scanFrom_close (run : List Char) {cs : List Char} (colon : cs.head? ≠ some ':')
    (word : ∀ c ∈ cs.head?, isWordChar c = false) : scanFrom run cs = (close run ++ ·) <$> scanFrom [] cs := by
  cases cs with
  | nil => simp [scanFrom, close]
  | cons c cs =>
    have hc : c ≠ ':' := by simpa using colon
    have hw : isWordChar c = false := word c rfl
    by_cases hcomma : c = ','
    · subst hcomma
      rw [scanFrom_comma, scanFrom_comma, ← comp_map]
      rfl
    · have hb : Text.isBlank c := by simpa [isWordChar, hc, hcomma] using hw
      rw [scanFrom_blank _ _ hb, scanFrom_start _ hb]

theorem scanFrom_run {c : Char} (h : isWordChar c) (cs : List Char) :
    scanFrom [] (c :: cs) = scanFrom (c :: cs.takeWhile isWordChar) (cs.dropWhile isWordChar) := by
  have hw : ∀ d ∈ cs.takeWhile isWordChar, isWordChar d := fun d hd => List.mem_takeWhile_imp hd
  have := scanFrom_word hw [c] (cs.dropWhile isWordChar)
  rw [List.takeWhile_append_dropWhile] at this
  rw [scanFrom_wordChar _ _ h]
  exact this

theorem scanCode_eq (cs : List Char) : scanCode cs = scanFrom [] cs := by
  fun_induction scanCode cs with
  | case1 => rfl
  | case2 => rw [scanFrom_colon, if_pos rfl]
  | case3 cs _ ih => rw [scanFrom_comma, ih]; rfl
  | case4 c cs _ _ hb ih => rw [ih, scanFrom_start _ hb]
  | case5 c cs hcolon hcomma hb run rest hrest ih =>
    have hc : isWordChar c := by simp [isWordChar, hcolon, hcomma, hb]
    have hrun : scanFrom [] (c :: cs) = scanFrom run rest := scanFrom_run hc cs
    obtain ⟨tail, htail⟩ := List.head?_eq_some_iff.mp hrest
    rw [hrun, ih, htail, List.tail_cons, scanFrom_colon, if_neg (by simp [run])]
  | case6 c cs hcolon hcomma hb run rest hrest ih =>
    have hc : isWordChar c := by simp [isWordChar, hcolon, hcomma, hb]
    have hrun : scanFrom [] (c :: cs) = scanFrom run rest := scanFrom_run hc cs
    have hstop : ∀ d ∈ rest.head?, isWordChar d = false := by
      intro d hd
      have := List.head?_dropWhile_not isWordChar cs
      rwa [show (cs.dropWhile isWordChar).head? = some d from hd] at this
    rw [hrun, ih, scanFrom_close run hrest hstop]
    rfl

/-! ## Rests that give the same -/

def SameRest (cs ds : List Char) : Prop :=
  ∀ run, scanFrom run cs = scanFrom run ds

namespace SameRest
variable {cs ds es : List Char} {b c : Char}

theorem refl (cs : List Char) : SameRest cs cs := fun _ => rfl

theorem symm (h : SameRest cs ds) : SameRest ds cs := fun run => (h run).symm

theorem trans (h : SameRest cs ds) (h' : SameRest ds es) : SameRest cs es := fun run => (h run).trans (h' run)

theorem cons (c : Char) (h : SameRest cs ds) : SameRest (c :: cs) (c :: ds) := by
  intro run
  simp only [scanFrom, h _]

theorem blank (hb : Text.isBlank b) (hc : Text.isBlank c) : SameRest (b :: cs) (c :: cs) := by
  intro run
  rw [scanFrom_blank _ _ hb, scanFrom_blank _ _ hc]

theorem blanks (hb : Text.isBlank b) (hc : Text.isBlank c) : SameRest (b :: c :: cs) (c :: cs) := by
  intro run
  rw [scanFrom_blank _ _ hb, scanFrom_start _ hc, scanFrom_blank _ _ hc]

theorem blank_comma (hb : Text.isBlank b) : SameRest (b :: ',' :: cs) (',' :: cs) := by
  intro run
  rw [scanFrom_blank _ _ hb, scanFrom_comma, scanFrom_comma, ← comp_map]
  rfl

theorem end_blank (hb : Text.isBlank b) : SameRest [b] [] := by
  intro run
  rw [scanFrom_blank _ _ hb]
  simp [scanFrom, close]

theorem append_blanks (cs : List Char) {blanks : List Char} (h : ∀ c ∈ blanks, Text.isBlank c) :
    SameRest (cs ++ blanks) cs := by
  induction cs with
  | cons c cs ih => exact ih.cons c
  | nil =>
    induction blanks with
    | nil => exact .refl []
    | cons b blanks ih =>
      have tail : SameRest blanks [] := ih fun c hc => h c (List.mem_cons_of_mem _ hc)
      exact (tail.cons b).trans (end_blank (h b List.mem_cons_self))

end SameRest

theorem scanFrom_blanks {blanks : List Char} (h : ∀ c ∈ blanks, Text.isBlank c) (cs : List Char) :
    scanFrom [] (blanks ++ cs) = scanFrom [] cs := by
  induction blanks with
  | nil => rfl
  | cons b blanks ih =>
    rw [List.cons_append, scanFrom_start _ (h b List.mem_cons_self), ih fun c hc => h c (List.mem_cons_of_mem _ hc)]

/-! ## Behind a label -/

theorem close_append_eq_label {run : List Char} {name : String} {ts us : List Token}
    (h : close run ++ ts = label name :: us) : run = [] ∧ ts = label name :: us := by
  cases run with
  | nil => exact ⟨rfl, h⟩
  | cons c run =>
    simp only [close, ofRun, List.singleton_append, List.cons.injEq] at h
    split at h <;> cases h.1

theorem scanFrom_label {run cs : List Char} {name : String} {ts : List Token}
    (h : scanFrom run cs = .ok (label name :: ts)) :
    ∃ before rest, cs = before ++ ':' :: rest ∧ ':' ∉ before ∧ scanFrom [] rest = .ok ts := by
  induction cs generalizing run with
  | nil =>
    have hc : close run ++ [] = label name :: ts := by simpa [scanFrom] using h
    cases (close_append_eq_label hc).2
  | cons c cs ih =>
    -- a character before the colon
    have skip : ∀ {run}, c ≠ ':' → scanFrom run cs = .ok (label name :: ts) →
        ∃ before rest, c :: cs = before ++ ':' :: rest ∧ ':' ∉ before ∧ scanFrom [] rest = .ok ts := by
      intro run hc hcs
      obtain ⟨before, rest, rfl, hno, hrest⟩ := ih hcs
      exact ⟨c :: before, rest, rfl, by simp [Ne.symm hc, hno], hrest⟩
    rw [scanFrom] at h
    split at h
    · rename_i hc
      split at h
      · cases h
      · obtain ⟨us, hus, he⟩ := map_eq_ok.mp h
        cases he
        exact ⟨[], cs, by rw [hc, List.nil_append], nofun, hus⟩
    · rename_i hc
      split at h
      · obtain ⟨us, -, he⟩ := map_eq_ok.mp h
        cases (close_append_eq_label he).2
      · split at h
        · obtain ⟨us, hus, he⟩ := map_eq_ok.mp h
          rw [(close_append_eq_label he).2] at hus
          exact skip hc hus
        · exact skip hc h

end T21.Token
