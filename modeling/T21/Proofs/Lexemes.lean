import Mathlib.Data.List.TakeWhile
import T21.Proofs.Scan

/-!
# Where tokens begin

A line is a text with places. Which token begins at a place, if any, is decided by the characters around it: the run
of characters that stands there and what follows it. Scanning gives the tokens of all places, in their order, unless
a colon has no run before it.
-/

namespace T21.Token

/-! ## Places -/

def inRun (c : Char) : Bool :=
  !(Text.isBlank c || c == ',' || c == ':' || c == '#')

def digit (c : Char) : Nat :=
  c.toNat - '0'.toNat

inductive Decimal : List Char → Nat → Prop
  | one {a : Char} : a.isDigit → Decimal [a] (digit a)
  | two {a b : Char} : a.isDigit → b.isDigit → Decimal [a, b] (10 * digit a + digit b)
  | three {a b c : Char} : a.isDigit → b.isDigit → c.isDigit →
      Decimal [a, b, c] (100 * digit a + 10 * digit b + digit c)

inductive Numeral : List Char → Int → Prop
  | plain {ds : List Char} {n : Nat} : Decimal ds n → Numeral ds n
  | minus {ds : List Char} {n : Nat} : Decimal ds n → Numeral ('-' :: ds) (-n)

/-- Before any comment, a run that the character before it does not extend. It may be empty. -/
structure OpenRun (before run : List Char) : Prop where
  code : '#' ∉ before
  chars : ∀ c ∈ run, inRun c
  left : ∀ c ∈ before.getLast?, ¬ inRun c

structure MaximalRun (before run after : List Char) : Prop extends OpenRun before run where
  nonempty : run ≠ []
  right : ∀ c ∈ after.head?, ¬ inRun c

/-- The token that begins between two parts of a line. -/
inductive Begins : List Char → List Char → Token → Prop
  | label {before run after : List Char} : MaximalRun before run (':' :: after) →
      Begins before (run ++ ':' :: after) (.label (String.ofList run))
  | num {before run after : List Char} {v : Int} : MaximalRun before run after → after.head? ≠ some ':' →
      Numeral run v → Begins before (run ++ after) (.num v)
  | word {before run after : List Char} : MaximalRun before run after → after.head? ≠ some ':' →
      (∀ v, ¬ Numeral run v) → Begins before (run ++ after) (.word (String.ofList run))
  | comma {before after : List Char} : '#' ∉ before → Begins before (',' :: after) .comma
  | comment {before text : List Char} : '#' ∉ before → Begins before ('#' :: text) (.comment (String.ofList text))

/-- Before any comment, a colon at the start of the line or behind a blank, a comma or another colon. -/
def Stray (line : List Char) : Prop :=
  ∃ before after, line = before ++ ':' :: after ∧ '#' ∉ before ∧
    (before = [] ∨ ∃ c, before.getLast? = some c ∧ (Text.isBlank c ∨ c = ',' ∨ c = ':'))

/-! ## Characters and numbers -/

section
variable {c : Char}

theorem inRun_eq_false_iff (hash : c ≠ '#') : inRun c = false ↔ Text.isBlank c ∨ c = ',' ∨ c = ':' := by
  simp only [inRun, Bool.not_eq_false', Bool.or_eq_true, beq_iff_eq, hash, or_false, or_assoc]

theorem ne_of_inRun (h : inRun c) : c ≠ ':' ∧ c ≠ ',' ∧ c ≠ '#' := by
  refine ⟨?_, ?_, ?_⟩ <;> intro e <;> subst e <;> cases h

theorem isWordChar_of_inRun (h : inRun c) : isWordChar c := by
  obtain ⟨colon, comma, hash⟩ := ne_of_inRun h
  simpa [inRun, isWordChar, colon, comma, hash] using h

end

theorem Decimal.value {ds : List Char} {n : Nat} (h : Decimal ds n) : digitsValue ds = n := by
  cases h with
  | one => simp [digitsValue, digit]
  | two => simp [digitsValue, digit]
  | three =>
    simp [digitsValue, digit]
    omega

theorem natural?_eq_some_iff {ds : List Char} {n : Nat} : natural? ds = some n ↔ Decimal ds n := by
  simp only [natural?, Option.ite_none_right_eq_some, Option.some.injEq, List.all_eq_true]
  constructor
  · rintro ⟨⟨hne, hlen, hds⟩, rfl⟩
    obtain ⟨n, hn⟩ : ∃ n, Decimal ds n := by
      rcases ds with _ | ⟨a, _ | ⟨b, _ | ⟨c, _ | ⟨d, ds⟩⟩⟩⟩
      · exact absurd rfl hne
      · exact ⟨_, .one (hds a (by simp))⟩
      · exact ⟨_, .two (hds a (by simp)) (hds b (by simp))⟩
      · exact ⟨_, .three (hds a (by simp)) (hds b (by simp)) (hds c (by simp))⟩
      · simp only [List.length_cons] at hlen
        omega
    rwa [hn.value]
  · intro h
    refine ⟨?_, h.value⟩
    cases h with
    | one ha => simp [ha]
    | two ha hb => simp [ha, hb]
    | three ha hb hc => simp [ha, hb, hc]

theorem Decimal.head?_ne_minus {ds : List Char} {n : Nat} (h : Decimal ds n) : ds.head? ≠ some '-' := by
  cases h <;> rintro ⟨⟩ <;> contradiction

theorem number?_eq_some_iff {run : List Char} {v : Int} : number? run = some v ↔ Numeral run v := by
  unfold number?
  constructor
  · intro h
    split at h
    · rename_i hminus
      obtain ⟨ds, rfl⟩ := List.head?_eq_some_iff.mp hminus
      cases hn : natural? ds with
      | none => rw [List.tail_cons, hn] at h; cases h
      | some n => rw [List.tail_cons, hn] at h; cases h; exact .minus (natural?_eq_some_iff.mp hn)
    · cases hn : natural? run with
      | none => rw [hn] at h; cases h
      | some n => rw [hn] at h; cases h; exact .plain (natural?_eq_some_iff.mp hn)
  · intro h
    cases h with
    | plain hn => rw [if_neg hn.head?_ne_minus, natural?_eq_some_iff.mpr hn]; rfl
    | minus hn => rw [List.head?_cons, if_pos rfl, List.tail_cons, natural?_eq_some_iff.mpr hn]; rfl

theorem ofRun_eq_num {run : List Char} {v : Int} (h : Numeral run v) : ofRun run = .num v := by
  rw [ofRun, number?_eq_some_iff.mpr h]

theorem ofRun_eq_word {run : List Char} (h : ∀ v, ¬ Numeral run v) : ofRun run = .word (String.ofList run) := by
  have none : number? run = none := Option.eq_none_iff_forall_ne_some.mpr fun v hv => h v (number?_eq_some_iff.mp hv)
  rw [ofRun, none]

theorem digit_le {a : Char} (h : a.isDigit) : digit a ≤ 9 := by
  have : a.toNat ≤ 57 := (Char.isDigit_iff_toNat.mp h).2
  show a.toNat - 48 ≤ 9
  omega

theorem Decimal.le {ds : List Char} {n : Nat} (h : Decimal ds n) : n ≤ 999 := by
  cases h with
  | one ha =>
    have := digit_le ha
    omega
  | two ha hb =>
    have := digit_le ha
    have := digit_le hb
    omega
  | three ha hb hc =>
    have := digit_le ha
    have := digit_le hb
    have := digit_le hc
    omega

theorem Numeral.bounds {run : List Char} {v : Int} (h : Numeral run v) : -999 ≤ v ∧ v ≤ 999 := by
  cases h with
  | plain hn =>
    have := hn.le
    omega
  | minus hn =>
    have := hn.le
    omega

theorem Begins.num_bounds {before rest : List Char} {v : Int} (h : Begins before rest (.num v)) :
    -999 ≤ v ∧ v ≤ 999 := by
  cases h with
  | num _ _ numeral => exact numeral.bounds

/-! ## The token of a place -/

def runToken (run after : List Char) : Token :=
  if after.head? = some ':' then label (String.ofList run) else ofRun run

def begins? (before : List Char) : List Char → Option Token
  | [] => none
  | c :: cs =>
    if '#' ∈ before then none
    else if c = '#' then some (comment (String.ofList cs))
    else if c = ',' then some comma
    else if inRun c ∧ before.getLast?.any inRun = false then
      some (runToken ((c :: cs).takeWhile inRun) ((c :: cs).dropWhile inRun))
    else none

theorem any_inRun_eq_false {before : List Char} :
    before.getLast?.any inRun = false ↔ ∀ b ∈ before.getLast?, ¬ inRun b := by
  cases before.getLast? <;> simp

section
variable {before run after : List Char}

theorem maximalRun_takeWhile {c : Char} (cs : List Char) (code : '#' ∉ before)
    (left : ∀ b ∈ before.getLast?, ¬ inRun b) (hc : inRun c) :
    MaximalRun before ((c :: cs).takeWhile inRun) ((c :: cs).dropWhile inRun) where
  code := code
  chars := fun d hd => List.mem_takeWhile_imp hd
  left := left
  nonempty := by simp [hc]
  right := by
    intro d hd
    have := List.head?_dropWhile_not inRun (c :: cs)
    rw [Option.mem_def.mp hd] at this
    simpa using this

theorem MaximalRun.takeWhile (h : MaximalRun before run after) :
    (run ++ after).takeWhile inRun = run ∧ (run ++ after).dropWhile inRun = after := by
  have stop : after.takeWhile inRun = [] ∧ after.dropWhile inRun = after := by
    cases after with
    | nil => exact ⟨rfl, rfl⟩
    | cons a after =>
      have ha : ¬ inRun a = true := h.right a rfl
      simp [ha]
  rw [List.takeWhile_append_of_pos h.chars, List.dropWhile_append_of_pos h.chars, stop.1, stop.2, List.append_nil]
  exact ⟨rfl, rfl⟩

theorem MaximalRun.begins (h : MaximalRun before run after) : Begins before (run ++ after) (runToken run after) := by
  by_cases colon : after.head? = some ':'
  · rw [runToken, if_pos colon]
    obtain ⟨rest, rfl⟩ := List.head?_eq_some_iff.mp colon
    exact .label h
  · rw [runToken, if_neg colon]
    by_cases numeral : ∃ v, Numeral run v
    · obtain ⟨v, hv⟩ := numeral
      rw [ofRun_eq_num hv]
      exact .num h colon hv
    · have hword := not_exists.mp numeral
      rw [ofRun_eq_word hword]
      exact .word h colon hword

theorem begins?_run (h : MaximalRun before run after) : begins? before (run ++ after) = some (runToken run after) := by
  obtain ⟨htake, hdrop⟩ := h.takeWhile
  obtain ⟨c, cs, rfl⟩ := List.exists_cons_of_ne_nil h.nonempty
  have hc : inRun c := h.chars c List.mem_cons_self
  obtain ⟨-, hcomma, hash⟩ := ne_of_inRun hc
  rw [List.cons_append] at htake hdrop ⊢
  rw [begins?, if_neg h.code, if_neg hash, if_neg hcomma, if_pos ⟨hc, any_inRun_eq_false.mpr h.left⟩, htake, hdrop]

end

theorem begins?_eq_some_iff {before rest : List Char} {t : Token} :
    begins? before rest = some t ↔ Begins before rest t := by
  constructor
  · intro h
    cases rest with
    | nil => cases h
    | cons c cs =>
      simp only [begins?, Option.ite_none_left_eq_some] at h
      obtain ⟨code, h⟩ := h
      split at h
      · rename_i hash
        cases hash
        cases h
        exact .comment code
      · split at h
        · rename_i hcomma
          cases hcomma
          cases h
          exact .comma code
        · simp only [Option.ite_none_right_eq_some] at h
          obtain ⟨⟨hc, left⟩, h⟩ := h
          cases h
          have begins := (maximalRun_takeWhile cs code (any_inRun_eq_false.mp left) hc).begins
          rwa [List.takeWhile_append_dropWhile] at begins
  · intro h
    cases h with
    | label run => rw [begins?_run run]; rfl
    | num run colon hv => rw [begins?_run run, runToken, if_neg colon, ofRun_eq_num hv]
    | word run colon hv => rw [begins?_run run, runToken, if_neg colon, ofRun_eq_word hv]
    | comma code => simp [begins?, code]
    | comment code => simp [begins?, code]

/-! ## All places -/

def placedFrom (before : List Char) : List Char → List (Nat × Token)
  | [] => []
  | c :: cs => ((begins? before (c :: cs)).map fun t => (before.length, t)).toList ++ placedFrom (before ++ [c]) cs

theorem mem_placedFrom {before rest : List Char} {k : Nat} {t : Token} :
    (k, t) ∈ placedFrom before rest ↔
      before.length ≤ k ∧ Begins ((before ++ rest).take k) ((before ++ rest).drop k) t := by
  rw [← begins?_eq_some_iff]
  induction rest generalizing before with
  | nil =>
    have past : before.length ≤ k → begins? (before.take k) (before.drop k) = none := by
      intro hk
      rw [List.drop_eq_nil_of_le hk, begins?]
    simpa [placedFrom] using fun hk => by simp [past hk]
  | cons c cs ih =>
    have here : (k, t) ∈ ((begins? before (c :: cs)).map fun t => (before.length, t)).toList ↔
        k = before.length ∧ begins? before (c :: cs) = some t := by
      cases begins? before (c :: cs) <;> simp [eq_comm]
    rw [placedFrom, List.mem_append, here, ih, List.append_assoc, List.singleton_append, List.length_append,
      List.length_singleton]
    by_cases hk : k = before.length
    · subst hk
      simp
    · have : before.length + 1 ≤ k ↔ before.length ≤ k := by omega
      simp [hk, this]

theorem placedFrom_sorted (before rest : List Char) : (placedFrom before rest).Pairwise fun x y => x.1 < y.1 := by
  induction rest generalizing before with
  | nil => exact .nil
  | cons c cs ih =>
    have later : ∀ y ∈ placedFrom (before ++ [c]) cs, before.length < y.1 := by
      rintro ⟨k, t⟩ hy
      simpa [Nat.succ_le_iff] using (mem_placedFrom.mp hy).1
    rw [placedFrom]
    cases begins? before (c :: cs) with
    | none => exact ih _
    | some t => exact .cons later (ih _)

def tokensFrom (before rest : List Char) : List Token :=
  (placedFrom before rest).map Prod.snd

section
variable {before run cs : List Char} {c : Char}

theorem tokensFrom_cons : tokensFrom before (c :: cs) =
    (begins? before (c :: cs)).toList ++ tokensFrom (before ++ [c]) cs := by
  rw [tokensFrom, placedFrom, List.map_append]
  cases begins? before (c :: cs) <;> rfl

theorem tokensFrom_comment (h : '#' ∈ before) (cs : List Char) : tokensFrom before cs = [] := by
  induction cs generalizing before with
  | nil => rfl
  | cons c cs ih =>
    rw [tokensFrom_cons, begins?, if_pos h, ih (List.mem_append_left _ h)]
    rfl

theorem tokensFrom_skip (h : inRun c = false) (hcomma : c ≠ ',') (hash : c ≠ '#') (cs : List Char) :
    tokensFrom before (c :: cs) = tokensFrom (before ++ [c]) cs := by
  rw [tokensFrom_cons]
  simp [begins?, h, hcomma, hash]

theorem tokensFrom_inside (hc : inRun c) (hrun : ∀ d ∈ run, inRun d) (after : List Char) :
    tokensFrom (before ++ [c]) (run ++ after) = tokensFrom (before ++ c :: run) after := by
  induction run generalizing before c with
  | nil => rfl
  | cons d run ih =>
    have hd : inRun d := hrun d List.mem_cons_self
    obtain ⟨-, hcomma, hash⟩ := ne_of_inRun hd
    have inside : begins? (before ++ [c]) (d :: (run ++ after)) = none := by
      simp [begins?, hash, hcomma, hc]
    rw [List.cons_append, tokensFrom_cons, inside, ih hd fun e he => hrun e (List.mem_cons_of_mem _ he)]
    simp

theorem tokensFrom_run {after : List Char} (h : MaximalRun before run after) :
    tokensFrom before (run ++ after) = runToken run after :: tokensFrom (before ++ run) after := by
  have first := begins?_run h
  obtain ⟨c, cs, rfl⟩ := List.exists_cons_of_ne_nil h.nonempty
  have hcs : ∀ d ∈ cs, inRun d := fun d hd => h.chars d (List.mem_cons_of_mem _ hd)
  rw [List.cons_append] at first ⊢
  rw [tokensFrom_cons, first, tokensFrom_inside (h.chars c List.mem_cons_self) hcs]
  rfl

theorem tokensFrom_close (h : OpenRun before run) {after : List Char} (colon : after.head? ≠ some ':')
    (right : ∀ c ∈ after.head?, ¬ inRun c) :
    tokensFrom before (run ++ after) = close run ++ tokensFrom (before ++ run) after := by
  cases run with
  | nil => rw [List.append_nil]; rfl
  | cons c cs =>
    have run : MaximalRun before (c :: cs) after := { h with nonempty := nofun, right }
    rw [tokensFrom_run run, runToken, if_neg colon]
    rfl

end

/-! ## Scanning goes through the places -/

namespace OpenRun
variable {before run : List Char} {c : Char}

theorem start : OpenRun [] [] where
  code := nofun
  chars := nofun
  left := nofun

theorem grow (h : OpenRun before run) (hc : inRun c) : OpenRun before (run ++ [c]) where
  code := h.code
  chars := by
    intro d hd
    rcases List.mem_append.mp hd with hd | hd
    · exact h.chars d hd
    · rwa [List.mem_singleton.mp hd]
  left := h.left

theorem hash_not_mem (h : OpenRun before run) : '#' ∉ before ++ run := by
  intro hmem
  rcases List.mem_append.mp hmem with hb | hr
  · exact h.code hb
  · cases h.chars _ hr

theorem restart (h : OpenRun before run) (hc : inRun c = false) (hash : c ≠ '#') :
    OpenRun (before ++ run ++ [c]) [] where
  code := by simpa [hash.symm] using h.hash_not_mem
  chars := nofun
  left := by simp [hc]

theorem edge (h : OpenRun before run) : (∀ c ∈ (before ++ run).getLast?, ¬ inRun c) ↔ run = [] := by
  constructor
  · intro hedge
    by_contra hne
    have last := List.getLast?_eq_some_getLast hne
    exact hedge (run.getLast hne) (by simp [last]) (h.chars _ (List.getLast_mem hne))
  · rintro rfl
    rw [List.append_nil]
    exact h.left

end OpenRun

def StrayFrom (before rest : List Char) : Prop :=
  ∃ p q, rest = p ++ ':' :: q ∧ '#' ∉ before ++ p ∧ ∀ c ∈ (before ++ p).getLast?, ¬ inRun c

theorem strayFrom_cons {before cs : List Char} {c : Char} (h : '#' ∉ before) :
    StrayFrom before (c :: cs) ↔
      (c = ':' ∧ ∀ b ∈ before.getLast?, ¬ inRun b) ∨ StrayFrom (before ++ [c]) cs := by
  constructor
  · rintro ⟨p, q, he, hash, edge⟩
    cases p with
    | nil =>
      rw [List.append_nil] at edge
      exact .inl ⟨(List.cons.inj he).1, edge⟩
    | cons d p =>
      obtain ⟨rfl, rfl⟩ := List.cons.inj he
      exact .inr ⟨p, q, rfl, by simpa using hash, by simpa using edge⟩
  · rintro (⟨rfl, edge⟩ | ⟨p, q, rfl, hash, edge⟩)
    · exact ⟨[], cs, rfl, by simpa using h, by simpa using edge⟩
    · exact ⟨c :: p, q, rfl, by simpa using hash, by simpa using edge⟩

theorem scanFrom_eq_error_iff {before run cs : List Char} (h : OpenRun before run) (hcs : '#' ∉ cs) {e : LineError} :
    scanFrom run cs = .error e ↔ e = .strayColon ∧ StrayFrom (before ++ run) cs := by
  induction cs generalizing before run with
  | nil =>
    have none : ¬ StrayFrom (before ++ run) [] := fun ⟨p, q, he, _⟩ => by simp at he
    simp [scanFrom, none]
  | cons c cs ih =>
    obtain ⟨hash, hno⟩ : c ≠ '#' ∧ '#' ∉ cs := by simpa [eq_comm] using hcs
    rw [strayFrom_cons h.hash_not_mem, h.edge]
    by_cases hc : inRun c
    · rw [scanFrom_wordChar _ _ (isWordChar_of_inRun hc), ih (h.grow hc) hno]
      simp [(ne_of_inRun hc).1]
    · rw [Bool.not_eq_true] at hc
      have rest := ih (h.restart hc hash) hno
      rw [List.append_nil] at rest
      rcases (inRun_eq_false_iff hash).mp hc with hb | rfl | rfl
      · rw [scanFrom_blank _ _ hb, map_eq_error, rest]
        simp [(ne_of_isBlank hb).1]
      · rw [scanFrom_comma, map_eq_error, rest]
        simp
      · by_cases hrun : run = []
        · simp [scanFrom_colon, hrun, eq_comm]
        · rw [scanFrom_colon, if_neg hrun, map_eq_error, rest]
          simp [hrun]

theorem tokensFrom_scanFrom {before run cs tail : List Char} {ts : List Token} (h : OpenRun before run)
    (hcs : '#' ∉ cs) (htail : ∀ c ∈ tail.head?, c = '#') (hscan : scanFrom run cs = .ok ts) :
    tokensFrom before (run ++ (cs ++ tail)) = ts ++ tokensFrom (before ++ run ++ cs) tail := by
  -- `before` ends where the open run begins: a word character grows the run, any other one moves `before` past it
  induction cs generalizing before run ts with
  | nil =>
    cases hscan
    have colon : tail.head? ≠ some ':' := fun he => by cases htail _ he
    have right : ∀ c ∈ tail.head?, ¬ inRun c := fun c hc => by rw [htail c hc]; decide
    rw [List.nil_append, tokensFrom_close h colon right, List.append_nil]
  | cons c cs ih =>
    obtain ⟨hash, hno⟩ : c ≠ '#' ∧ '#' ∉ cs := by simpa [eq_comm] using hcs
    rw [List.cons_append]
    by_cases hc : inRun c
    · rw [scanFrom_wordChar _ _ (isWordChar_of_inRun hc)] at hscan
      simpa using ih (h.grow hc) hno hscan
    · rw [Bool.not_eq_true] at hc
      have right : ∀ d ∈ (c :: (cs ++ tail)).head?, ¬ inRun d := by simp [hc]
      have rest : ∀ {us}, scanFrom [] cs = .ok us → tokensFrom (before ++ run ++ [c]) (cs ++ tail) =
          us ++ tokensFrom (before ++ run ++ c :: cs) tail := by
        intro us hus
        simpa using ih (h.restart hc hash) hno hus
      rcases (inRun_eq_false_iff hash).mp hc with hb | rfl | rfl
      · rw [scanFrom_blank _ _ hb] at hscan
        obtain ⟨us, hus, rfl⟩ := map_eq_ok.mp hscan
        obtain ⟨colon, comma, -⟩ := ne_of_isBlank hb
        rw [tokensFrom_close h (by simp [colon]) right, tokensFrom_skip hc comma hash, rest hus,
          List.append_assoc (close run)]
      · rw [scanFrom_comma] at hscan
        obtain ⟨us, hus, rfl⟩ := map_eq_ok.mp hscan
        rw [tokensFrom_close h (by simp) right, tokensFrom_cons, begins?_eq_some_iff.mpr (.comma h.hash_not_mem),
          rest hus]
        simp
      · by_cases hrun : run = []
        · rw [scanFrom_colon, if_pos hrun] at hscan
          cases hscan
        · rw [scanFrom_colon, if_neg hrun] at hscan
          obtain ⟨us, hus, rfl⟩ := map_eq_ok.mp hscan
          rw [tokensFrom_run { h with nonempty := hrun, right }, tokensFrom_skip hc nofun nofun, rest hus]
          rfl

/-! ## Whole lines -/

section
variable (line : List Char)

theorem hash_not_mem_code : '#' ∉ line.takeWhile (· ≠ '#') := by
  intro h
  simpa using List.mem_takeWhile_imp h

theorem head?_comment : ∀ c ∈ (line.dropWhile (· ≠ '#')).head?, c = '#' := by
  intro c hc
  have := List.head?_dropWhile_not (fun c : Char => decide (c ≠ '#')) line
  rw [Option.mem_def.mp hc] at this
  simpa using this

theorem stray_iff : Stray line ↔ StrayFrom [] (line.takeWhile (· ≠ '#')) := by
  have edge : ∀ {p : List Char}, '#' ∉ p → ((∀ c ∈ p.getLast?, ¬ inRun c) ↔
      p = [] ∨ ∃ c, p.getLast? = some c ∧ (Text.isBlank c ∨ c = ',' ∨ c = ':')) := by
    intro p hp
    cases hlast : p.getLast? with
    | none => simp [List.getLast?_eq_none_iff.mp hlast]
    | some c =>
      have hash : c ≠ '#' := fun e => hp (e ▸ List.mem_of_getLast? hlast)
      have hne : p ≠ [] := fun e => by simp [e] at hlast
      simp [inRun_eq_false_iff hash, hne]
  constructor
  · rintro ⟨p, q, rfl, hp, hedge⟩
    have keep : ∀ c ∈ p ++ [':'], decide (c ≠ '#') = true := by
      intro c hc
      have : c ≠ '#' := fun e => by subst e; simp [hp] at hc
      simpa using this
    refine ⟨p, q.takeWhile (· ≠ '#'), ?_, hp, (edge hp).mpr hedge⟩
    rw [List.append_cons, List.takeWhile_append_of_pos keep, ← List.append_cons]
  · rintro ⟨p, q, he, hp, hedge⟩
    refine ⟨p, q ++ line.dropWhile (· ≠ '#'), ?_, hp, (edge hp).mp hedge⟩
    rw [← List.cons_append, ← List.append_assoc, ← he, List.takeWhile_append_dropWhile]

theorem tokensFrom_scanComment :
    tokensFrom (line.takeWhile (· ≠ '#')) (line.dropWhile (· ≠ '#')) = scanComment line := by
  have head := head?_comment line
  unfold scanComment
  cases hrest : line.dropWhile (· ≠ '#') with
  | nil => rfl
  | cons c text =>
    rw [hrest] at head
    obtain rfl : c = '#' := head c rfl
    rw [tokensFrom_cons, begins?_eq_some_iff.mpr (.comment (hash_not_mem_code line)), tokensFrom_comment (by simp)]
    rfl

theorem scan_eq_error_iff {e : LineError} : scan line = .error e ↔ e = .strayColon ∧ Stray line := by
  rw [scan, map_eq_error, scanCode_eq, scanFrom_eq_error_iff .start (hash_not_mem_code line), stray_iff]
  rfl

theorem scan_eq_tokensFrom {ts : List Token} (h : scan line = .ok ts) : ts = tokensFrom [] line := by
  obtain ⟨us, hus, rfl⟩ := map_eq_ok.mp h
  rw [scanCode_eq] at hus
  have code := tokensFrom_scanFrom .start (hash_not_mem_code line) (head?_comment line) hus
  simp only [List.nil_append, List.takeWhile_append_dropWhile, tokensFrom_scanComment] at code
  exact code.symm

end

/-- Scanning fails on lines with a stray colon and no others. For every other line it lists the tokens that begin at
the line's places, one for each place where one begins, in the order of the places; a number has at most three
digits. -/
theorem scan_lists_tokens (line : List Char) :
    (scan line = .error .strayColon ↔ Stray line) ∧
    (¬ Stray line → ∃ placed : List (Nat × Token), scan line = .ok (placed.map Prod.snd) ∧
      placed.Pairwise (fun x y => x.1 < y.1) ∧
      ∀ k t, (k, t) ∈ placed ↔ Begins (line.take k) (line.drop k) t) ∧
    ∀ ts v, scan line = .ok ts → .num v ∈ ts → -999 ≤ v ∧ v ≤ 999 := by
  have place : ∀ k t, (k, t) ∈ placedFrom [] line ↔ Begins (line.take k) (line.drop k) t := by
    intro k t
    simp [mem_placedFrom]
  refine ⟨by simp [scan_eq_error_iff], fun hstray => ⟨placedFrom [] line, ?_, placedFrom_sorted [] line, place⟩, ?_⟩
  · cases hscan : scan line with
    | error e => exact absurd ((scan_eq_error_iff line).mp hscan).2 hstray
    | ok ts => rw [scan_eq_tokensFrom line hscan]; rfl
  · intro ts v hscan hv
    rw [scan_eq_tokensFrom line hscan] at hv
    obtain ⟨⟨k, t⟩, hmem, rfl⟩ := List.mem_map.mp hv
    exact ((place k _).mp hmem).num_bounds

example : scan "10: MOV -7,0012# A: #B".toList =
    .ok [.label "10", .word "MOV", .num (-7), .comma, .word "0012", .comment " A: #B"] := by
  decide +kernel

end T21.Token
