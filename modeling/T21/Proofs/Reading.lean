import T21.Line
import T21.Proofs.Scan
import T21.Proofs.Text

/-!
# What is read of a line

Reading goes by the code of a line, the part before the first `#` in upper case, and by whether there is a `#` at
all. Blanks around the line do not count, and of a comment nothing but its presence does.
-/

namespace T21

open Text

/-! ## Muted comments -/

def Token.mute : Token → Token
  | .comment _ => .comment ""
  | t => t

def Line.mute (l : Line) : Line :=
  { l with comment := l.comment.map fun _ => "" }

namespace Line

def muteRest {α : Type} (p : α × List Token) : α × List Token :=
  (p.1, p.2.map Token.mute)

section
variable (ts : List Token)

theorem takeLabel_mute : takeLabel (ts.map Token.mute) = muteRest <$> takeLabel ts := by
  rcases ts with _ | ⟨_ | _ | _ | _ | _, ts⟩
  case cons.label name =>
    simp only [takeLabel, List.map_cons, Token.mute]
    split <;> rfl
  all_goals rfl

theorem takeRegister_mute : takeRegister (ts.map Token.mute) = muteRest (takeRegister ts) := by
  rcases ts with _ | ⟨_ | _ | _ | _ | _, ts⟩
  case cons.word w =>
    simp only [takeRegister, List.map_cons, Token.mute]
    split <;> rfl
  all_goals rfl

theorem takeOperand_mute : takeOperand (ts.map Token.mute) = muteRest (takeOperand ts) := by
  rcases ts with _ | ⟨_ | _ | _ | _ | _, ts⟩
  case cons.word w => exact takeRegister_mute (.word w :: ts)
  all_goals rfl

theorem takeTarget_mute : takeTarget (ts.map Token.mute) = muteRest (takeTarget ts) := by
  rcases ts with _ | ⟨_ | _ | _ | _ | _, ts⟩
  case cons.word w =>
    simp only [takeTarget, List.map_cons, Token.mute]
    split <;> rfl
  all_goals rfl

theorem takeComment_mute : takeComment (ts.map Token.mute) =
    ((takeComment ts).1.map fun _ => "", (takeComment ts).2.map Token.mute) := by
  rcases ts with _ | ⟨_ | _ | _ | _ | _, ts⟩ <;> rfl

theorem errorAfterComma_mute : errorAfterComma (ts.map Token.mute) = errorAfterComma ts := by
  rcases ts with _ | ⟨_ | _ | _ | _ | _, ts⟩ <;> rfl

theorem expectEnd_mute : expectEnd (ts.map Token.mute) = expectEnd ts := by
  rcases ts with _ | ⟨_ | _ | _ | _ | _, ts⟩ <;> rfl

theorem takeSecond_mute : takeSecond (ts.map Token.mute) = muteRest <$> takeSecond ts := by
  rcases ts with _ | ⟨_ | _ | _ | _ | _, ts⟩
  case cons.comma =>
    simp only [takeSecond, List.map_cons, Token.mute, takeRegister_mute]
    rcases takeRegister ts with ⟨_ | r, rest⟩
    · simp only [muteRest, errorAfterComma_mute]
      rfl
    · rfl
  case cons.word w => exact congrArg Except.ok (takeRegister_mute (.word w :: ts))
  all_goals rfl

theorem takeOperands_mute : takeOperands (ts.map Token.mute) =
    (fun p => (p.1, muteRest p.2)) <$> takeOperands ts := by
  simp only [takeOperands, takeOperand_mute]
  rcases takeOperand ts with ⟨_ | o, rest⟩
  · rfl
  · simp only [muteRest, takeSecond_mute]
    cases takeSecond rest <;> rfl

theorem takeInstruction_mute (l : Line) : takeInstruction l (ts.map Token.mute) =
    muteRest <$> takeInstruction l ts := by
  rcases ts with _ | ⟨_ | w | _ | _ | _, ts⟩
  case cons.word =>
    simp only [takeInstruction, List.map_cons, Token.mute]
    cases Mnemonic.ofKeyword? w with
    | none => rfl
    | some m =>
      simp only [takeOperands_mute]
      rcases takeOperands ts with _ | ⟨o, r, rest⟩
      · rfl
      · show Except.ok _ = Except.ok _
        simp only [muteRest, takeTarget_mute]
  all_goals rfl

theorem ofTokens_mute : ofTokens (ts.map Token.mute) = mute <$> ofTokens ts := by
  simp only [ofTokens, takeLabel_mute]
  rcases takeLabel ts with _ | ⟨label, ts⟩
  · rfl
  · show (takeInstruction { label } (ts.map Token.mute) >>= _) = mute <$> (takeInstruction { label } ts >>= _)
    rw [takeInstruction_mute]
    rcases takeInstruction { label } ts with _ | ⟨line, ts⟩
    · rfl
    · show (expectEnd (takeComment (ts.map Token.mute)).2 >>= fun _ =>
          .ok { line with comment := (takeComment (ts.map Token.mute)).1 }) =
        mute <$> (expectEnd (takeComment ts).2 >>= _)
      rw [takeComment_mute, expectEnd_mute]
      cases expectEnd (takeComment ts).2 <;> rfl

end

/-! ## The code of a line -/

def code (raw : String) : List Char :=
  upper (raw.toList.takeWhile (· ≠ '#'))

def tokens (raw : String) : Except LineError (List Token) :=
  (· ++ if '#' ∈ raw.toList then [.comment ""] else []) <$> Token.scanFrom [] (code raw)

theorem takeWhile_upper (cs : List Char) : (upper cs).takeWhile (· ≠ '#') = upper (cs.takeWhile (· ≠ '#')) := by
  have hash : (fun c : Char => decide (c ≠ '#')) ∘ Char.toUpper = fun c => decide (c ≠ '#') := by
    funext c
    simp [toUpper_eq_iff]
  rw [upper, List.takeWhile_map, hash, upper]

theorem mem_upper_iff (cs : List Char) : '#' ∈ upper cs ↔ '#' ∈ cs := by
  simp [upper, toUpper_eq_iff]

/-- Trimming takes nothing but blanks off the part before the first `#`. -/
theorem exists_takeWhile_trim (cs : List Char) : ∃ l r,
    cs.takeWhile (· ≠ '#') = l ++ (trim cs).takeWhile (· ≠ '#') ++ r ∧
      (∀ c ∈ l, isBlank c) ∧ ∀ c ∈ r, isBlank c := by
  obtain ⟨l, r, hcs, hl, hr⟩ := exists_trim cs
  have keep : ∀ {bs : List Char}, (∀ c ∈ bs, isBlank c) → ∀ c ∈ bs, decide (c ≠ '#') = true := by
    intro bs hb c hc
    simpa using (Token.ne_of_isBlank (hb c hc)).2.2
  have hcut : cs.takeWhile (· ≠ '#') = l ++ (trim cs ++ r).takeWhile (· ≠ '#') := by
    conv => lhs; rw [hcs, List.append_assoc]
    exact List.takeWhile_append_of_pos (keep hl)
  rw [hcut, List.takeWhile_append]
  split
  · rename_i hall
    rw [List.takeWhile_eq_self_iff.mpr (keep hr), (List.takeWhile_prefix _).eq_of_length hall, ← List.append_assoc]
    exact ⟨l, r, rfl, hl, hr⟩
  · exact ⟨l, [], by simp, hl, nofun⟩

theorem hash_mem_trim (cs : List Char) : '#' ∈ trim cs ↔ '#' ∈ cs := by
  obtain ⟨l, r, hcs, hl, hr⟩ := exists_trim cs
  have blank : ∀ {bs : List Char}, (∀ c ∈ bs, isBlank c) → '#' ∉ bs := by
    intro bs hb hmem
    exact (Token.ne_of_isBlank (hb _ hmem)).2.2 rfl
  conv => rhs; rw [hcs]
  simp [blank hl, blank hr]

theorem scanFrom_trim (cs : List Char) :
    Token.scanFrom [] ((upper (trim cs)).takeWhile (· ≠ '#')) =
      Token.scanFrom [] (upper (cs.takeWhile (· ≠ '#'))) := by
  have blank : ∀ {bs : List Char}, (∀ c ∈ bs, isBlank c) → ∀ c ∈ bs.map Char.toUpper, isBlank c := by
    intro bs hb c hc
    obtain ⟨b, hmem, rfl⟩ := List.mem_map.mp hc
    rw [isBlank_toUpper]
    exact hb b hmem
  obtain ⟨l, r, hcs, hl, hr⟩ := exists_takeWhile_trim cs
  rw [takeWhile_upper, hcs, upper, upper, List.map_append, List.map_append,
    Token.SameRest.append_blanks _ (blank hr), Token.scanFrom_blanks (blank hl)]

/-! ## Muted reading -/

theorem mute_close (run : List Char) : (Token.close run).map Token.mute = Token.close run := by
  cases run with
  | nil => rfl
  | cons c run =>
    simp only [Token.close, Token.ofRun, List.map_cons, List.map_nil]
    split <;> rfl

theorem mute_scanFrom {run cs : List Char} {ts : List Token} (h : Token.scanFrom run cs = .ok ts) :
    ts.map Token.mute = ts := by
  induction cs generalizing run ts with
  | nil =>
    cases h
    exact mute_close run
  | cons c cs ih =>
    simp only [Token.scanFrom] at h
    split at h
    · split at h
      · cases h
      · obtain ⟨us, hus, rfl⟩ := map_eq_ok.mp h
        rw [List.map_cons, ih hus]
        rfl
    · split at h
      · obtain ⟨us, hus, rfl⟩ := map_eq_ok.mp h
        rw [List.map_append, List.map_cons, ih hus, mute_close]
        rfl
      · split at h
        · obtain ⟨us, hus, rfl⟩ := map_eq_ok.mp h
          rw [List.map_append, ih hus, mute_close]
        · exact ih h

theorem mute_scanComment (line : List Char) :
    (Token.scanComment line).map Token.mute = if '#' ∈ line then [.comment ""] else [] := by
  have hnil : line.dropWhile (· ≠ '#') = [] ↔ '#' ∉ line := by
    simp only [List.dropWhile_eq_nil_iff, decide_eq_true_eq]
    exact ⟨fun h hmem => h _ hmem rfl, fun h c hc e => h (e ▸ hc)⟩
  unfold Token.scanComment
  cases h : line.dropWhile (· ≠ '#') with
  | nil => rw [if_neg (hnil.mp h)]; rfl
  | cons c text =>
    rw [if_pos]
    · rfl
    · by_contra hno
      rw [hnil.mpr hno] at h
      cases h

theorem mute_read (raw : String) : mute <$> read raw = tokens raw >>= ofTokens := by
  let line := upper (trim raw.toList)
  have hscan : Token.scan line = (· ++ Token.scanComment line) <$> Token.scanFrom [] (code raw) := by
    rw [Token.scan, Token.scanCode_eq, scanFrom_trim, code]
  have hhash : '#' ∈ line ↔ '#' ∈ raw.toList := (mem_upper_iff _).trans (hash_mem_trim _)
  show mute <$> (Token.scan line >>= ofTokens) = _
  rw [hscan, tokens]
  cases h : Token.scanFrom [] (code raw) with
  | error cause => rfl
  | ok ts =>
    show mute <$> ofTokens (ts ++ Token.scanComment line) = ofTokens (ts ++ _)
    rw [← ofTokens_mute, List.map_append, mute_scanFrom h, mute_scanComment]
    simp only [hhash]

end Line

end T21
