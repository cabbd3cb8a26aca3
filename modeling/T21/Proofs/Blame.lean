import T21.Proofs.Grammar

/-!
# The first impossible token

Reading goes through stages, and the stage decides which tokens can come next. From every stage a line can be
completed, so a token that cannot come next is the first one that no readable line continues with, and it is the one
that the error is about. Only behind the comma between operands is it an error to stop.
-/

namespace T21.Line

/-- The part of a line that was read last. -/
inductive Stage where
  | start
  | label
  | mnemonic
  | first
  | comma
  | second
  | target
  | comment

namespace Stage

def next : Stage → Token → Option Stage
  | start, .label name => if Label.isName name then some label else none
  | start, .word w | label, .word w => if (Mnemonic.ofKeyword? w).isSome then some mnemonic else none
  | mnemonic, .num _ => some first
  | mnemonic, .word w =>
    if (Register.ofName? w).isSome then some first else if Label.isName w then some target else none
  | first, .comma => some comma
  | first, .word w =>
    if (Register.ofName? w).isSome then some second else if Label.isName w then some target else none
  | comma, .word w => if (Register.ofName? w).isSome then some second else none
  | second, .word w => if Label.isName w then some target else none
  | start, .comment _ | label, .comment _ | mnemonic, .comment _ | first, .comment _ | second, .comment _
  | target, .comment _ => some comment
  | _, _ => none

def blame : Stage → Token → LineError
  | _, .num v => .misplacedLiteral v
  | start, .label name => .invalidLabel name
  | start, .word w | label, .word w => .unknownMnemonic w
  | comma, t => .unexpected (t.text ++ " after `,`")
  | _, .label name => .secondLabel name
  | _, t => .unexpected t.text

def atEnd : Stage → Except LineError Unit
  | comma => .error (.unexpected "end of line after `,`")
  | _ => .ok ()

def check (s : Stage) : List Token → Except LineError Unit
  | [] => s.atEnd
  | t :: ts => (s.next t).elim (.error (s.blame t)) fun s' => s'.check ts

def reach (s : Stage) (ts : List Token) : Option Stage :=
  ts.foldlM next s

theorem next_operand {o : Operand} (ho : o.token.isOperand) : mnemonic.next o.token = some first := by
  cases o with
  | literal v => rfl
  | name w =>
    have hw : (Register.ofName? w).isSome := ho
    simp [Operand.token, next, hw]

/-! ## Reading goes through the stages -/

section
variable (ts : List Token)

theorem check_comment : comment.check ts = expectEnd ts := by
  rcases ts with _ | ⟨_ | _ | _ | _ | _, ts⟩ <;> rfl

theorem check_target : target.check ts = expectEnd (takeComment ts).2 := by
  rcases ts with _ | ⟨_ | _ | _ | _ | _, ts⟩
  case cons.comment => exact check_comment ts
  all_goals rfl

theorem check_second : second.check ts = target.check (takeTarget ts).2 := by
  rcases ts with _ | ⟨_ | w | _ | _ | _, ts⟩
  case cons.word => by_cases hw : Label.isName w <;> simp [check, next, takeTarget, hw, blame]
  all_goals rfl

theorem check_first : first.check ts = takeSecond ts >>= fun p => second.check p.2 := by
  rcases ts with _ | ⟨_ | w | _ | _ | _, ts⟩
  case cons.comma =>
    show comma.check ts = _
    simp only [takeSecond]
    rcases takeRegister_cases ts with ⟨w, rest, rfl, hw, hr⟩ | ⟨hr, hno⟩
    · have hw : (Register.ofName? w).isSome := hw
      simp only [hr, check, next, hw]
      rfl
    · rw [hr]
      rcases ts with _ | ⟨_ | w | _ | _ | _, ts⟩
      case cons.word =>
        have hw : (Register.ofName? w).isSome = false := hno _ _ rfl
        simp only [check, next, hw]
        rfl
      all_goals rfl
  case cons.word =>
    by_cases hw : (Register.ofName? w).isSome
    · simp only [check, next, takeSecond, takeRegister, hw]
      rfl
    · simp only [check, next, takeSecond, takeRegister, hw]
      rfl
  all_goals rfl

theorem check_mnemonic : mnemonic.check ts = takeOperands ts >>= fun p => second.check p.2.2 := by
  unfold takeOperands
  rcases takeOperand_cases ts with ⟨o, rest, rfl, ho, hr⟩ | ⟨hr, hno⟩
  · simp only [hr, check, next_operand ho, Option.elim, check_first]
    cases takeSecond rest <;> rfl
  · rw [hr]
    rcases ts with _ | ⟨_ | w | v | _ | _, ts⟩
    case cons.word =>
      have hw : (Register.ofName? w).isSome = false := hno _ _ rfl
      simp only [check, next, hw]
      rfl
    case cons.num => cases hno _ _ rfl
    all_goals rfl

theorem check_label (l : Line) :
    label.check ts = takeInstruction l ts >>= fun p => expectEnd (takeComment p.2).2 := by
  rcases ts with _ | ⟨_ | w | _ | _ | _, ts⟩
  case cons.word =>
    simp only [takeInstruction, check, next]
    cases hm : Mnemonic.ofKeyword? w with
    | none => rfl
    | some m =>
      show mnemonic.check ts = _
      rw [check_mnemonic]
      cases takeOperands ts with
      | error e => rfl
      | ok p =>
        show second.check p.2.2 = expectEnd (takeComment (takeTarget p.2.2).2).2
        rw [check_second, check_target]
  case cons.comment => exact check_comment ts
  all_goals rfl

theorem check_start : start.check ts = takeLabel ts >>= fun p => label.check p.2 := by
  rcases ts with _ | ⟨name | _ | _ | _ | _, ts⟩
  case cons.label => by_cases hn : Label.isName name <;> simp [check, next, takeLabel, hn, blame]
  all_goals rfl

end

theorem check_ofTokens (ts : List Token) : start.check ts = (fun _ => ()) <$> ofTokens ts := by
  rw [check_start, ofTokens]
  cases takeLabel ts with
  | error e => rfl
  | ok p =>
    show label.check p.2 = (fun _ => ()) <$> (takeInstruction { label := p.1 } p.2 >>= _)
    rw [check_label p.2 { label := p.1 }]
    cases takeInstruction { label := p.1 } p.2 with
    | error e => rfl
    | ok q =>
      show expectEnd (takeComment q.2).2 = (fun _ => ()) <$> (expectEnd (takeComment q.2).2 >>= _)
      cases expectEnd (takeComment q.2).2 <;> rfl

/-! ## What stops reading -/

section
variable {s s' : Stage} {ts : List Token} {e : LineError}

theorem reach_cons (s : Stage) (t : Token) (ts : List Token) :
    s.reach (t :: ts) = (s.next t).bind fun s' => s'.reach ts := by
  simp [reach]

theorem reach_snoc (s : Stage) (ts : List Token) (t : Token) :
    s.reach (ts ++ [t]) = (s.reach ts).bind fun s' => s'.next t := by
  simp [reach]

theorem check_of_reach (h : s.reach ts = some s') (more : List Token) : s.check (ts ++ more) = s'.check more := by
  induction ts generalizing s with
  | nil =>
    cases h
    rfl
  | cons t ts ih =>
    rw [reach_cons, Option.bind_eq_some_iff] at h
    obtain ⟨u, hu, h⟩ := h
    simp only [List.cons_append, check, hu, Option.elim]
    exact ih h

theorem exists_reach {more : List Token} (h : s.check (ts ++ more) = .ok ()) : ∃ s', s.reach ts = some s' := by
  induction ts generalizing s with
  | nil => exact ⟨s, rfl⟩
  | cons t ts ih =>
    rw [List.cons_append, check] at h
    rw [reach_cons]
    cases hu : s.next t with
    | none =>
      rw [hu] at h
      cases h
    | some u =>
      rw [hu] at h
      exact ih h

theorem check_eq_error_iff : s.check ts = .error e ↔
    (s.reach ts = some comma ∧ e = .unexpected "end of line after `,`") ∨
    ∃ before t rest s', ts = before ++ t :: rest ∧ s.reach before = some s' ∧ s'.next t = none ∧ e = s'.blame t := by
  constructor
  · intro h
    induction ts generalizing s with
    | nil =>
      cases s with
      | comma =>
        cases h
        exact .inl ⟨rfl, rfl⟩
      | _ => cases h
    | cons t ts ih =>
      simp only [check] at h
      cases hu : s.next t with
      | none =>
        rw [hu] at h
        cases h
        exact .inr ⟨[], t, ts, s, rfl, rfl, hu, rfl⟩
      | some u =>
        rw [hu] at h
        rcases ih h with ⟨hr, he⟩ | ⟨before, t', rest, s', rfl, hr, hn, he⟩
        · exact .inl ⟨by rw [reach_cons, hu]; exact hr, he⟩
        · exact .inr ⟨t :: before, t', rest, s', rfl, by rw [reach_cons, hu]; exact hr, hn, he⟩
  · rintro (⟨hr, rfl⟩ | ⟨before, t, rest, s', rfl, hr, hn, rfl⟩)
    · have := check_of_reach hr []
      rw [List.append_nil] at this
      rw [this]
      rfl
    · rw [check_of_reach hr, check, hn]
      rfl

theorem exists_complete (s : Stage) : ∃ more, s.check more = .ok () := by
  cases s with
  | comma =>
    have acc : (Register.ofName? "ACC").isSome := by decide +kernel
    exact ⟨[.word "ACC"], by simp [check, next, acc, atEnd]⟩
  | _ => exact ⟨[], rfl⟩

end

/-! ## What has been read -/

inductive Leads : Stage → Token → Stage → Prop
  | label {name : String} : Label.isName name → Leads start (.label name) label
  | mnemonic {s : Stage} (m : Mnemonic) : s = start ∨ s = label → Leads s (.word m.keyword) mnemonic
  | first {t : Token} : t.isOperand → Leads mnemonic t first
  | comma : Leads first .comma comma
  | second {s : Stage} {w : String} : s = first ∨ s = comma → Leads s (.word w) second
  | target {s : Stage} {w : String} : Leads s (.word w) target
  | comment {s : Stage} {text : String} : Leads s (.comment text) comment

section
variable {s s' : Stage} {ts : List Token} {t : Token}

theorem leads_of_keyword {w : String} (hs : s = start ∨ s = label)
    (h : (if (Mnemonic.ofKeyword? w).isSome then some mnemonic else none) = some s') : Leads s (.word w) s' := by
  obtain ⟨known, he⟩ := Option.ite_none_right_eq_some.mp h
  obtain ⟨m, hm⟩ := Option.isSome_iff_exists.mp known
  obtain rfl := ofKeyword?_eq_some.mp hm
  cases he
  exact .mnemonic m hs

theorem leads_of_name {w : String} (h : (if Label.isName w then some target else none) = some s') :
    Leads s (.word w) s' := by
  obtain ⟨-, he⟩ := Option.ite_none_right_eq_some.mp h
  cases he
  exact .target

theorem leads_of_next (h : s.next t = some s') : Leads s t s' := by
  cases t with
  | label name =>
    cases s with
    | start =>
      obtain ⟨named, he⟩ := Option.ite_none_right_eq_some.mp h
      cases he
      exact .label named
    | _ => cases h
  | word w =>
    cases s with
    | start => exact leads_of_keyword (.inl rfl) h
    | label => exact leads_of_keyword (.inr rfl) h
    | mnemonic =>
      simp only [next] at h
      by_cases register : (Register.ofName? w).isSome
      · rw [if_pos register] at h
        cases h
        exact .first register
      · rw [if_neg register] at h
        exact leads_of_name h
    | first =>
      simp only [next] at h
      by_cases register : (Register.ofName? w).isSome
      · rw [if_pos register] at h
        cases h
        exact .second (.inl rfl)
      · rw [if_neg register] at h
        exact leads_of_name h
    | comma =>
      obtain ⟨-, he⟩ := Option.ite_none_right_eq_some.mp h
      cases he
      exact .second (.inr rfl)
    | second => exact leads_of_name h
    | target => cases h
    | comment => cases h
  | num v =>
    cases s with
    | mnemonic =>
      cases h
      exact .first rfl
    | _ => cases h
  | comma =>
    cases s with
    | first =>
      cases h
      exact .comma
    | _ => cases h
  | comment text =>
    cases s with
    | comma => cases h
    | comment => cases h
    | _ =>
      cases h
      exact .comment

theorem reach_cases (h : start.reach ts = some s') :
    ts = [] ∧ s' = start ∨ ∃ init t s, ts = init ++ [t] ∧ start.reach init = some s ∧ Leads s t s' := by
  rcases List.eq_nil_or_concat ts with rfl | ⟨init, t, rfl⟩
  · cases h
    exact .inl ⟨rfl, rfl⟩
  · rw [List.concat_eq_append, reach_snoc, Option.bind_eq_some_iff] at h
    obtain ⟨s, hs, hn⟩ := h
    exact .inr ⟨init, t, s, List.concat_eq_append, hs, leads_of_next hn⟩

theorem reach_start (h : start.reach ts = some start) : ts = [] := by
  rcases reach_cases h with ⟨rfl, -⟩ | ⟨init, t, s, -, -, hf⟩
  · rfl
  · cases hf

theorem reach_label (h : start.reach ts = some label) : ∃ name, Label.isName name ∧ ts = [.label name] := by
  rcases reach_cases h with ⟨-, hs⟩ | ⟨init, t, s, rfl, hi, hf⟩
  · cases hs
  · cases hf with
    | label hn => exact ⟨_, hn, by rw [reach_start hi]; rfl⟩

theorem reach_mnemonic (h : start.reach ts = some mnemonic) : ∃ (label : Option String) (m : Mnemonic),
    (∀ name, label = some name → Label.isName name) ∧ ts = (label.map Token.label).toList ++ [.word m.keyword] := by
  rcases reach_cases h with ⟨-, hs⟩ | ⟨init, t, s, rfl, hi, hf⟩
  · cases hs
  · cases hf with
    | mnemonic m hs =>
      rcases hs with rfl | rfl
      · exact ⟨none, m, nofun, by rw [reach_start hi]; rfl⟩
      · obtain ⟨name, hn, rfl⟩ := reach_label hi
        exact ⟨some name, m, fun _ he => Option.some.inj he ▸ hn, rfl⟩

theorem exists_operand (h : t.isOperand) : ∃ o : Operand, t = o.token := by
  cases t with
  | num v => exact ⟨.literal v, rfl⟩
  | word w => exact ⟨.name w, rfl⟩
  | _ => cases h

theorem reach_comma (h : start.reach ts = some comma) : ∃ (label : Option String) (m : Mnemonic) (o : Operand),
    (∀ name, label = some name → Label.isName name) ∧ o.token.isOperand ∧
      ts = (label.map Token.label).toList ++ [.word m.keyword, o.token, .comma] := by
  rcases reach_cases h with ⟨-, hs⟩ | ⟨init, t, s, rfl, hi, hf⟩
  · cases hs
  · cases hf
    rcases reach_cases hi with ⟨-, hs⟩ | ⟨init', t', s', rfl, hi', hf'⟩
    · cases hs
    · cases hf' with
      | first ho =>
        obtain ⟨label, m, hn, rfl⟩ := reach_mnemonic hi'
        obtain ⟨o, rfl⟩ := exists_operand ho
        exact ⟨label, m, o, hn, ho, by simp⟩

theorem reach_to_comma {label : Option String} {m : Mnemonic} {o : Operand}
    (hn : ∀ name, label = some name → Label.isName name) (ho : o.token.isOperand) :
    start.reach ((label.map Token.label).toList ++ [.word m.keyword, o.token, .comma]) = some comma := by
  have keyword : ∀ s : Stage, s = .start ∨ s = .label → s.next (.word m.keyword) = some mnemonic := by
    rintro s (rfl | rfl) <;> simp [next, ofKeyword?_eq_some.mpr rfl]
  have tail : mnemonic.reach [o.token, .comma] = some comma := by
    rw [reach_cons, next_operand ho]
    rfl
  cases label with
  | none =>
    show start.reach (.word m.keyword :: [o.token, .comma]) = _
    rw [reach_cons, keyword _ (.inl rfl), Option.bind_some, tail]
  | some name =>
    have named : start.next (.label name) = some .label := by simp [next, hn name rfl]
    show start.reach (.label name :: .word m.keyword :: [o.token, .comma]) = _
    rw [reach_cons, named, Option.bind_some, reach_cons, keyword _ (.inr rfl), Option.bind_some, tail]

end

end Stage

/-! ## Viable beginnings -/

theorem ofTokens_eq_error_iff {ts : List Token} {e : LineError} :
    ofTokens ts = .error e ↔ Stage.start.check ts = .error e := by
  rw [Stage.check_ofTokens]
  cases ofTokens ts with
  | error e' => exact ⟨fun h => by cases h; rfl, fun h => by cases h; rfl⟩
  | ok l => exact ⟨nofun, nofun⟩

def Viable (ts : List Token) : Prop :=
  ∃ more l, ofTokens (ts ++ more) = .ok l

theorem viable_iff_reach {ts : List Token} : Viable ts ↔ ∃ s, Stage.start.reach ts = some s := by
  have ok : ∀ us, (∃ l, ofTokens us = .ok l) ↔ Stage.start.check us = .ok () := by
    intro us
    rw [Stage.check_ofTokens]
    cases ofTokens us with
    | error e => exact ⟨fun ⟨_, h⟩ => (by cases h), fun h => (by cases h)⟩
    | ok l => exact ⟨fun _ => rfl, fun _ => ⟨l, rfl⟩⟩
  simp only [Viable, ok]
  constructor
  · rintro ⟨more, h⟩
    exact Stage.exists_reach h
  · rintro ⟨s, hs⟩
    obtain ⟨more, h⟩ := s.exists_complete
    exact ⟨more, by rw [Stage.check_of_reach hs, h]⟩

theorem Viable.of_append {ts us : List Token} (h : Viable (ts ++ us)) : Viable ts := by
  obtain ⟨more, l, h⟩ := h
  exact ⟨us ++ more, l, by rwa [← List.append_assoc]⟩

theorem viable_snoc_iff {before : List Token} {s : Stage} (h : Stage.start.reach before = some s) (t : Token) :
    Viable (before ++ [t]) ↔ (s.next t).isSome := by
  rw [viable_iff_reach, Stage.reach_snoc, h, Option.bind_some, Option.isSome_iff_exists]

theorem viable_take_iff {before : List Token} {t : Token} (rest : List Token) (h : Viable before)
    (ht : ¬ Viable (before ++ [t])) (j : Nat) : Viable ((before ++ t :: rest).take j) ↔ j ≤ before.length := by
  constructor
  · intro hj
    apply Nat.le_of_not_lt
    intro hlt
    apply ht
    have longer : before ++ [t] <+: (before ++ t :: rest).take j := by
      rw [List.prefix_take_iff]
      exact ⟨⟨rest, by simp⟩, by simp; omega⟩
    obtain ⟨us, hus⟩ := longer
    rw [← hus] at hj
    exact hj.of_append
  · intro hj
    rw [List.take_append_of_le_length hj]
    rw [← List.take_append_drop j before] at h
    exact h.of_append

/-! ## Blame -/

/-- A mnemonic would come next. -/
def atMnemonic : List Token → Bool
  | [] | [.label _] => true
  | _ => false

def blame (before : List Token) (t : Token) : LineError :=
  match t with
  | .num v => .misplacedLiteral v
  | .label name =>
    if before = [] then .invalidLabel name
    else if before.getLast? = some .comma then .unexpected (t.text ++ " after `,`")
    else .secondLabel name
  | .word w =>
    if atMnemonic before then .unknownMnemonic w
    else if before.getLast? = some .comma then .unexpected (t.text ++ " after `,`")
    else .unexpected t.text
  | _ => if before.getLast? = some .comma then .unexpected (t.text ++ " after `,`") else .unexpected t.text

theorem unmarked_of_reach {before : List Token} {s : Stage} (h : Stage.start.reach before = some s)
    (hs : s ≠ .start) (hl : s ≠ .label) (hc : s ≠ .comma) :
    before ≠ [] ∧ atMnemonic before = false ∧ before.getLast? ≠ some .comma := by
  rcases Stage.reach_cases h with ⟨-, rfl⟩ | ⟨init, t, s', rfl, hi, hf⟩
  · exact absurd rfl hs
  refine ⟨by simp, ?_, ?_⟩
  · unfold atMnemonic
    split
    · simp_all
    · rename_i name he
      obtain ⟨rfl, ht⟩ : init = [] ∧ [t] = [.label name] := List.append_inj' he rfl
      cases ht
      cases hf with
      | label => exact absurd rfl hl
      | first ho => cases ho
    · rfl
  · rw [List.getLast?_concat]
    intro ht
    cases ht
    cases hf with
    | comma => exact hc rfl
    | first ho => cases ho

theorem blame_of_reach {before : List Token} {s : Stage} (h : Stage.start.reach before = some s) (t : Token) :
    s.blame t = blame before t := by
  cases s with
  | start =>
    rw [Stage.reach_start h]
    cases t <;> rfl
  | label =>
    obtain ⟨name, -, rfl⟩ := Stage.reach_label h
    cases t <;> rfl
  | comma =>
    obtain ⟨label, m, o, -, -, rfl⟩ := Stage.reach_comma h
    cases label <;> cases t <;> simp [Stage.blame, blame, atMnemonic]
  | _ =>
    obtain ⟨hne, hm, hc⟩ := unmarked_of_reach h nofun nofun nofun
    cases t <;> simp [Stage.blame, blame, hne, hm, hc]

/-- **Errors blame the first impossible token.** Reading fails in one of two ways. A line ends behind the comma that
follows its first operand; or it has a position up to which its beginnings are viable and past which they are not,
and the error is about the token there. -/
theorem ofTokens_blames_first_impossible (ts : List Token) (e : LineError) :
    ofTokens ts = .error e ↔
      (∃ (label : Option String) (m : Mnemonic) (o : Operand), (∀ name, label = some name → Label.isName name) ∧
        o.token.isOperand ∧ ts = (label.map Token.label).toList ++ [.word m.keyword, o.token, .comma] ∧
        e = .unexpected "end of line after `,`") ∨
      ∃ i t, ts[i]? = some t ∧ (∀ j, Viable (ts.take j) ↔ j ≤ i) ∧ e = blame (ts.take i) t := by
  rw [ofTokens_eq_error_iff, Stage.check_eq_error_iff]
  apply or_congr
  · constructor
    · rintro ⟨hr, he⟩
      obtain ⟨label, m, o, hn, ho, hts⟩ := Stage.reach_comma hr
      exact ⟨label, m, o, hn, ho, hts, he⟩
    · rintro ⟨label, m, o, hn, ho, rfl, he⟩
      exact ⟨Stage.reach_to_comma hn ho, he⟩
  · constructor
    · rintro ⟨before, t, rest, s, rfl, hr, hno, rfl⟩
      have stops : ¬ Viable (before ++ [t]) := by
        rw [viable_snoc_iff hr, hno]
        simp
      refine ⟨before.length, t, by simp, viable_take_iff rest (viable_iff_reach.mpr ⟨s, hr⟩) stops, ?_⟩
      rw [List.take_left, blame_of_reach hr]
    · rintro ⟨i, t, hi, hv, rfl⟩
      obtain ⟨hlt, rfl⟩ := List.getElem?_eq_some_iff.mp hi
      obtain ⟨s, hr⟩ := viable_iff_reach.mp ((hv i).mpr (Nat.le_refl i))
      have stops : ¬ Viable (ts.take i ++ [ts[i]]) := by
        rw [List.take_append_getElem, hv]
        omega
      rw [viable_snoc_iff hr] at stops
      refine ⟨ts.take i, ts[i], ts.drop (i + 1), s, by simp, hr, by simpa using stops, ?_⟩
      rw [blame_of_reach hr]

end T21.Line
