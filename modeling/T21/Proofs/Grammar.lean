import T21.Line
import T21.Proofs.Except

/-!
# The grammar of lines

    [LABEL:] [MNEMONIC [OPERAND [[,] REGISTER]] [TARGET]] [# comment]

A word such as `LEFT` is a register and a label name, so a list of tokens may have more than one derivation.
Reading takes each optional part as soon as it can; it finds a derivation whenever there is one, and of all of
them the greedy one.
-/

namespace T21

def Token.isRegister : Token → Bool
  | .word w => (Register.ofName? w).isSome
  | _ => false

def Token.isOperand : Token → Bool
  | .num _ => true
  | t => t.isRegister

def Operand.token : Operand → Token
  | .name w => .word w
  | .literal v => .num v

namespace Line

def layout (l : Line) (comma : Bool) : List Token :=
  (l.label.map Token.label).toList ++ (l.mnemonic.map fun m => Token.word m.keyword).toList ++
    (l.first.map Operand.token).toList ++ (if comma then [Token.comma] else []) ++
    (l.second.map Operand.token).toList ++ (l.target.map Token.word).toList ++
    (l.comment.map Token.comment).toList

inductive Operands : Option Operand → Option Operand → List Token → Prop
  | none : Operands none none []
  | first {o : Operand} : o.token.isOperand → Operands (some o) none [o.token]
  | both {o : Operand} {w : String} : o.token.isOperand → (Token.word w).isRegister →
      Operands (some o) (some (.name w)) [o.token, .word w]
  | comma {o : Operand} {w : String} : o.token.isOperand → (Token.word w).isRegister →
      Operands (some o) (some (.name w)) [o.token, .comma, .word w]

inductive Body : Option Mnemonic → Option Operand → Option Operand → Option String → List Token → Prop
  | blank : Body none none none none []
  | instruction {m : Mnemonic} {o r : Option Operand} {t : Option String} {ts : List Token} :
      Operands o r ts → (∀ w, t = some w → Label.isName w) →
      Body (some m) o r t (.word m.keyword :: (ts ++ (t.map Token.word).toList))

structure Derives (ts : List Token) (l : Line) : Prop where
  label : ∀ name, l.label = some name → Label.isName name
  body : ∃ body, Body l.mnemonic l.first l.second l.target body ∧
    ts = (l.label.map Token.label).toList ++ body ++ (l.comment.map Token.comment).toList

/-- A first operand is there if the token after the mnemonic can be one, and a second one if the token after
the first and a comma, if there is one, can be it. -/
structure Greedy (ts : List Token) (l : Line) : Prop where
  first : ∀ m t rest, ts = (l.label.map Token.label).toList ++ .word m :: t :: rest →
    t.isOperand → l.first.isSome
  second : ∀ m t comma u rest, ts = (l.label.map Token.label).toList ++ .word m :: t :: (comma ++ u :: rest) →
    comma = [] ∨ comma = [.comma] → t.isOperand → u.isRegister → l.second.isSome

/-- No register is left to be a target while an operand is missing. -/
def Settled (l : Line) : Prop :=
  ∀ w, l.target = some w → (Token.word w).isRegister → l.first.isSome ∧ l.second.isSome

/-! ## Taking parts -/

theorem takeLabel_ok {ts rest : List Token} {label : Option String} (h : takeLabel ts = .ok (label, rest)) :
    (∀ name, label = some name → Label.isName name) ∧ ts = (label.map Token.label).toList ++ rest := by
  unfold takeLabel at h
  split at h
  · rename_i name ts
    by_cases hn : Label.isName name = true
    · simp only [hn, ite_true, Except.ok.injEq, Prod.mk.injEq] at h
      obtain ⟨rfl, rfl⟩ := h
      refine ⟨?_, rfl⟩
      intro n hn'
      cases hn'
      exact hn
    · simp [hn] at h
  · cases h
    exact ⟨nofun, rfl⟩

theorem takeRegister_cases (ts : List Token) :
    (∃ w rest, ts = .word w :: rest ∧ (Token.word w).isRegister ∧ takeRegister ts = (some (.name w), rest)) ∨
    takeRegister ts = (none, ts) ∧ ∀ t rest, ts = t :: rest → t.isRegister = false := by
  unfold takeRegister
  split
  · rename_i w rest
    by_cases hw : (Register.ofName? w).isSome = true
    · exact .inl ⟨w, rest, rfl, hw, by simp [hw]⟩
    · right
      refine ⟨by simp [hw], ?_⟩
      intro t rest h
      cases h
      simpa [Token.isRegister] using hw
  · rename_i hne
    right
    refine ⟨rfl, ?_⟩
    intro t rest h
    subst h
    cases t with
    | word w => exact absurd rfl (hne w rest)
    | _ => rfl

theorem takeOperand_cases (ts : List Token) :
    (∃ o rest, ts = o.token :: rest ∧ o.token.isOperand ∧ takeOperand ts = (some o, rest)) ∨
    takeOperand ts = (none, ts) ∧ ∀ t rest, ts = t :: rest → t.isOperand = false := by
  unfold takeOperand
  split
  · rename_i v rest
    exact .inl ⟨.literal v, rest, rfl, rfl, rfl⟩
  · rename_i hne
    rcases takeRegister_cases ts with ⟨w, rest, hts, hw, h⟩ | ⟨h, hno⟩
    · exact .inl ⟨.name w, rest, hts, hw, h⟩
    · right
      refine ⟨h, ?_⟩
      intro t rest ht
      have hr := hno t rest ht
      cases t with
      | num v => exact absurd ht (hne v rest)
      | _ => exact hr

theorem takeTarget_cases (ts : List Token) :
    (∃ w rest, ts = .word w :: rest ∧ Label.isName w ∧ takeTarget ts = (some w, rest)) ∨
    takeTarget ts = (none, ts) := by
  unfold takeTarget
  split
  · rename_i w rest
    by_cases hw : Label.isName w = true
    · exact .inl ⟨w, rest, rfl, hw, by simp [hw]⟩
    · exact .inr (by simp [hw])
  · exact .inr rfl

theorem takeComment_eq (ts : List Token) :
    ts = ((takeComment ts).1.map Token.comment).toList ++ (takeComment ts).2 := by
  unfold takeComment
  split <;> rfl

theorem ofKeyword?_eq_some {w : String} {m : Mnemonic} : Mnemonic.ofKeyword? w = some m ↔ w = m.keyword := by
  constructor
  · intro h
    have := List.find?_some h
    exact (eq_of_beq this).symm
  · intro h
    subst h
    cases m <;> decide +kernel

theorem takeSecond_ok {ts rest : List Token} {r : Option Operand} (h : takeSecond ts = .ok (r, rest)) :
    r = none ∧ ts = rest ∨
      ∃ w, r = some (.name w) ∧ (Token.word w).isRegister ∧
        (ts = .word w :: rest ∨ ts = .comma :: .word w :: rest) := by
  unfold takeSecond at h
  split at h
  · rename_i ts
    rcases takeRegister_cases ts with ⟨w, rest', rfl, hw, hr⟩ | ⟨hr, -⟩
    · simp only [hr, Except.ok.injEq, Prod.mk.injEq] at h
      obtain ⟨rfl, rfl⟩ := h
      exact .inr ⟨w, rfl, hw, .inr rfl⟩
    · simp [hr] at h
  · rcases takeRegister_cases ts with ⟨w, rest', rfl, hw, hr⟩ | ⟨hr, -⟩
    · simp only [hr, Except.ok.injEq, Prod.mk.injEq] at h
      obtain ⟨rfl, rfl⟩ := h
      exact .inr ⟨w, rfl, hw, .inl rfl⟩
    · simp only [hr, Except.ok.injEq, Prod.mk.injEq] at h
      exact .inl ⟨h.1.symm, h.2⟩

theorem takeOperands_ok {ts rest : List Token} {o r : Option Operand}
    (h : takeOperands ts = .ok (o, r, rest)) : ∃ used, Operands o r used ∧ ts = used ++ rest := by
  unfold takeOperands at h
  rcases takeOperand_cases ts with ⟨p, rest', hts, hp, ho⟩ | ⟨ho, -⟩
  · simp only [ho, bind_eq_ok] at h
    obtain ⟨⟨r', rest''⟩, hs, h⟩ := h
    cases h
    rcases takeSecond_ok hs with ⟨rfl, rfl⟩ | ⟨w, rfl, hw, rfl | rfl⟩
    · exact ⟨_, .first hp, hts⟩
    · exact ⟨_, .both hp hw, hts⟩
    · exact ⟨_, .comma hp hw, hts⟩
  · rw [ho] at h
    cases h
    exact ⟨_, .none, rfl⟩

theorem takeInstruction_ok {l l' : Line} {ts rest : List Token} (hl : l = { label := l.label })
    (h : takeInstruction l ts = .ok (l', rest)) :
    l'.label = l.label ∧ ∃ body, Body l'.mnemonic l'.first l'.second l'.target body ∧ ts = body ++ rest := by
  unfold takeInstruction at h
  split at h
  · rename_i w ts
    cases hm : Mnemonic.ofKeyword? w with
    | none => simp only [hm] at h; cases h
    | some m =>
      simp only [hm, bind_eq_ok] at h
      obtain ⟨⟨o, r, rest'⟩, hos, h⟩ := h
      obtain ⟨used, hu, rfl⟩ := takeOperands_ok hos
      obtain rfl := ofKeyword?_eq_some.mp hm
      rcases takeTarget_cases rest' with ⟨w, rest'', rfl, hw, ht⟩ | ht
      · simp only [ht] at h
        cases h
        exact ⟨rfl, _, .instruction hu (fun _ h => by cases h; exact hw), by simp⟩
      · simp only [ht] at h
        cases h
        exact ⟨rfl, _, .instruction hu nofun, by simp⟩
  · cases h
    rw [hl]
    exact ⟨rfl, [], .blank, rfl⟩

theorem expectEnd_ok {ts : List Token} (h : expectEnd ts = .ok ()) : ts = [] := by
  unfold expectEnd at h
  split at h
  · rfl
  all_goals cases h

theorem derives_of_ofTokens {ts : List Token} {l : Line} (h : ofTokens ts = .ok l) : Derives ts l := by
  simp only [ofTokens, bind_eq_ok] at h
  obtain ⟨⟨label, ts₁⟩, h₁, ⟨line, ts₂⟩, h₂, _, hend, h⟩ := h
  obtain ⟨hn, rfl⟩ := takeLabel_ok h₁
  obtain ⟨hl, body, hb, rfl⟩ := takeInstruction_ok rfl h₂
  have hc := takeComment_eq ts₂
  rw [expectEnd_ok hend, List.append_nil] at hc
  cases h
  have hl : line.label = label := hl
  refine ⟨fun name h => hn name (hl ▸ h), body, hb, ?_⟩
  simp only [hl, List.append_assoc]
  rw [← hc]

/-! ## Greedy derivations are read -/

theorem takeRegister_word {w : String} (hw : (Token.word w).isRegister) (rest : List Token) :
    takeRegister (.word w :: rest) = (some (.name w), rest) := by
  have hw : (Register.ofName? w).isSome = true := hw
  simp [takeRegister, hw]

theorem takeRegister_none {ts : List Token} (h : ∀ t rest, ts = t :: rest → t.isRegister = false) :
    takeRegister ts = (none, ts) := by
  rcases takeRegister_cases ts with ⟨w, rest, hts, hw, -⟩ | ⟨hr, -⟩
  · rw [h _ _ hts] at hw; cases hw
  · exact hr

theorem takeOperand_token {o : Operand} (ho : o.token.isOperand) (rest : List Token) :
    takeOperand (o.token :: rest) = (some o, rest) := by
  cases o with
  | literal v => rfl
  | name w => exact takeRegister_word ho rest

theorem takeOperand_none {ts : List Token} (h : ∀ t rest, ts = t :: rest → t.isOperand = false) :
    takeOperand ts = (none, ts) := by
  rcases takeOperand_cases ts with ⟨o, rest, hts, ho, -⟩ | ⟨hr, -⟩
  · rw [h _ _ hts] at ho; cases ho
  · exact hr

def afterOperands (t c : Option String) : List Token :=
  (t.map Token.word).toList ++ (c.map Token.comment).toList

theorem afterOperands_head {t c : Option String} {u : Token} {rest : List Token}
    (h : afterOperands t c = u :: rest) : (∃ w, t = some w ∧ u = .word w) ∨ ∃ text, u = .comment text := by
  cases t with
  | some w =>
    simp only [afterOperands, Option.map_some, Option.toList_some, List.cons_append, List.cons.injEq] at h
    exact .inl ⟨w, rfl, h.1.symm⟩
  | none =>
    cases c with
    | none => cases h
    | some text =>
      simp only [afterOperands, Option.map_none, Option.toList_none, List.nil_append, Option.map_some,
        Option.toList_some, List.cons.injEq] at h
      exact .inr ⟨text, h.1.symm⟩

theorem takeOperands_eq {o r : Option Operand} {t c : Option String} {used : List Token} (h : Operands o r used)
    (hs : ∀ w, t = some w → (Token.word w).isRegister → o.isSome ∧ r.isSome) :
    takeOperands (used ++ afterOperands t c) = .ok (o, r, afterOperands t c) := by
  -- with an operand missing, what follows is not a register
  have stop : (o.isSome ∧ r.isSome → False) → ∀ u rest, afterOperands t c = u :: rest →
      u.isRegister = false ∧ u.isOperand = false ∧ u ≠ .comma := by
    intro hno u rest hu
    rcases afterOperands_head hu with ⟨w, hw, rfl⟩ | ⟨text, rfl⟩
    · have hr : ¬ (Token.word w).isRegister = true := fun hr => hno (hs w hw hr)
      have hr : (Token.word w).isRegister = false := by simpa using hr
      exact ⟨hr, hr, nofun⟩
    · exact ⟨rfl, rfl, nofun⟩
  unfold takeOperands
  cases h with
  | none =>
    rw [List.nil_append, takeOperand_none fun u rest hu => (stop (by simp) u rest hu).2.1]
    rfl
  | @first o ho =>
    have hr : takeSecond (afterOperands t c) = .ok (none, afterOperands t c) := by
      unfold takeSecond
      split
      · rename_i hc
        exact absurd rfl (stop (by simp) _ _ hc).2.2
      · rw [takeRegister_none fun u rest hu => (stop (by simp) u rest hu).1]
    rw [List.singleton_append, takeOperand_token ho]
    simp only [hr]
    rfl
  | @both o w ho hw =>
    rw [List.cons_append, takeOperand_token ho, List.singleton_append]
    simp only [takeSecond, takeRegister_word hw]
    rfl
  | @comma o w ho hw =>
    rw [List.cons_append, takeOperand_token ho, List.cons_append, List.singleton_append]
    simp only [takeSecond, takeRegister_word hw]
    rfl

theorem takeTarget_eq {t : Option String} (c : Option String) (ht : ∀ w, t = some w → Label.isName w) :
    takeTarget (afterOperands t c) = (t, (c.map Token.comment).toList) := by
  cases t with
  | some w => simp [afterOperands, takeTarget, ht w rfl]
  | none => cases c <;> rfl

theorem takeInstruction_eq {m : Option Mnemonic} {o r : Option Operand} {t : Option String} {body : List Token}
    (label c : Option String) (h : Body m o r t body)
    (hs : ∀ w, t = some w → (Token.word w).isRegister → o.isSome ∧ r.isSome) :
    takeInstruction { label } (body ++ (c.map Token.comment).toList) =
      .ok ({ label, mnemonic := m, first := o, second := r, target := t }, (c.map Token.comment).toList) := by
  cases h with
  | blank => cases c <;> rfl
  | @instruction m o r t ts hos ht =>
    have hm : Mnemonic.ofKeyword? m.keyword = some m := ofKeyword?_eq_some.mpr rfl
    have he : .word m.keyword :: (ts ++ (t.map Token.word).toList) ++ (c.map Token.comment).toList =
        .word m.keyword :: (ts ++ afterOperands t c) := by simp [afterOperands]
    rw [he]
    simp only [takeInstruction, hm, takeOperands_eq hos hs]
    show Except.ok _ = _
    rw [takeTarget_eq c ht]

theorem takeLabel_eq {m : Option Mnemonic} {o r : Option Operand} {t : Option String} {body : List Token}
    {label : Option String} (c : Option String) (h : Body m o r t body)
    (hn : ∀ name, label = some name → Label.isName name) :
    takeLabel ((label.map Token.label).toList ++ (body ++ (c.map Token.comment).toList)) =
      .ok (label, body ++ (c.map Token.comment).toList) := by
  cases label with
  | some name => simp [takeLabel, hn name rfl]
  | none =>
    cases h with
    | blank => cases c <;> rfl
    | instruction => rfl

theorem ofTokens_of_settled {ts : List Token} {l : Line} (h : Derives ts l) (hs : l.Settled) :
    ofTokens ts = .ok l := by
  obtain ⟨body, hb, rfl⟩ := h.body
  simp only [ofTokens, List.append_assoc, takeLabel_eq l.comment hb h.label]
  show (takeInstruction { label := l.label } (body ++ (l.comment.map Token.comment).toList) >>= _) = _
  rw [takeInstruction_eq l.label l.comment hb hs]
  obtain ⟨label, m, o, r, t, c⟩ := l
  cases c <;> rfl

/-! ## Every derivation can be made greedy -/

/-- A register that stands as a target moves to the operand that is missing. -/
theorem derives_settled {ts : List Token} {l : Line} (h : Derives ts l) :
    ∃ l', Derives ts l' ∧ l'.Settled := by
  by_cases hs : l.Settled
  · exact ⟨l, h, hs⟩
  obtain ⟨w, hs⟩ := Classical.not_forall.mp hs
  obtain ⟨hw, hs⟩ := Classical.not_imp.mp hs
  obtain ⟨hr, hmiss⟩ := Classical.not_imp.mp hs
  obtain ⟨hl, body, hb, hts⟩ := h
  obtain ⟨label, m, o, r, t, c⟩ := l
  simp only at hw hmiss hb hts hl
  subst hw
  cases hb with
  | @instruction m o r t used hos ht =>
    cases hos with
    | none =>
      refine ⟨⟨label, some m, some (.name w), none, none, c⟩,
        ⟨hl, _, .instruction (.first hr) nofun, ?_⟩, nofun⟩
      simpa [Operand.token] using hts
    | @first o ho =>
      refine ⟨⟨label, some m, some o, some (.name w), none, c⟩,
        ⟨hl, _, .instruction (.both ho hr) nofun, ?_⟩, nofun⟩
      simpa using hts
    | both => exact absurd ⟨rfl, rfl⟩ hmiss
    | comma => exact absurd ⟨rfl, rfl⟩ hmiss

theorem settled_of_ofTokens {ts : List Token} {l : Line} (h : ofTokens ts = .ok l) : l.Settled := by
  obtain ⟨l', hd, hs⟩ := derives_settled (derives_of_ofTokens h)
  rw [ofTokens_of_settled hd hs] at h
  cases h
  exact hs

theorem Derives.settled_of_greedy {ts : List Token} {l : Line} (h : Derives ts l) (hg : Greedy ts l) :
    l.Settled := by
  intro w hw hr
  obtain ⟨-, body, hb, hts⟩ := h
  obtain ⟨label, m, o, r, t, c⟩ := l
  simp only at hw hb hts
  subst hw
  cases hb with
  | @instruction m o r t used hos ht =>
    cases hos with
    | none =>
      have := hg.first m.keyword (.word w) (c.map Token.comment).toList (by simpa using hts) hr
      cases this
    | @first o ho =>
      have := hg.second m.keyword o.token [] (.word w) (c.map Token.comment).toList
        (by simpa using hts) (.inl rfl) ho hr
      cases this
    | both => exact ⟨rfl, rfl⟩
    | comma => exact ⟨rfl, rfl⟩

theorem Derives.greedy_of_settled {ts : List Token} {l : Line} (h : Derives ts l) (hs : l.Settled) :
    Greedy ts l := by
  obtain ⟨-, body, hb, rfl⟩ := h
  obtain ⟨label, m, o, r, t, c⟩ := l
  simp only at hb
  -- a register or literal at the head of what follows the operands is a target that is settled
  have target : ∀ u rest, afterOperands t c = u :: rest → u.isOperand → o.isSome ∧ r.isSome := by
    intro u rest hu ho
    rcases afterOperands_head hu with ⟨w, hw, rfl⟩ | ⟨text, rfl⟩
    · exact hs w hw ho
    · cases ho
  cases hb with
  | blank =>
    refine ⟨fun m t rest he _ => ?_, fun m t comma u rest he _ _ _ => ?_⟩
    all_goals
      simp only [List.append_nil, List.append_cancel_left_eq] at he
      cases c <;> cases he
  | @instruction m o r t used hos ht =>
    have cancel : ∀ m' ts,
        (label.map Token.label).toList ++ .word m.keyword :: (used ++ (t.map Token.word).toList) ++
          (c.map Token.comment).toList = (label.map Token.label).toList ++ .word m' :: ts →
        used ++ afterOperands t c = ts := by
      intro m' ts he
      simp only [List.append_assoc, List.append_cancel_left_eq, List.cons_append, List.cons.injEq] at he
      simpa [afterOperands] using he.2
    constructor
    · intro m' u rest he hu
      have hc := cancel m' _ he
      cases hos with
      | none => exact (target u rest hc hu).1
      | first => rfl
      | both => rfl
      | comma => rfl
    · intro m' u comma v rest he hcomma hu hv
      have hc := cancel m' _ he
      cases hos with
      | none => exact (target u _ hc hu).2
      | @first o ho =>
        simp only [List.singleton_append, List.cons.injEq] at hc
        rcases hcomma with rfl | rfl
        · have hv : v.isOperand = true := by
            cases v with
            | word w => exact hv
            | _ => cases hv
          exact (target v rest hc.2 hv).2
        · rcases afterOperands_head hc.2 with ⟨w, -, hw⟩ | ⟨text, htext⟩
          · cases hw
          · cases htext
      | both => rfl
      | comma => rfl

theorem Derives.layout {ts : List Token} {l : Line} (h : Derives ts l) : ∃ comma, l.layout comma = ts := by
  obtain ⟨-, body, hb, rfl⟩ := h
  obtain ⟨label, m, o, r, t, c⟩ := l
  simp only at hb
  cases hb with
  | blank => exact ⟨false, by simp [Line.layout]⟩
  | instruction hos ht =>
    cases hos with
    | comma => exact ⟨true, by simp [Line.layout, Operand.token]⟩
    | _ => exact ⟨false, by simp [Line.layout, Operand.token]⟩

/-- **Reading follows the grammar.** Tokens are read exactly when they have a derivation. What is read is the one
greedy derivation; its parts, written out, are the tokens, and its target is no register unless both operands are
there. -/
theorem ofTokens_reads_greedily (ts : List Token) :
    ((∃ l, ofTokens ts = .ok l) ↔ ∃ l, Derives ts l) ∧
    (∀ l, ofTokens ts = .ok l ↔ Derives ts l ∧ Greedy ts l) ∧
    ∀ l, ofTokens ts = .ok l → (∃ comma, l.layout comma = ts) ∧
      ∀ w, l.target = some w → (Register.ofName? w).isSome → l.first.isSome ∧ l.second.isSome := by
  refine ⟨⟨?_, ?_⟩, fun l => ⟨?_, ?_⟩, fun l h => ⟨?_, ?_⟩⟩
  · intro h
    obtain ⟨l, h⟩ := h
    exact ⟨l, derives_of_ofTokens h⟩
  · intro h
    obtain ⟨l, h⟩ := h
    obtain ⟨l', hd, hs⟩ := derives_settled h
    exact ⟨l', ofTokens_of_settled hd hs⟩
  · intro h
    have hd := derives_of_ofTokens h
    exact ⟨hd, hd.greedy_of_settled (settled_of_ofTokens h)⟩
  · intro h
    obtain ⟨hd, hg⟩ := h
    exact ofTokens_of_settled hd (hd.settled_of_greedy hg)
  · exact (derives_of_ofTokens h).layout
  · exact settled_of_ofTokens h

-- `LEFT` may be the target or the operand, and is read as the operand
example : Derives [.word "JNZ", .word "LEFT"] { mnemonic := some .jnz, target := some "LEFT" } :=
  ⟨nofun, _, .instruction .none (fun _ h => by cases h; decide +kernel), rfl⟩

example : (ofTokens [.word "JNZ", .word "LEFT"]).toOption =
    some { mnemonic := some .jnz, first := some (.name "LEFT") } := by decide +kernel

end Line

end T21
