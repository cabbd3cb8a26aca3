import T21.Proofs.Clean
import T21.Proofs.Extend
import T21.Proofs.Reports
import T21.Proofs.Written

/-!
# Repaired programs

A line that does not read declares nothing and emits nothing, operands that do not fit leave the label of their
line in force, and a name that is taken does not keep its line from being assembled. So what is wrong with single
lines can be cut out of a program, and all that changes is that it is no longer reported.
-/

namespace T21

open Text

/-! ## Taking the label off a line -/

namespace Line

def afterLabel (raw : String) : String :=
  String.ofList (raw.toList.dropWhile (· ≠ ':')).tail

theorem ofTokens_label {name : String} {ts : List Token} {l : Line} (hl : l.label = some name)
    (h : ofTokens ts = .ok l) : ∃ us, ts = .label name :: us ∧ ofTokens us = .ok { l with label := none } := by
  have hs : l.Settled := settled_of_ofTokens h
  obtain ⟨-, body, hb, hts⟩ := derives_of_ofTokens h
  rw [hl] at hts
  have hd : Derives (body ++ (l.comment.map Token.comment).toList) { l with label := none } :=
    ⟨nofun, body, hb, rfl⟩
  exact ⟨_, hts, ofTokens_of_settled hd fun w hw => hs w hw⟩

theorem code_append {before : List Char} (h : '#' ∉ before) (rest : List Char) :
    code (String.ofList (before ++ rest)) = upper before ++ code (String.ofList rest) := by
  have keep : ∀ c ∈ before, decide (c ≠ '#') = true := by
    intro c hc
    simpa using fun e : c = '#' => h (e ▸ hc)
  simp only [code, String.toList_ofList, upper]
  rw [List.takeWhile_append_of_pos keep, List.map_append]

theorem exists_colon {raw : String} {before rest : List Char} (h : code raw = before ++ ':' :: rest)
    (hno : ':' ∉ before) :
    ∃ front, raw.toList = front ++ (afterLabel raw).toList ∧ '#' ∉ front ∧ code (afterLabel raw) = rest := by
  -- the first colon of the code is the first one of the line, since a comment comes later
  obtain ⟨front, more, hcut, rfl, hmore⟩ := List.map_eq_append_iff.mp h
  obtain ⟨c, tail, rfl, hc, rfl⟩ := List.map_eq_cons_iff.mp hmore
  obtain rfl := (toUpper_eq_iff (by decide)).mp hc
  have hash : '#' ∉ front ++ [':'] := by
    intro hmem
    have : '#' ∈ raw.toList.takeWhile (· ≠ '#') := by
      rw [hcut, List.append_cons]
      exact List.mem_append_left _ hmem
    simpa using List.mem_takeWhile_imp this
  have colon : ∀ d ∈ front, decide (d ≠ ':') = true := by
    intro d hd
    have : d ≠ ':' := fun e => hno (List.mem_map.mpr ⟨d, hd, by rw [e]; rfl⟩)
    simpa using this
  have hraw : raw.toList = front ++ ':' :: (tail ++ raw.toList.dropWhile (· ≠ '#')) := by
    rw [← List.cons_append, ← List.append_assoc, ← hcut, List.takeWhile_append_dropWhile]
  generalize raw.toList.dropWhile (· ≠ '#') = comment at hraw
  have hafter : afterLabel raw = String.ofList (tail ++ comment) := by
    rw [afterLabel, hraw, List.dropWhile_append_of_pos colon]
    rfl
  refine ⟨front ++ [':'], by simp [hraw, hafter], hash, ?_⟩
  have hcode := code_append hash (tail ++ comment)
  rw [← List.append_cons, ← hraw, String.ofList_toList, h, ← hafter] at hcode
  simpa [upper, show ':'.toUpper = ':' from rfl] using hcode.symm

theorem tokens_afterLabel {raw name : String} {ts : List Token}
    (h : tokens raw = .ok (.label name :: ts)) : tokens (afterLabel raw) = .ok ts := by
  obtain ⟨us, hscan, hus⟩ := map_eq_ok.mp h
  cases us with
  | nil => split at hus <;> cases hus
  | cons u us =>
    simp only [List.cons_append, List.cons.injEq] at hus
    obtain ⟨rfl, rfl⟩ := hus
    obtain ⟨before, rest, hcode, hno, hrest⟩ := Token.scanFrom_label hscan
    obtain ⟨front, hraw, hash, hafter⟩ := exists_colon hcode hno
    have hmem : '#' ∈ raw.toList ↔ '#' ∈ (afterLabel raw).toList := by
      rw [hraw, List.mem_append]
      exact or_iff_right hash
    simp only [tokens, hafter, hrest, hmem]
    rfl

theorem read_afterLabel {raw name : String} {l : Line} (h : read raw = .ok l) (hl : l.label = some name) :
    ∃ l', read (afterLabel raw) = .ok l' ∧ l'.label = none ∧ l'.encode = l.encode := by
  obtain ⟨ts, hts, hm⟩ := tokens_of_read h
  obtain ⟨us, rfl, hus⟩ := ofTokens_label (l := l.mute) hl hm
  obtain ⟨l', hl', hmute⟩ := read_of_tokens (tokens_afterLabel hts) hus
  have hlabel : l'.mute.label = none := by rw [hmute]
  have hencode : l'.mute.encode = l.encode := by rw [hmute]; rfl
  exact ⟨l', hl', hlabel, hencode⟩

end Line

/-! ## Repaired steps -/

namespace Step

def newLabel? (before : List Step) (t : Step) : Option String :=
  t.label?.filter fun name => name ∉ before.filterMap label?

def declaring (name : String) : Step → Step
  | .raw line _ => .raw line (name ++ ":")
  | .parts line _ => .parts line { label := some name }

def unlabelled : Step → Step
  | .raw line text => .raw line (Line.afterLabel text)
  | .parts line l => .parts line { l with label := none }

/-- Of a step at fault only a new label is kept. Any other step is kept, less a label that is taken. -/
def repair? (before : List Step) (t : Step) : Option Step :=
  match t.fault? with
  | some _ => (t.newLabel? before).map t.declaring
  | none => some (if t.newLabel? before = t.label? then t else t.unlabelled)

end Step

def repaired (steps : List Step) : List Step :=
  Step.walk (fun before t => (t.repair? before).toList) [] steps

namespace Step
variable {t : Step}

theorem declaring_spec {name : String} (h : t.label? = some name) :
    (t.declaring name).line = t.line ∧ (t.declaring name).label? = some name ∧
      (t.declaring name).instruction? = none ∧ (t.declaring name).fault? = none := by
  cases t with
  | parts n l => exact ⟨rfl, rfl, rfl, rfl⟩
  | raw n text =>
    obtain ⟨l, hr, hl⟩ := (label?_raw n text name).mp h
    have hc := content?_of_read (read_label (Line.isName_of_read hr hl)) n
    rw [declaring, label?, instruction?, fault?_of_content? hc, hc]
    exact ⟨rfl, rfl, rfl, rfl⟩

theorem unlabelled_spec {name : String} (h : t.label? = some name) :
    t.unlabelled.line = t.line ∧ t.unlabelled.label? = none ∧
      t.unlabelled.instruction? = t.instruction? ∧ t.unlabelled.fault? = t.fault? := by
  cases t with
  | parts n l => exact ⟨rfl, rfl, rfl, rfl⟩
  | raw n text =>
    obtain ⟨l, hr, hl⟩ := (label?_raw n text name).mp h
    obtain ⟨l', hr', hl', hencode⟩ := Line.read_afterLabel hr hl
    have hc := content?_of_read hr n
    have hc' := content?_of_read hr' n
    rw [unlabelled, label?, instruction?, instruction?, fault?_of_content? hc, fault?_of_content? hc', hc, hc']
    exact ⟨rfl, hl', by simp [Line.instruction?, hencode], by simp [Line.fault?, hencode]⟩

theorem repair?_some {before : List Step} {t' : Step} (h : t.repair? before = some t') :
    t'.line = t.line ∧ t'.label? = t.newLabel? before ∧ t'.instruction? = t.instruction? ∧ t'.fault? = none := by
  unfold repair? at h
  split at h
  · rename_i f hf
    obtain ⟨name, hn, rfl⟩ := Option.map_eq_some_iff.mp h
    obtain ⟨hline, hlabel, hi, hfault⟩ := declaring_spec (Option.filter_eq_some_iff.mp hn).1
    rw [instruction?_of_fault? hf, hn]
    exact ⟨hline, hlabel, hi, hfault⟩
  · rename_i hf
    cases h
    by_cases hnew : t.newLabel? before = t.label?
    · rw [if_pos hnew, hnew]
      exact ⟨rfl, rfl, rfl, hf⟩
    · rw [if_neg hnew]
      cases hl : t.label? with
      | none => exact absurd (by rw [newLabel?, hl, Option.filter_none]) hnew
      | some name =>
        have taken : t.newLabel? before = none := by
          rw [newLabel?, hl, Option.filter_some] at hnew ⊢
          by_cases hmem : name ∈ before.filterMap label?
          · simp [hmem]
          · simp [hmem] at hnew
        obtain ⟨hline, hlabel, hi, hfault⟩ := unlabelled_spec hl
        exact ⟨hline, hlabel.trans taken.symm, hi, hfault.trans hf⟩

theorem repair?_none {before : List Step} (h : t.repair? before = none) :
    t.newLabel? before = none ∧ t.instruction? = none := by
  unfold repair? at h
  split at h
  · rename_i f hf
    exact ⟨Option.map_eq_none_iff.mp h, instruction?_of_fault? hf⟩
  · cases h

end Step

theorem repaired_eq_self {steps : List Step} (fault : ∀ t ∈ steps, t.fault? = none)
    (nodup : (steps.filterMap Step.label?).Nodup) : repaired steps = steps := by
  induction steps using List.reverseRecOn with
  | nil => rfl
  | append_singleton steps t ih =>
    rw [List.filterMap_append, List.nodup_append] at nodup
    obtain ⟨hsteps, -, hne⟩ := nodup
    have label : t.newLabel? steps = t.label? := by
      cases ht : t.label? with
      | none => rw [Step.newLabel?, ht, Option.filter_none]
      | some name =>
        have hmem : name ∈ [t].filterMap Step.label? := List.mem_filterMap.mpr ⟨t, List.mem_singleton_self t, ht⟩
        have hnew : name ∉ steps.filterMap Step.label? := fun hb => hne name hb name hmem rfl
        rw [Step.newLabel?, ht, Option.filter_some, if_pos (decide_eq_true hnew)]
    have kept : t.repair? steps = some t := by
      rw [Step.repair?, fault t (by simp)]
      exact congrArg some (if_pos label)
    rw [repaired, Step.walk_snoc, ← repaired, List.nil_append, kept,
      ih (fun u hu => fault u (List.mem_append_left _ hu)) hsteps]
    rfl

/-! ## Repaired runs -/

namespace Assembler

/-- The second assembler holds what the first holds, less the reports on single lines. -/
structure Mirrors (s r : Assembler) : Prop where
  source : r.source = s.source
  labels : r.labels = s.labels
  fixups : r.fixups = s.fixups
  code : r.code = s.code
  listing : r.listing = s.listing
  diagnostics : r.diagnostics.toList = s.diagnostics.toList.filter (·.fault.ofProgram)

def freshLabel? (s : Assembler) (t : Step) : Option String :=
  t.label?.filter fun name => (s.labels.find? name).isNone

theorem labels_step_fresh (s : Assembler) (t : Step) : (s.step t).labels =
    (s.freshLabel? t).elim s.labels fun name => s.labels.declare ⟨name, s.code.size, t.line⟩ := by
  rw [labels_step, freshLabel?]
  cases t.label? with
  | none => rfl
  | some name => cases h : s.labels.find? name <;> simp [Option.filter_some, LabelTable.declare, h]

theorem freshLabel?_run (source : String) (before : List Step) (t : Step) :
    (run source before).freshLabel? t = t.newLabel? before := by
  have fresh : ∀ name,
      ((run source before).labels.find? name).isNone = decide (name ∉ before.filterMap Step.label?) := by
    intro name
    rw [Bool.eq_iff_iff, Option.isNone_iff_eq_none, find?_run_eq_none, decide_eq_true_eq]
  simp only [freshLabel?, Step.newLabel?, fresh]

theorem duplicateFault?_freshLabel? (s : Assembler) (t : Step) : s.duplicateFault? (s.freshLabel? t) = none := by
  rw [freshLabel?]
  cases t.label? with
  | none => rfl
  | some name => cases h : s.labels.find? name <;> simp [Option.filter_some, duplicateFault?, h]

namespace Mirrors
variable {s r : Assembler} {t : Step} (h : s.Mirrors r)
include h

theorem drop (hl : s.freshLabel? t = none) (hi : t.instruction? = none) : (s.step t).Mirrors r where
  source := by rw [h.source, source_step]
  labels := by
    rw [h.labels, labels_step_fresh, hl]
    rfl
  fixups := by
    apply Array.toList_inj.mp
    simp [h.fixups, fixups_step, hi]
  code := by
    apply Array.toList_inj.mp
    simp [h.code, code_step, Step.bytes, hi]
  listing := by
    apply Array.toList_inj.mp
    simp [h.listing, listing_step, hi]
  diagnostics := by
    have size : t.size = 0 := by simp [Step.size, hi]
    simp [h.diagnostics, filter_diagnostics_step, size]

theorem keep {t' : Step} (line : t'.line = t.line) (label : t'.label? = s.freshLabel? t)
    (instruction : t'.instruction? = t.instruction?) (fault : t'.fault? = none) :
    (s.step t).Mirrors (r.step t') where
  source := by simp only [source_step, h.source]
  labels := by rw [labels_step, labels_step_fresh, h.labels, h.code, line, label]
  fixups := by
    apply Array.toList_inj.mp
    rw [fixups_step, fixups_step, h.fixups, h.code, line, instruction]
  code := by
    apply Array.toList_inj.mp
    rw [code_step, code_step, h.code, Step.bytes, Step.bytes, instruction]
  listing := by
    apply Array.toList_inj.mp
    rw [listing_step, listing_step, h.listing, h.code, line, instruction]
  diagnostics := by
    have size : t'.size = t.size := by rw [Step.size, Step.size, instruction]
    have duplicate : r.duplicateFault? t'.label? = none := by
      rw [label, ← duplicateFault?_freshLabel? s t, duplicateFault?, duplicateFault?, h.labels]
    rw [filter_diagnostics_step, diagnostics_step, stepFaults, h.diagnostics, h.source, h.code, line, size, fault,
      duplicate]
    rfl

end Mirrors

theorem mirrors_run (source : String) (steps : List Step) :
    (run source steps).Mirrors (run source (repaired steps)) := by
  induction steps using List.reverseRecOn with
  | nil => exact ⟨rfl, rfl, rfl, rfl, rfl, rfl⟩
  | append_singleton steps t ih =>
    have hfresh := freshLabel?_run source steps t
    rw [repaired, Step.walk_snoc, List.nil_append, ← repaired, run_snoc]
    cases ht : t.repair? steps with
    | none =>
      obtain ⟨hlabel, hi⟩ := Step.repair?_none ht
      rw [Option.toList_none, List.append_nil]
      exact ih.drop (hfresh.trans hlabel) hi
    | some t' =>
      obtain ⟨hline, hlabel, hi, hfault⟩ := Step.repair?_some ht
      rw [Option.toList_some, run_snoc]
      exact ih.keep hline (hlabel.trans hfresh.symm) hi hfault

theorem Mirrors.diagnostics_finish {s r : Assembler} (h : s.Mirrors r) :
    r.finish.assembly.diagnostics.toList = s.finish.assembly.diagnostics.toList.filter (·.fault.ofProgram) := by
  rw [Assembler.diagnostics_finish, Assembler.diagnostics_finish, h.diagnostics, h.fixups, h.labels, h.source,
    List.filter_append]
  congr 1
  symm
  -- what is wrong with a target is about the program
  rw [List.filter_eq_self]
  intro d hd
  obtain ⟨f, -, hd⟩ := List.mem_filterMap.mp hd
  obtain ⟨fault, hf, rfl⟩ := Option.map_eq_some_iff.mp hd
  exact LabelTable.missing?_ofProgram hf

/-- **Recovery leaves no trace.** Take out of a program every line that does not read, of every line whose operands
do not fit all but its label, and every label whose name is taken. The lines that are left, under their old
numbers, give the same code, the same labels and the same listing, and of the diagnostics those that are about no
single line. -/
theorem recovery_leaves_no_trace (source : String) (steps : List Step) :
    let a := (run source steps).finish.assembly
    let b := (run source (repaired steps)).finish.assembly
    b.code = a.code ∧ b.labels = a.labels ∧ b.listing = a.listing ∧
      b.diagnostics.toList = a.diagnostics.toList.filter (·.fault.ofProgram) := by
  intro a b
  have h := mirrors_run source steps
  refine ⟨?_, ?_, ?_, h.diagnostics_finish⟩
  · apply Array.toList_inj.mp
    rw [code_finish, code_finish, h.code, h.fixups, h.labels]
  · rw [labels_finish, labels_finish, h.labels]
  · rw [listing_finish, listing_finish, h.listing]

-- the second line does not read, the first has only its label to give and the third only its instruction
example : repaired [.raw 1 "A: MOV 300, ACC", .raw 2 "B C D", .raw 3 "a: HLT", .raw 4 "JMP A"] =
    [.raw 1 "A:", .raw 3 " HLT", .raw 4 "JMP A"] := by decide +kernel

end Assembler

end T21
