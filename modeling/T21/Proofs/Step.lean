import Mathlib.Data.List.Induction
import T21.Assembler
import T21.Proofs.LabelTable

/-!
# What a step does

A step brings at most one label, one instruction and one fault of its own. Each field that a step changes is
stated here in these terms, so that later modules need not look into the assembler.
-/

namespace T21

def Line.instruction? (l : Line) : Option Instruction :=
  match l.encode with
  | .ok i => i
  | .error _ => none

def Line.fault? (l : Line) : Option Fault :=
  match l.encode with
  | .ok _ => none
  | .error f => some f

theorem Instruction.size_pos (i : Instruction) : 0 < i.size := by
  unfold Instruction.size; split <;> omega

def Instruction.rename (f : String → String) : Instruction → Instruction
  | jump c name => jump c (f name)
  | i => i

namespace Step

def line : Step → Nat
  | .raw line _ | .parts line _ => line

def content? : Step → Option Line
  | .raw _ text => (Line.read text).toOption
  | .parts _ content => some content

def label? (t : Step) : Option String :=
  t.content?.bind Line.label

def instruction? (t : Step) : Option Instruction :=
  t.content?.bind Line.instruction?

def fault? : Step → Option Fault
  | .raw _ text =>
    match Line.read text with
    | .ok l => l.fault?
    | .error cause => some (.malformed cause)
  | .parts _ content => content.fault?

theorem content?_of_read {text : String} {l : Line} (h : Line.read text = .ok l) (n : Nat) :
    (raw n text).content? = some l := by
  rw [content?, h]
  rfl

theorem fault?_of_content? {t : Step} {l : Line} (h : t.content? = some l) : t.fault? = l.fault? := by
  cases t with
  | parts n content =>
    cases h
    rfl
  | raw n text =>
    cases hr : Line.read text with
    | error cause => simp [content?, hr, Except.toOption] at h
    | ok content =>
      rw [content?_of_read hr n] at h
      cases h
      rw [fault?, hr]

theorem instruction?_of_fault? {t : Step} {f : Fault} (h : t.fault? = some f) : t.instruction? = none := by
  cases hc : t.content? with
  | none => rw [instruction?, hc, Option.bind_none]
  | some l =>
    rw [fault?_of_content? hc, Line.fault?] at h
    rw [instruction?, hc, Option.bind_some, Line.instruction?]
    split at h
    · cases h
    · rfl

def bytes (t : Step) : List UInt8 :=
  t.instruction?.elim [] Instruction.bytes

def size (t : Step) : Nat :=
  t.instruction?.elim 0 Instruction.size

theorem length_bytes (t : Step) : t.bytes.length = t.size := by
  unfold bytes size
  cases t.instruction? with
  | none => rfl
  | some i => exact i.length_bytes

end Step

namespace Assembler

/-! ## Reports and notes -/

section
variable (s : Assembler) (line : Nat) (f : Fault)

@[simp] theorem source_report : (s.report line f).source = s.source := rfl
@[simp] theorem labels_report : (s.report line f).labels = s.labels := rfl
@[simp] theorem fixups_report : (s.report line f).fixups = s.fixups := rfl
@[simp] theorem code_report : (s.report line f).code = s.code := rfl
@[simp] theorem listing_report : (s.report line f).listing = s.listing := rfl
@[simp] theorem diagnostics_report :
    (s.report line f).diagnostics = s.diagnostics.push ⟨s.source, line, f⟩ := rfl

end

theorem foldl_note : ∀ (es : List Event) (s : Assembler), es.foldl note s = { s with log := s.log ++ es }
  | [], s => by simp
  | e :: es, s => by
    rw [List.foldl_cons, foldl_note es]
    simp [note]

/-! ## Labels -/

section
variable (s : Assembler) (line : Nat) (label : Option String)

theorem keep_declare {α : Type} {field : Assembler → α} (h : ∀ s line f, field (report s line f) = field s)
    (h' : ∀ s labels log, field { s with labels, log } = field s) : field (s.declare line label) = field s := by
  cases label with
  | none => rfl
  | some name =>
    simp only [declare, Option.elim, define]; split
    · exact h _ _ _
    · exact h' _ _ _

@[simp] theorem source_declare : (s.declare line label).source = s.source :=
  keep_declare s line label source_report fun _ _ _ => rfl

@[simp] theorem fixups_declare : (s.declare line label).fixups = s.fixups :=
  keep_declare s line label fixups_report fun _ _ _ => rfl

@[simp] theorem code_declare : (s.declare line label).code = s.code :=
  keep_declare s line label code_report fun _ _ _ => rfl

@[simp] theorem listing_declare : (s.declare line label).listing = s.listing :=
  keep_declare s line label listing_report fun _ _ _ => rfl

theorem labels_declare : (s.declare line label).labels =
    label.elim s.labels fun name => s.labels.declare ⟨name, s.code.size, line⟩ := by
  cases label with
  | none => rfl
  | some name =>
    simp only [declare, Option.elim, define, LabelTable.declare]
    split <;> simp_all

def duplicateFault? (s : Assembler) (label : Option String) : Option Fault :=
  label.bind fun name => (s.labels.find? name).map fun first => .duplicateLabel name first.line

theorem diagnostics_declare : (s.declare line label).diagnostics.toList =
    s.diagnostics.toList ++ (s.duplicateFault? label).toList.map (Diagnostic.mk s.source line) := by
  cases label with
  | none => simp [declare, duplicateFault?]
  | some name =>
    simp only [declare, Option.elim, define, duplicateFault?, Option.bind_some]
    cases s.labels.find? name <;> simp

end

/-! ## Instructions -/

section
variable (s : Assembler) (line : Nat) (i : Instruction)

def overflowFault? (offset size : Nat) : Option Fault :=
  if offset ≤ romSize ∧ romSize < offset + size then some (.romOverflow romSize) else none

@[simp] theorem overflowFault?_zero (offset : Nat) : overflowFault? offset 0 = none := by
  unfold overflowFault?
  rw [if_neg (by omega)]

theorem code_place : (s.place line i).code.toList = s.code.toList ++ i.bytes := by
  simp [place]

theorem size_place : (s.place line i).code.size = s.code.size + i.size := by
  rw [← Array.length_toList, code_place, List.length_append, Array.length_toList, i.length_bytes]

theorem fixups_place : (s.place line i).fixups.toList =
    s.fixups.toList ++ (i.target?.map (Fixup.mk (s.code.size + i.size - 1) line ·)).toList := by
  simp [place]

theorem emit_eq : s.emit line i =
    (overflowFault? s.code.size i.size).elim (s.place line i) ((s.place line i).report line) := by
  simp only [emit, overflowFault?, size_place]
  split <;> rfl

@[simp] theorem labels_emit : (s.emit line i).labels = s.labels := by
  rw [emit_eq]; cases overflowFault? s.code.size i.size <;> rfl

theorem code_emit : (s.emit line i).code.toList = s.code.toList ++ i.bytes := by
  rw [emit_eq, ← s.code_place line i]; cases overflowFault? s.code.size i.size <;> rfl

theorem listing_emit : (s.emit line i).listing.toList = s.listing.toList ++ [⟨line, s.code.size, i⟩] := by
  rw [emit_eq]; cases overflowFault? s.code.size i.size <;> simp [place]

theorem fixups_emit : (s.emit line i).fixups.toList =
    s.fixups.toList ++ (i.target?.map (Fixup.mk (s.code.size + i.size - 1) line ·)).toList := by
  rw [emit_eq, ← s.fixups_place line i]; cases overflowFault? s.code.size i.size <;> rfl

theorem diagnostics_emit : (s.emit line i).diagnostics.toList =
    s.diagnostics.toList ++ (overflowFault? s.code.size i.size).toList.map (Diagnostic.mk s.source line) := by
  rw [emit_eq]; cases overflowFault? s.code.size i.size <;> simp [place]

end

/-! ## Steps -/

theorem step_cases (s : Assembler) (t : Step) :
    (∃ l, t.content? = some l ∧ t.fault? = l.fault? ∧ s.step t = s.accept t.line l) ∨
    ∃ cause, t.content? = none ∧ t.fault? = some (.malformed cause) ∧
      s.step t = s.report t.line (.malformed cause) := by
  cases t with
  | raw line text =>
    cases h : Line.read text with
    | ok l =>
      have hl := Step.content?_of_read h line
      exact .inl ⟨l, hl, Step.fault?_of_content? hl, by simp [step, feed, h, Step.line]⟩
    | error cause => exact .inr ⟨cause, by simp [Step.content?, h, Except.toOption],
        by simp [Step.fault?, h], by simp [step, feed, h, Step.line]⟩
  | parts line content => exact .inl ⟨content, rfl, rfl, rfl⟩

theorem accept_cases (s : Assembler) (line : Nat) (l : Line) :
    let s' := { s.declare line l.label with log := (s.declare line l.label).log ++ l.warnings }
    (∃ i, l.instruction? = some i ∧ l.fault? = none ∧ s.accept line l = s'.emit line i) ∨
    (l.instruction? = none ∧ l.fault? = none ∧ s.accept line l = s') ∨
    ∃ f, l.instruction? = none ∧ l.fault? = some f ∧ s.accept line l = s'.report line f := by
  intro s'
  have hs : l.warnings.foldl note (s.declare line l.label) = s' := foldl_note _ _
  simp only [accept, hs, Line.instruction?, Line.fault?]
  cases l.encode with
  | error f => exact .inr (.inr ⟨f, rfl, rfl, rfl⟩)
  | ok o =>
    cases o with
    | none => exact .inr (.inl ⟨rfl, rfl, rfl⟩)
    | some i => exact .inl ⟨i, rfl, rfl, rfl⟩

section
variable (s : Assembler) (t : Step)

theorem code_step : (s.step t).code.toList = s.code.toList ++ t.bytes := by
  obtain ⟨l, hl, -, h⟩ | ⟨cause, hl, -, h⟩ := s.step_cases t
  · simp only [h, Step.bytes, Step.instruction?, hl, Option.bind_some]
    obtain ⟨i, hi, -, h'⟩ | ⟨hi, -, h'⟩ | ⟨f, hi, -, h'⟩ := s.accept_cases t.line l <;>
      simp [h', hi, code_emit]
  · simp [h, Step.bytes, Step.instruction?, hl]

theorem size_step : (s.step t).code.size = s.code.size + t.size := by
  rw [← Array.length_toList, code_step, List.length_append, Array.length_toList, t.length_bytes]

theorem listing_step : (s.step t).listing.toList =
    s.listing.toList ++ (t.instruction?.map (Entry.mk t.line s.code.size)).toList := by
  obtain ⟨l, hl, -, h⟩ | ⟨cause, hl, -, h⟩ := s.step_cases t
  · simp only [h, Step.instruction?, hl, Option.bind_some]
    obtain ⟨i, hi, -, h'⟩ | ⟨hi, -, h'⟩ | ⟨f, hi, -, h'⟩ := s.accept_cases t.line l <;>
      simp [h', hi, listing_emit]
  · simp [h, Step.instruction?, hl]

theorem fixups_step : (s.step t).fixups.toList = s.fixups.toList ++
    (t.instruction?.bind fun i => i.target?.map (Fixup.mk (s.code.size + i.size - 1) t.line)).toList := by
  obtain ⟨l, hl, -, h⟩ | ⟨cause, hl, -, h⟩ := s.step_cases t
  · simp only [h, Step.instruction?, hl, Option.bind_some]
    obtain ⟨i, hi, -, h'⟩ | ⟨hi, -, h'⟩ | ⟨f, hi, -, h'⟩ := s.accept_cases t.line l <;>
      simp [h', hi, fixups_emit]
  · simp [h, Step.instruction?, hl]

theorem labels_step : (s.step t).labels =
    t.label?.elim s.labels fun name => s.labels.declare ⟨name, s.code.size, t.line⟩ := by
  obtain ⟨l, hl, -, h⟩ | ⟨cause, hl, -, h⟩ := s.step_cases t
  · simp only [h, Step.label?, hl, Option.bind_some, ← labels_declare]
    obtain ⟨i, -, -, h'⟩ | ⟨-, -, h'⟩ | ⟨f, -, -, h'⟩ := s.accept_cases t.line l <;> simp [h']
  · simp [h, Step.label?, hl]

theorem mem_labels_step {l : Label} (h : l ∈ (s.step t).labels.entries.toList) :
    l ∈ s.labels.entries.toList ∨ ∃ name, t.label? = some name ∧ l = ⟨name, s.code.size, t.line⟩ := by
  rw [labels_step] at h
  cases ht : t.label? with
  | none =>
    rw [ht] at h
    exact .inl h
  | some name =>
    simp only [ht, Option.elim, LabelTable.declare] at h
    split at h
    · exact .inl h
    · rw [LabelTable.entries_insert, List.mem_append, List.mem_singleton] at h
      exact h.imp_right fun e => ⟨name, rfl, e⟩

/-- What a step reports: a taken name, then its own fault or the crossing of the end of the ROM. -/
def stepFaults (s : Assembler) (t : Step) : List Fault :=
  (s.duplicateFault? t.label?).toList ++ t.fault?.toList ++ (overflowFault? s.code.size t.size).toList

theorem diagnostics_step : (s.step t).diagnostics.toList =
    s.diagnostics.toList ++ (s.stepFaults t).map (Diagnostic.mk s.source t.line) := by
  obtain ⟨l, hl, hf, h⟩ | ⟨cause, hl, hf, h⟩ := s.step_cases t
  · simp only [h, stepFaults, Step.label?, Step.size, Step.instruction?, hl, hf, Option.bind_some, List.map_append]
    obtain ⟨i, hi, hif, h'⟩ | ⟨hi, hif, h'⟩ | ⟨f, hi, hif, h'⟩ := s.accept_cases t.line l
    · simp [h', hi, hif, diagnostics_emit, diagnostics_declare]
    · simp [h', hi, hif, diagnostics_declare]
    · simp [h', hi, hif, diagnostics_declare]
  · simp [h, stepFaults, Step.label?, Step.size, Step.instruction?, hl, hf, duplicateFault?]

end

/-! ## Runs -/

@[simp] theorem run_nil (source : String) : run source [] = start source := rfl

theorem run_snoc (source : String) (steps : List Step) (t : Step) :
    run source (steps ++ [t]) = (run source steps).step t := by
  simp [run, List.foldl_append]

/-- What holds of a fresh assembler and outlasts every step holds after every run. -/
theorem run_induction {P : Assembler → Prop} (source : String) (start : P (start source))
    (step : ∀ s t, P s → P (s.step t)) (steps : List Step) : P (run source steps) := by
  induction steps using List.reverseRecOn with
  | nil => exact start
  | append_singleton steps t ih => rw [run_snoc]; exact step _ t ih

end Assembler

end T21
