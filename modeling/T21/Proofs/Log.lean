import T21.Proofs.Resolve

/-!
# What is logged

Every operation adds its events at the end of the log. A step logs its label, then its warnings, then its
instruction or its fault, and resolving a fixup logs one event; so warnings come from the lines alone.
-/

namespace T21

def Event.isSurplus : Event → Bool
  | surplus .. => true
  | _ => false

def Step.warnings (t : Step) : List Event :=
  t.content?.elim [] Line.warnings

namespace Assembler

/-! ## Steps -/

def labelEvent (s : Assembler) (line : Nat) (name : String) : Event :=
  match s.labels.find? name with
  | some first => .reported ⟨s.source, line, .duplicateLabel name first.line⟩
  | none => .labelDefined s.source line name s.code.size

def emitEvents (s : Assembler) (line : Nat) (i : Instruction) : List Event :=
  .emitted s.source line s.code.size i ::
    ((overflowFault? s.code.size i.size).map fun f => Event.reported ⟨s.source, line, f⟩).toList

def stepEvents (s : Assembler) (t : Step) : List Event :=
  (t.label?.map (s.labelEvent t.line)).toList ++ t.warnings ++ t.instruction?.elim [] (s.emitEvents t.line) ++
    (t.fault?.map fun f => Event.reported ⟨s.source, t.line, f⟩).toList

theorem log_report (s : Assembler) (line : Nat) (f : Fault) :
    (s.report line f).log.toList = s.log.toList ++ [.reported ⟨s.source, line, f⟩] := by
  simp [report]

theorem log_declare (s : Assembler) (line : Nat) (label : Option String) :
    (s.declare line label).log.toList = s.log.toList ++ (label.map (s.labelEvent line)).toList := by
  cases label with
  | none => simp [declare]
  | some name =>
    simp only [declare, Option.elim, define, labelEvent, Option.map_some]
    cases s.labels.find? name <;> simp [log_report]

theorem log_emit (s : Assembler) (line : Nat) (i : Instruction) :
    (s.emit line i).log.toList = s.log.toList ++ s.emitEvents line i := by
  rw [emit_eq, emitEvents]
  cases overflowFault? s.code.size i.size <;> simp [place, log_report]

theorem log_step (s : Assembler) (t : Step) : (s.step t).log.toList = s.log.toList ++ s.stepEvents t := by
  obtain ⟨l, hl, hf, h⟩ | ⟨cause, hl, hf, h⟩ := s.step_cases t
  · simp only [h, stepEvents, Step.label?, Step.warnings, Step.instruction?, hl, hf, Option.bind_some, Option.elim]
    obtain ⟨i, hi, hif, h'⟩ | ⟨hi, hif, h'⟩ | ⟨f, hi, hif, h'⟩ := s.accept_cases t.line l
    · simp [h', hi, hif, log_emit, log_declare, emitEvents]
    · simp [h', hi, hif, log_declare]
    · simp [h', hi, hif, log_report, log_declare]
  · simp [h, stepEvents, Step.label?, Step.warnings, Step.instruction?, hl, hf, log_report]

/-! ## Fixups -/

def resolveEvent (s : Assembler) (f : Fixup) : Event :=
  match s.labels.find? f.target with
  | none => .reported ⟨s.source, f.line, .undefinedLabel f.target⟩
  | some l =>
    if l.offset < romSize then .patched f.address f.target (UInt8.ofNat l.offset)
    else .reported ⟨s.source, f.line, .labelOutOfRange f.target l.offset⟩

theorem log_resolve (s : Assembler) (f : Fixup) :
    (s.resolve f).log.toList = s.log.toList ++ [s.resolveEvent f] := by
  unfold resolve resolveEvent
  cases s.labels.find? f.target with
  | none => exact log_report _ _ _
  | some l => by_cases hl : l.offset < romSize <;> simp [hl, log_report]

theorem log_foldl_resolve (fs : List Fixup) (s : Assembler) :
    (fs.foldl resolve s).log.toList = s.log.toList ++ fs.map s.resolveEvent := by
  induction fs generalizing s with
  | nil => simp
  | cons f fs ih =>
    have same : (s.resolve f).resolveEvent = s.resolveEvent := by
      funext g
      simp only [resolveEvent, labels_resolve, source_resolve]
    rw [List.foldl_cons, ih, log_resolve, same, List.append_assoc, List.map_cons, List.singleton_append]

theorem log_finish (s : Assembler) :
    let a := s.finish.assembly
    s.finish.log.toList = s.log.toList ++ s.fixups.toList.map s.resolveEvent ++
      [.finished s.source a.code.size a.labels.size a.diagnostics.size] := by
  simp only [finish, assembly, ← Array.foldl_toList, Array.toList_push, log_foldl_resolve,
    keep_foldl_resolve source_resolve]

/-! ## Warnings -/

theorem isSurplus_warnings {l : Line} {e : Event} (h : e ∈ l.warnings) : e.isSurplus := by
  unfold Line.warnings at h
  split at h
  · obtain ⟨part, -, rfl⟩ := List.mem_map.mp h
    rfl
  · cases h

theorem isSurplus_labelEvent (s : Assembler) (line : Nat) (name : String) :
    (s.labelEvent line name).isSurplus = false := by
  unfold labelEvent
  split <;> rfl

theorem isSurplus_resolveEvent (s : Assembler) (f : Fixup) : (s.resolveEvent f).isSurplus = false := by
  unfold resolveEvent
  split
  · rfl
  · split <;> rfl

theorem surplus_stepEvents (s : Assembler) (t : Step) : (s.stepEvents t).filter Event.isSurplus = t.warnings := by
  have label : (t.label?.map (s.labelEvent t.line)).toList.filter Event.isSurplus = [] := by
    cases t.label? <;> simp [isSurplus_labelEvent]
  have warnings : t.warnings.filter Event.isSurplus = t.warnings := by
    rw [List.filter_eq_self, Step.warnings]
    cases t.content? with
    | none => exact nofun
    | some l => exact fun e he => isSurplus_warnings he
  have emitted : (t.instruction?.elim [] (s.emitEvents t.line)).filter Event.isSurplus = [] := by
    cases t.instruction? with
    | none => rfl
    | some i => cases h : overflowFault? s.code.size i.size <;> simp [emitEvents, h, Event.isSurplus]
  have fault : (t.fault?.map fun f => Event.reported ⟨s.source, t.line, f⟩).toList.filter Event.isSurplus = [] := by
    cases t.fault? <;> simp [Event.isSurplus]
  rw [stepEvents, List.filter_append, List.filter_append, List.filter_append, label, warnings, emitted, fault,
    List.nil_append, List.append_nil, List.append_nil]

theorem surplus_run (source : String) (steps : List Step) :
    (run source steps).log.toList.filter Event.isSurplus = steps.flatMap Step.warnings := by
  induction steps using List.reverseRecOn with
  | nil => rfl
  | append_singleton steps t ih =>
    rw [run_snoc, log_step, List.filter_append, ih, surplus_stepEvents, List.flatMap_append, List.flatMap_singleton]

theorem surplus_finish (source : String) (steps : List Step) :
    (run source steps).finish.log.toList.filter Event.isSurplus = steps.flatMap Step.warnings := by
  have resolved : ∀ fs : List Fixup, (fs.map (run source steps).resolveEvent).filter Event.isSurplus = [] := by
    intro fs
    simp [isSurplus_resolveEvent]
  rw [log_finish, List.filter_append, List.filter_append, surplus_run, resolved]
  simp [Event.isSurplus]

end Assembler

end T21
