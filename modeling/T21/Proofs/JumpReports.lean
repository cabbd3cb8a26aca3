import T21.Proofs.Consistent
import T21.Proofs.Except

/-!
# Reports on jumps

Each line is reported on when it is taken; what is wrong with the target of a jump comes out at the end. The two
kinds of fault do not mix, so the reports on targets that a finished assembly holds are those on the jumps of its
listing, in their order.
-/

namespace T21

def Fault.aboutTarget : Fault → Bool
  | undefinedLabel _ | labelOutOfRange _ _ => true
  | _ => false

/-- The fault lies in no single line but in how the lines of the program come together. -/
def Fault.ofProgram : Fault → Bool
  | undefinedLabel _ | labelOutOfRange _ _ | romOverflow _ => true
  | _ => false

def Fault.ofOperands : Fault → Bool
  | invalidOperand _ | missingDestination _ | missingTarget _ | literalTarget _ _ => true
  | _ => false

theorem Fault.ofProgram_eq_false {f : Fault} (h : f.ofOperands) : f.ofProgram = false := by
  cases f with
  | undefinedLabel | labelOutOfRange | romOverflow => cases h
  | _ => rfl

theorem Fault.aboutTarget_eq_false {f : Fault} (h : f.ofProgram = false) : f.aboutTarget = false := by
  cases f with
  | undefinedLabel | labelOutOfRange => cases h
  | _ => rfl

/-! ## Lines -/

namespace Line
variable {l : Line} {m : Mnemonic} {f : Fault}

theorem readSource_error (h : l.readSource m = .error f) : f.ofOperands := by
  unfold readSource at h
  split at h <;> cases h
  rfl

theorem readDestination_error (h : l.readDestination m = .error f) : f.ofOperands := by
  unfold readDestination at h
  split at h <;> cases h
  rfl

theorem readTarget_error (h : l.readTarget m = .error f) : f.ofOperands := by
  unfold readTarget at h
  split at h
  · cases h
  · split at h <;> cases h
    rfl
  · cases h; rfl
  · cases h; rfl

theorem encodeAs_error (h : l.encodeAs m = .error f) : f.ofOperands := by
  cases m with
  | nop | swp | sav | neg | hlt => cases h
  | add | sub | jro => exact readSource_error (map_eq_error.mp h)
  | jmp | jez | jnz | jgz | jlz => exact readTarget_error (map_eq_error.mp h)
  | mov =>
    obtain hs | ⟨s, -, h⟩ := bind_eq_error.mp h
    · exact readSource_error hs
    · obtain hd | ⟨d, -, h⟩ := bind_eq_error.mp h
      · exact readDestination_error hd
      · cases h

theorem fault?_ofOperands (h : l.fault? = some f) : f.ofOperands := by
  unfold fault? encode at h
  cases hm : l.mnemonic with
  | none => simp [hm] at h
  | some m =>
    cases he : l.encodeAs m with
    | ok i => simp [hm, he] at h
    | error g =>
      simp only [hm, he, Except.map_error, Option.some.injEq] at h
      exact h ▸ encodeAs_error he

end Line

theorem Step.fault?_ofProgram {t : Step} {f : Fault} (h : t.fault? = some f) : f.ofProgram = false := by
  cases t with
  | parts line l => exact Fault.ofProgram_eq_false (Line.fault?_ofOperands h)
  | raw line text =>
    simp only [Step.fault?] at h
    split at h
    · exact Fault.ofProgram_eq_false (Line.fault?_ofOperands h)
    · cases h
      rfl

/-! ## Runs -/

theorem LabelTable.missing?_ofProgram {table : LabelTable} {name : String} {f : Fault}
    (h : table.missing? name = some f) : f.ofProgram := by
  unfold LabelTable.missing? at h
  split at h
  · cases h
    rfl
  · split at h <;> cases h
    rfl

namespace Assembler

@[simp] theorem source_step (s : Assembler) (t : Step) : (s.step t).source = s.source := by
  obtain ⟨l, -, -, h⟩ | ⟨cause, -, -, h⟩ := s.step_cases t
  · rw [h]
    obtain ⟨i, -, -, h'⟩ | ⟨-, -, h'⟩ | ⟨f, -, -, h'⟩ := s.accept_cases t.line l
    · rw [h', emit_eq]
      cases overflowFault? _ i.size <;> simp [place]
    · simp [h']
    · simp [h']
  · rw [h]
    rfl

theorem source_run (source : String) (steps : List Step) : (run source steps).source = source :=
  run_induction (P := fun s => s.source = source) source rfl (fun s t h => (s.source_step t).trans h) steps

theorem filter_stepFaults (s : Assembler) (t : Step) :
    (s.stepFaults t).filter Fault.ofProgram = (overflowFault? s.code.size t.size).toList := by
  have duplicate : (s.duplicateFault? t.label?).toList.filter Fault.ofProgram = [] := by
    rw [List.filter_eq_nil_iff]
    intro f hf
    obtain ⟨name, -, h⟩ := Option.bind_eq_some_iff.mp (Option.mem_toList.mp hf)
    obtain ⟨first, -, rfl⟩ := Option.map_eq_some_iff.mp h
    simp [Fault.ofProgram]
  have own : t.fault?.toList.filter Fault.ofProgram = [] := by
    rw [List.filter_eq_nil_iff]
    intro f hf
    simp [Step.fault?_ofProgram (Option.mem_toList.mp hf)]
  have overflow : (overflowFault? s.code.size t.size).toList.filter Fault.ofProgram =
      (overflowFault? s.code.size t.size).toList := by
    unfold overflowFault?
    split <;> rfl
  rw [stepFaults, List.filter_append, List.filter_append, duplicate, own, overflow, List.nil_append, List.nil_append]

theorem filter_diagnostics_step (s : Assembler) (t : Step) :
    (s.step t).diagnostics.toList.filter (·.fault.ofProgram) =
      s.diagnostics.toList.filter (·.fault.ofProgram) ++
        (overflowFault? s.code.size t.size).toList.map (Diagnostic.mk s.source t.line) := by
  rw [diagnostics_step, List.filter_append, List.filter_map, ← filter_stepFaults]
  rfl

theorem overflows_run (source : String) (steps : List Step) :
    (run source steps).diagnostics.toList.filter (·.fault.ofProgram) =
      (run source steps).listing.toList.filterMap fun e =>
        (overflowFault? e.offset e.instruction.size).map (Diagnostic.mk source e.line) := by
  induction steps using List.reverseRecOn with
  | nil => rfl
  | append_singleton steps t ih =>
    rw [run_snoc, filter_diagnostics_step, ih, listing_step, List.filterMap_append, source_run, Step.size]
    cases t.instruction? with
    | none => simp
    | some i => cases h : overflowFault? (run source steps).code.size i.size <;> simp [h]

theorem stepFaults_aboutTarget {s : Assembler} {t : Step} {f : Fault} (h : f ∈ s.stepFaults t) :
    f.aboutTarget = false := by
  cases hp : f.ofProgram with
  | false => exact Fault.aboutTarget_eq_false hp
  | true =>
    have hmem := List.mem_filter.mpr ⟨h, hp⟩
    rw [filter_stepFaults, Option.mem_toList, overflowFault?] at hmem
    split at hmem <;> cases hmem
    rfl

theorem diagnostics_run_aboutTarget (source : String) (steps : List Step) :
    ∀ d ∈ (run source steps).diagnostics.toList, d.fault.aboutTarget = false := by
  refine run_induction (P := fun s => ∀ d ∈ s.diagnostics.toList, d.fault.aboutTarget = false) source ?_ ?_ steps
  · intro d hd
    cases hd
  · intro s t ih d hd
    rw [diagnostics_step, List.mem_append, List.mem_map] at hd
    rcases hd with hd | ⟨f, hf, rfl⟩
    · exact ih d hd
    · exact stepFaults_aboutTarget hf

end Assembler

/-! ## Finished assemblies -/

namespace Assembly

def targetFault? (a : Assembly) (i : Instruction) : Option Fault :=
  i.target?.bind fun name =>
    match a.offset? name with
    | none => some (.undefinedLabel name)
    | some k => if k ≤ 255 then none else some (.labelOutOfRange name k)

def jumpReport? (a : Assembly) (source : String) (e : Entry) : Option Diagnostic :=
  (a.targetFault? e.instruction).map (Diagnostic.mk source e.line)

theorem targetFault?_eq_some_iff {a : Assembly} {i : Instruction} {f : Fault} :
    a.targetFault? i = some f ↔ ∃ name, i.target? = some name ∧
      (a.offset? name = none ∧ f = .undefinedLabel name ∨
        ∃ k, a.offset? name = some k ∧ 255 < k ∧ f = .labelOutOfRange name k) := by
  rw [targetFault?, Option.bind_eq_some_iff]
  apply exists_congr
  intro name
  cases a.offset? name with
  | none => simp [eq_comm]
  | some k =>
    by_cases hk : k ≤ 255
    · simp [hk, Nat.not_lt.mpr hk]
    · simp [hk, Nat.lt_of_not_le hk, eq_comm]

theorem aboutTarget_of_jumpReport? {a : Assembly} {source : String} {e : Entry} {d : Diagnostic}
    (h : a.jumpReport? source e = some d) : d.fault.aboutTarget := by
  obtain ⟨f, hf, rfl⟩ := Option.map_eq_some_iff.mp h
  obtain ⟨name, -, ⟨-, rfl⟩ | ⟨k, -, -, rfl⟩⟩ := targetFault?_eq_some_iff.mp hf
  · rfl
  · rfl

end Assembly

namespace Assembler

theorem Consistent.targetFault?_finish {s : Assembler} (h : s.Consistent) (i : Instruction) :
    s.finish.assembly.targetFault? i = i.target?.bind s.labels.missing? := by
  unfold Assembly.targetFault?
  congr 1
  funext name
  rw [h.offset?_finish, LabelTable.missing?]
  cases s.labels.find? name with
  | none => rfl
  | some l => simp [Nat.lt_succ_iff, romSize]

theorem Consistent.diagnostics_finish {s : Assembler} (h : s.Consistent) :
    s.finish.assembly.diagnostics.toList = s.diagnostics.toList ++
      s.finish.assembly.listing.toList.filterMap (s.finish.assembly.jumpReport? s.source) := by
  rw [Assembler.diagnostics_finish, h.fixups, List.filterMap_filterMap, listing_finish]
  congr 2
  funext e
  rw [Assembly.jumpReport?, h.targetFault?_finish, Entry.fixup?]
  cases e.instruction.target? <;> rfl

theorem reports_on_targets (source : String) (steps : List Step) :
    let a := (run source steps).finish.assembly
    a.diagnostics.toList.filter (·.fault.aboutTarget) = a.listing.toList.filterMap (a.jumpReport? source) := by
  intro a
  have lines : (run source steps).diagnostics.toList.filter (·.fault.aboutTarget) = [] := by
    rw [List.filter_eq_nil_iff]
    intro d hd
    simp [diagnostics_run_aboutTarget source steps d hd]
  have jumps : ∀ d ∈ a.listing.toList.filterMap (a.jumpReport? source), d.fault.aboutTarget = true := by
    intro d hd
    obtain ⟨e, -, hd⟩ := List.mem_filterMap.mp hd
    exact Assembly.aboutTarget_of_jumpReport? hd
  rw [(consistent_run source steps).diagnostics_finish, source_run, List.filter_append, lines,
    List.filter_eq_self.mpr jumps, List.nil_append]

end Assembler

end T21
