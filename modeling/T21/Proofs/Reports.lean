import T21.Proofs.JumpReports
import T21.Proofs.TwoPass

/-!
# What is reported

The diagnostics of a run can be told from its steps alone. Each step is reported on for what is wrong with it and
for what the steps before it have made wrong, under its own line. When all steps have been taken, each jump is
reported on whose target has no address or none that a byte can hold, in the order of the code.
-/

namespace T21

open TwoPass

/-! ## Reports on steps -/

def Step.walk {α : Type} (f : List Step → Step → List α) : List Step → List Step → List α
  | _, [] => []
  | before, t :: ts => f before t ++ walk f (before ++ [t]) ts

theorem Step.walk_snoc {α : Type} (f : List Step → Step → List α) (before steps : List Step) (t : Step) :
    walk f before (steps ++ [t]) = walk f before steps ++ f (before ++ steps) t := by
  induction steps generalizing before with
  | nil => simp [walk]
  | cons u steps ih => simp [walk, ih]

def Step.firstLine? (steps : List Step) (name : String) : Option Nat :=
  (steps.find? fun t => t.label? = some name).map Step.line

/-- A label that is taken, then operands that do not fit, or an instruction that crosses the end of the ROM. -/
def Line.faultsAfter (before : List Step) (l : Line) : List Fault :=
  (l.label.bind fun name => (Step.firstLine? before name).map (Fault.duplicateLabel name)).toList ++
    match l.encode with
    | .error f => [f]
    | .ok (some i) => if total before ≤ 256 ∧ 256 < total before + i.size then [.romOverflow 256] else []
    | .ok none => []

def Step.faultsAfter (before : List Step) : Step → List Fault
  | .raw _ text =>
    match Line.read text with
    | .ok l => l.faultsAfter before
    | .error cause => [.malformed cause]
  | .parts _ l => l.faultsAfter before

def Step.reportsAfter (source : String) (before : List Step) (t : Step) : List Diagnostic :=
  (t.faultsAfter before).map (Diagnostic.mk source t.line)

theorem Line.length_faultsAfter (before : List Step) (l : Line) : (l.faultsAfter before).length ≤ 2 := by
  have one : ∀ o : Option Fault, o.toList.length ≤ 1 := by
    intro o
    cases o <;> simp
  have hlabel := one (l.label.bind fun name => (Step.firstLine? before name).map (Fault.duplicateLabel name))
  unfold Line.faultsAfter
  rw [List.length_append]
  rcases l.encode with _ | _ | i
  · simp only [List.length_singleton]; omega
  · simp only [List.length_nil]; omega
  · simp only
    split
    · simp only [List.length_singleton]; omega
    · simp only [List.length_nil]; omega

theorem Step.faultsAfter_cases (t : Step) :
    (∃ l, t.content? = some l ∧ t.fault? = l.fault? ∧ ∀ before, t.faultsAfter before = l.faultsAfter before) ∨
    ∃ cause, t.content? = none ∧ t.fault? = some (.malformed cause) ∧
      ∀ before, t.faultsAfter before = [.malformed cause] := by
  cases t with
  | parts line l => exact .inl ⟨l, rfl, rfl, fun _ => rfl⟩
  | raw line text =>
    cases h : Line.read text with
    | ok l =>
      have hl := content?_of_read h line
      exact .inl ⟨l, hl, fault?_of_content? hl, fun _ => by simp [faultsAfter, h]⟩
    | error cause => exact .inr ⟨cause, by simp [content?, h, Except.toOption], by simp [fault?, h],
        fun _ => by simp [faultsAfter, h]⟩

theorem Step.length_faultsAfter (before : List Step) (t : Step) : (t.faultsAfter before).length ≤ 2 := by
  obtain ⟨l, -, -, h⟩ | ⟨cause, -, -, h⟩ := t.faultsAfter_cases
  · rw [h]
    exact l.length_faultsAfter before
  · simp [h]

/-! ## Reports on jumps -/

namespace TwoPass

def listing : Nat → List Step → List Entry
  | _, [] => []
  | offset, t :: ts => (t.instruction?.map (Entry.mk t.line offset)).toList ++ listing (offset + t.size) ts

theorem listing_snoc (offset : Nat) (steps : List Step) (t : Step) :
    listing offset (steps ++ [t]) =
      listing offset steps ++ (t.instruction?.map (Entry.mk t.line (offset + total steps))).toList := by
  induction steps generalizing offset with
  | nil => simp [listing, total]
  | cons u steps ih => simp [listing, ih, total, Nat.add_assoc]

def targetFault? (steps : List Step) (i : Instruction) : Option Fault :=
  i.target?.bind fun name =>
    match address? steps name with
    | none => some (.undefinedLabel name)
    | some k => if k ≤ 255 then none else some (.labelOutOfRange name k)

def jumpReport? (source : String) (steps : List Step) (e : Entry) : Option Diagnostic :=
  (targetFault? steps e.instruction).map (Diagnostic.mk source e.line)

end TwoPass

/-! ## Runs -/

namespace Assembler

theorem listing_run_eq (source : String) (steps : List Step) :
    (run source steps).listing.toList = TwoPass.listing 0 steps := by
  induction steps using List.reverseRecOn with
  | nil => rfl
  | append_singleton steps t ih => rw [run_snoc, listing_step, ih, size_run, listing_snoc, Nat.zero_add]

theorem firstLine?_run (source : String) (steps : List Step) (name : String) :
    ((run source steps).labels.find? name).map Label.line = Step.firstLine? steps name := by
  have first : ∀ offset, ((declarations offset steps).find? (·.name == name)).map Label.line =
      Step.firstLine? steps name := by
    induction steps with
    | nil => intro _; rfl
    | cons t steps ih =>
      intro offset
      have ih := ih (offset + t.size)
      unfold Step.firstLine? at ih ⊢
      rw [declarations, List.find?_cons]
      cases hl : t.label? with
      | none => simpa using ih
      | some other =>
        by_cases hn : other = name
        · simp [hn]
        · simpa [hn] using ih
  rw [(consistent_run source steps).indexed.find?_eq, labels_run, TwoPass.labels, find?_keepFirst, first]

theorem duplicateFault?_run (source : String) (steps : List Step) (label : Option String) :
    (run source steps).duplicateFault? label =
      label.bind fun name => (Step.firstLine? steps name).map (Fault.duplicateLabel name) := by
  simp only [duplicateFault?, ← firstLine?_run source, Option.map_map]
  rfl

theorem stepFaults_run (source : String) (before : List Step) (t : Step) :
    (run source before).stepFaults t = t.faultsAfter before := by
  obtain ⟨l, hl, hf, h⟩ | ⟨cause, hl, hf, h⟩ := t.faultsAfter_cases
  · simp only [h, stepFaults, Line.faultsAfter, duplicateFault?_run, size_run, Step.label?, Step.size,
      Step.instruction?, hl, hf, Option.bind_some, Line.fault?, Line.instruction?]
    rcases l.encode with f | _ | i
    · simp
    · simp
    · by_cases hover : total before ≤ 256 ∧ 256 < total before + i.size <;> simp [overflowFault?, romSize, hover]
  · simp [h, stepFaults, Step.label?, Step.size, Step.instruction?, hl, hf, duplicateFault?]

theorem diagnostics_run (source : String) (steps : List Step) :
    (run source steps).diagnostics.toList = Step.walk (Step.reportsAfter source) [] steps := by
  induction steps using List.reverseRecOn with
  | nil => rfl
  | append_singleton steps t ih =>
    rw [run_snoc, diagnostics_step, ih, source_run, stepFaults_run, Step.walk_snoc]
    rfl

theorem jumpReport?_finish (source : String) (steps : List Step) :
    (run source steps).finish.assembly.jumpReport? source = TwoPass.jumpReport? source steps := by
  have offsets : (run source steps).finish.assembly.offset? = address? steps := funext (offset?_run source steps)
  funext e
  unfold Assembly.jumpReport? Assembly.targetFault?
  exact offsets ▸ rfl

/-- **What is reported, and in which order.** The diagnostics of a finished run are the reports on its steps, one
step after the other and at most two on each, and then the reports on its jumps in the order of their offsets. -/
theorem diagnostics_are_reports (source : String) (steps : List Step) :
    let a := (run source steps).finish.assembly
    a.diagnostics.toList = Step.walk (Step.reportsAfter source) [] steps ++
      (TwoPass.listing 0 steps).filterMap (TwoPass.jumpReport? source steps) ∧
    (∀ before t, (Step.faultsAfter before t).length ≤ 2) ∧
    (∀ before, (run source before).code.size = total before) ∧
    a.listing.toList = TwoPass.listing 0 steps ∧
    (TwoPass.listing 0 steps).Pairwise fun d e => d.offset < e.offset := by
  intro a
  have h := consistent_run source steps
  have listing : a.listing.toList = TwoPass.listing 0 steps := by
    rw [listing_finish, listing_run_eq]
  refine ⟨?_, Step.length_faultsAfter, size_run source, listing, ?_⟩
  · rw [h.diagnostics_finish, diagnostics_run, source_run, jumpReport?_finish, listing]
  · rw [← listing, listing_finish]
    apply (tiles_pairwise h.tiles).imp
    intro d e hde
    have := d.instruction.size_pos
    omega

end Assembler

end T21
