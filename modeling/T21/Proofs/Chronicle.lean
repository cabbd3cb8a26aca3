import T21.Proofs.Extend
import T21.Proofs.Log

/-!
# The log and the result

What is logged is of six kinds. While the lines are taken, each kind but the warnings keeps pace with one field of the
assembler; fixups and the end of the run add what they do to the result. So the log of a finished run can be told, kind
by kind, from the assembly that comes out of it.
-/

namespace T21

namespace Event

inductive Kind where
  | warning
  | label
  | instruction
  | report
  | patch
  | summary
  deriving DecidableEq

def kind : Event → Kind
  | surplus .. => .warning
  | labelDefined .. => .label
  | emitted .. => .instruction
  | reported _ => .report
  | patched .. => .patch
  | finished .. => .summary

def told (k : Kind) (log : List Event) : List Event :=
  log.filter (·.kind = k)

theorem told_append (k : Kind) (xs ys : List Event) : told k (xs ++ ys) = told k xs ++ told k ys :=
  List.filter_append ..

theorem told_warning (log : List Event) : told .warning log = log.filter isSurplus := by
  apply List.filter_congr
  intro e _
  cases e <;> rfl

def shown (e : Event) : Level × String :=
  (e.level, e.message)

end Event

open Event Text

/-! ## What is logged of the result -/

def Entry.event (source : String) (e : Entry) : Event :=
  .emitted source e.line e.offset e.instruction

def Label.event (source : String) (l : Label) : Event :=
  .labelDefined source l.line l.name l.offset

structure Patch where
  address : Nat
  name : String
  value : UInt8

def Patch.event (p : Patch) : Event :=
  .patched p.address p.name p.value

/-- The second byte of a jump whose target stands where a byte can tell. -/
def Assembly.patch? (a : Assembly) (e : Entry) : Option Patch :=
  e.instruction.target?.bind fun name =>
    (a.offset? name).bind fun k => if k ≤ 255 then some ⟨e.offset + 1, name, UInt8.ofNat k⟩ else none

/-! The lines of the log, with the bytes of an instruction as they are before any fixup. -/

def Entry.logged (source : String) (e : Entry) : Level × String :=
  (.trace, source ++ ":" ++ toString e.line ++ ": " ++ Hex.padded 4 e.offset ++ ": " ++ e.instruction.text ++
    " => [" ++ Hex.joined ", " e.instruction.bytes ++ "]")

def Label.logged (source : String) (l : Label) : Level × String :=
  (.debug, source ++ ":" ++ toString l.line ++ ": label " ++ l.name ++ " at offset " ++ toString l.offset)

def Patch.logged (p : Patch) : Level × String :=
  (.debug, "patching " ++ Hex.padded 4 p.address ++ " with " ++ p.name ++ " = " ++ Hex.byteText p.value)

def Assembly.logged (source : String) (a : Assembly) : Level × String :=
  (.info, source ++ ": assembled " ++ toString a.code.size ++ " byte(s), " ++ toString a.labels.size ++
    " label(s), " ++ toString a.diagnostics.size ++ " diagnostic(s)")

namespace Assembler

/-- The events of each kind that go with the fields of an assembler. -/
def account (s : Assembler) : Kind → List Event
  | .label => s.labels.entries.toList.map (Label.event s.source)
  | .instruction => s.listing.toList.map (Entry.event s.source)
  | .report => s.diagnostics.toList.map reported
  | .warning | .patch | .summary => []

/-! ## Steps -/

section
variable (s : Assembler) (t : Step)

def added? (s : Assembler) (t : Step) : Option Label :=
  (t.label?.filter fun name => (s.labels.find? name).isNone).map fun name => ⟨name, s.code.size, t.line⟩

theorem entries_step : (s.step t).labels.entries.toList = s.labels.entries.toList ++ (s.added? t).toList := by
  rw [labels_step, added?]
  cases t.label? with
  | none => simp
  | some name => cases h : s.labels.find? name <;> simp [Option.filter_some, LabelTable.declare, h, LabelTable.insert]

theorem told_labelEvent (k : Kind) : told k (t.label?.map (s.labelEvent t.line)).toList =
    match k with
    | .label => (s.added? t).toList.map (Label.event s.source)
    | .report => (s.duplicateFault? t.label?).toList.map fun f => reported ⟨s.source, t.line, f⟩
    | _ => [] := by
  rw [added?]
  cases t.label? with
  | none => cases k <;> rfl
  | some name =>
    cases h : s.labels.find? name with
    | none => cases k <;> simp [told, labelEvent, h, kind, duplicateFault?, Option.filter_some, Label.event]
    | some first => cases k <;> simp [told, labelEvent, h, kind, duplicateFault?]

theorem told_emitEvents (line : Nat) (i : Instruction) (k : Kind) : told k (s.emitEvents line i) =
    match k with
    | .instruction => [Entry.event s.source ⟨line, s.code.size, i⟩]
    | .report => (overflowFault? s.code.size i.size).toList.map fun f => reported ⟨s.source, line, f⟩
    | _ => [] := by
  rw [emitEvents]
  cases overflowFault? s.code.size i.size <;> cases k <;> simp [told, kind, Entry.event]

theorem told_fault (k : Kind) : told k (t.fault?.map fun f => reported ⟨s.source, t.line, f⟩).toList =
    match k with
    | .report => t.fault?.toList.map fun f => reported ⟨s.source, t.line, f⟩
    | _ => [] := by
  cases t.fault? <;> cases k <;> simp [told, kind]

theorem told_warnings {k : Kind} (hk : k ≠ .warning) : told k t.warnings = [] := by
  rw [told, List.filter_eq_nil_iff, Step.warnings]
  intro e he
  cases hc : t.content? with
  | none => simp [hc] at he
  | some l =>
    have hs : e.isSurplus := isSurplus_warnings (by simpa [hc] using he)
    cases e with
    | surplus => simp [kind, hk.symm]
    | _ => cases hs

theorem told_stepEvents {k : Kind} (hk : k ≠ .warning) : told k (s.stepEvents t) =
    match k with
    | .label => (s.added? t).toList.map (Label.event s.source)
    | .instruction => (t.instruction?.map (Entry.mk t.line s.code.size)).toList.map (Entry.event s.source)
    | .report => (s.stepFaults t).map fun f => reported ⟨s.source, t.line, f⟩
    | _ => [] := by
  rw [stepEvents, told_append, told_append, told_append, told_labelEvent, told_warnings t hk, told_fault, stepFaults,
    Step.size]
  cases hi : t.instruction? with
  | none => cases k <;> simp [told]
  | some i =>
    -- a step with an instruction has no fault of its own
    have hf : t.fault? = none := by
      cases hf : t.fault? with
      | none => rfl
      | some f =>
        rw [Step.instruction?_of_fault? hf] at hi
        cases hi
    cases k <;> simp [told_emitEvents, hf]

theorem account_step {k : Kind} (hk : k ≠ .warning) :
    (s.step t).account k = s.account k ++ told k (s.stepEvents t) := by
  rw [told_stepEvents s t hk]
  cases k with
  | label => simp only [account, entries_step, source_step, List.map_append]
  | instruction => simp only [account, listing_step, source_step, List.map_append]
  | report => simp only [account, diagnostics_step, List.map_append, List.map_map]; rfl
  | _ => rfl

end

theorem told_run (source : String) (steps : List Step) {k : Kind} (hk : k ≠ .warning) :
    told k (run source steps).log.toList = (run source steps).account k := by
  apply run_induction (P := fun s => told k s.log.toList = s.account k) source
  · cases k <;> rfl
  · intro s t ih
    rw [log_step, told_append, ih, account_step s t hk]

/-! ## Fixups -/

section
variable (s : Assembler)

theorem told_resolveEvent (k : Kind) (f : Fixup) : told k [s.resolveEvent f] =
    match k with
    | .report => ((s.labels.missing? f.target).map fun x => reported ⟨s.source, f.line, x⟩).toList
    | .patch => ((s.labels.byte? f.target).map fun b => patched f.address f.target b).toList
    | _ => [] := by
  unfold resolveEvent LabelTable.missing? LabelTable.byte?
  cases s.labels.find? f.target with
  | none => cases k <;> rfl
  | some l => by_cases hl : l.offset < romSize <;> cases k <;> simp [told, kind, hl]

theorem kind_resolveEvent (f : Fixup) : (s.resolveEvent f).kind = .patch ∨ (s.resolveEvent f).kind = .report := by
  unfold resolveEvent
  split
  · exact .inr rfl
  · split
    · exact .inl rfl
    · exact .inr rfl

theorem told_resolveEvents (k : Kind) (fs : List Fixup) : told k (fs.map s.resolveEvent) =
    match k with
    | .report => fs.filterMap fun f => (s.labels.missing? f.target).map fun x => reported ⟨s.source, f.line, x⟩
    | .patch => fs.filterMap fun f => (s.labels.byte? f.target).map fun b => patched f.address f.target b
    | _ => [] := by
  induction fs with
  | nil => cases k <;> rfl
  | cons f fs ih =>
    rw [List.map_cons, ← List.singleton_append, told_append, ih, told_resolveEvent]
    cases k with
    | report => cases hf : s.labels.missing? f.target <;> simp [hf]
    | patch => cases hf : s.labels.byte? f.target <;> simp [hf]
    | _ => rfl

end

/-! ## Finished runs -/

namespace Consistent
variable {s : Assembler} (h : s.Consistent)
include h

theorem patch?_finish (e : Entry) : s.finish.assembly.patch? e =
    e.fixup?.bind fun f => (s.labels.byte? f.target).map fun b => ⟨f.address, f.target, b⟩ := by
  rw [Assembly.patch?, Entry.fixup?]
  cases e.instruction.target? with
  | none => rfl
  | some name =>
    simp only [Option.bind_some, Option.map_some, h.offset?_finish, LabelTable.byte?]
    cases s.labels.find? name with
    | none => rfl
    | some l =>
      have fits : l.offset < romSize ↔ l.offset ≤ 255 := Nat.lt_succ_iff
      by_cases hl : l.offset ≤ 255 <;> simp [fits, hl]

theorem patches_finish : s.finish.assembly.listing.toList.filterMap s.finish.assembly.patch? =
    s.fixups.toList.filterMap fun f => (s.labels.byte? f.target).map fun b => ⟨f.address, f.target, b⟩ := by
  rw [h.fixups, List.filterMap_filterMap, listing_finish]
  congr 1
  funext e
  exact h.patch?_finish e

theorem code_patch? {e : Entry} (he : e ∈ s.listing.toList) {p : Patch} (hp : s.finish.assembly.patch? e = some p) :
    s.finish.assembly.code[p.address]? = some p.value := by
  rw [h.patch?_finish] at hp
  obtain ⟨f, hf, hp⟩ := Option.bind_eq_some_iff.mp hp
  obtain ⟨b, hb, rfl⟩ := Option.map_eq_some_iff.mp hp
  obtain ⟨c, hi, ha, -⟩ := Entry.fixup?_eq_some hf
  have second : 1 < e.instruction.size := by simp [hi, Instruction.size]
  rw [ha, h.getElem?_finish he second, hi, Instruction.linked_jump, hb]
  rfl

theorem patches_increase : (s.finish.assembly.listing.toList.filterMap s.finish.assembly.patch?).Pairwise
    fun p q => p.address < q.address := by
  rw [h.patches_finish, List.pairwise_filterMap]
  apply h.addresses_increase.imp
  intro f g hfg p hp q hq
  obtain ⟨b, -, rfl⟩ := Option.map_eq_some_iff.mp hp
  obtain ⟨c, -, rfl⟩ := Option.map_eq_some_iff.mp hq
  exact hfg

end Consistent

theorem told_finish (source : String) (steps : List Step) (k : Kind) :
    let a := (run source steps).finish.assembly
    told k (run source steps).finish.log.toList =
      match k with
      | .warning => steps.flatMap Step.warnings
      | .label => a.labels.toList.map (Label.event source)
      | .instruction => a.listing.toList.map (Entry.event source)
      | .report => a.diagnostics.toList.map reported
      | .patch => (a.listing.toList.filterMap a.patch?).map Patch.event
      | .summary => [finished source a.code.size a.labels.size a.diagnostics.size] := by
  intro a
  by_cases hk : k = .warning
  · rw [hk, told_warning, surplus_finish]
  rw [log_finish, told_append, told_append, told_run source steps hk, told_resolveEvents]
  cases k with
  | warning => exact absurd rfl hk
  | label => simp [a, account, labels_finish, source_run, told, kind]
  | instruction => simp [a, account, listing_finish, source_run, told, kind]
  | report =>
    simp [a, account, Assembler.diagnostics_finish, source_run, told, kind, List.map_filterMap, Function.comp_def]
  | patch =>
    rw [(consistent_run source steps).patches_finish]
    simp [account, told, kind, List.map_filterMap, Function.comp_def, Patch.event]
  | summary => simp [a, account, source_run, told, kind]

/-- **The log tells the result.** A finished run has logged each instruction of its listing with the bytes before any
fixup, each of its labels and each of its diagnostics, in their order; each jump whose target a byte can tell, from low
addresses to high, with the byte that the code holds there; and last of all the size of what came out. All that is left
is warnings, and these come from the lines. Jumps are logged only when all lines have been taken, and from then on
neither labels nor instructions are. -/
theorem log_tells_result (source : String) (steps : List Step) :
    let s := run source steps
    let a := s.finish.assembly
    let log := s.finish.log.toList
    let shown := fun k => (told k log).map Event.shown
    let patches := a.listing.toList.filterMap a.patch?
    shown .instruction = a.listing.toList.map (Entry.logged source) ∧
    shown .label = a.labels.toList.map (Label.logged source) ∧
    shown .report = a.diagnostics.toList.map (fun d => (.debug, d.text)) ∧
    shown .patch = patches.map Patch.logged ∧
    patches.Pairwise (fun p q => p.address < q.address) ∧
    (∀ p ∈ patches, a.code[p.address]? = some p.value) ∧
    shown .summary = [a.logged source] ∧
    shown .warning = (steps.flatMap Step.warnings).map Event.shown ∧
    ∃ resolving last, log = s.log.toList ++ resolving ++ [last] ∧ last.shown = a.logged source ∧
      (∀ e ∈ s.log.toList, e.kind ≠ .patch) ∧ ∀ e ∈ resolving, e.kind = .patch ∨ e.kind = .report := by
  intro s a log shown patches
  have hs : s.Consistent := consistent_run source steps
  have finished := told_finish source steps
  have shows : ∀ {α : Type} {xs : List α} {event : α → Event} {k : Kind}, told k log = xs.map event →
      shown k = xs.map fun x => (event x).shown := by
    intro α xs event k h
    simp only [shown, h, List.map_map]
    rfl
  refine ⟨shows (finished .instruction), shows (finished .label), shows (finished .report), shows (finished .patch),
    hs.patches_increase, ?_, congrArg (List.map Event.shown) (finished .summary),
    congrArg (List.map Event.shown) (finished .warning), ?_⟩
  · intro p hp
    obtain ⟨e, he, hp⟩ := List.mem_filterMap.mp hp
    rw [listing_finish] at he
    exact hs.code_patch? he hp
  · refine ⟨s.fixups.toList.map s.resolveEvent, _, s.log_finish, ?_, ?_, ?_⟩
    · rw [show s.source = source from source_run source steps]
      rfl
    · intro e he hk
      have none : told .patch s.log.toList = [] := told_run source steps nofun
      rw [told, List.filter_eq_nil_iff] at none
      exact none e he (decide_eq_true hk)
    · intro e he
      obtain ⟨f, -, rfl⟩ := List.mem_map.mp he
      exact s.kind_resolveEvent f

end Assembler

end T21
