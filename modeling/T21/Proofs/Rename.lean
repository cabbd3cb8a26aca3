import Mathlib.Logic.Equiv.Basic
import T21.Proofs.JumpReports
import T21.Proofs.Written

/-!
# Renamed labels

What a label is called does not matter, as long as different labels are called differently. A program whose labels
get other names is assembled to the same code, step by step, and the new names stand wherever the old ones stood. A
jump may have its target for a first operand, where it is a register to any other instruction; such names stay.
-/

namespace T21

/-- New names for labels. No two labels get one name, and those that are spelled like registers keep theirs. -/
structure Renaming where
  map : String → String
  isName : ∀ s, Label.isName s → Label.isName (map s)
  injective : ∀ s t, Label.isName s → Label.isName t → map s = map t → s = t
  register : ∀ s, Label.isName s → (Register.ofName? s).isSome → map s = s

def Renaming.swap (a b : String) (ha : Label.isName a ∧ Register.ofName? a = none)
    (hb : Label.isName b ∧ Register.ofName? b = none) : Renaming where
  map := Equiv.swap a b
  isName := by
    intro s hs
    rw [Equiv.swap_apply_def]
    split
    · exact hb.1
    · split
      · exact ha.1
      · exact hs
  injective := fun s t _ _ h => (Equiv.swap a b).injective h
  register := by
    intro s _ hs
    apply Equiv.swap_apply_of_ne_of_ne
    · rintro rfl
      simp [ha.2] at hs
    · rintro rfl
      simp [hb.2] at hs

def Label.rename (f : String → String) (l : Label) : Label :=
  { l with name := f l.name }

def Entry.rename (f : String → String) (e : Entry) : Entry :=
  { e with instruction := e.instruction.rename f }

def Fault.rename (f : String → String) : Fault → Fault
  | duplicateLabel name firstLine => duplicateLabel (f name) firstLine
  | undefinedLabel name => undefinedLabel (f name)
  | labelOutOfRange name offset => labelOutOfRange (f name) offset
  | fault => fault

def Diagnostic.rename (f : String → String) (d : Diagnostic) : Diagnostic :=
  { d with fault := d.fault.rename f }

def Line.rename (f : String → String) (l : Line) : Line :=
  { l with label := l.label.map f, target := l.target.map f }

namespace Instruction
variable (f : String → String) (i : Instruction)

@[simp] theorem bytes_rename : (i.rename f).bytes = i.bytes := by
  cases i <;> rfl

@[simp] theorem size_rename : (i.rename f).size = i.size := by
  cases i <;> rfl

@[simp] theorem target?_rename : (i.rename f).target? = i.target?.map f := by
  cases i <;> rfl

end Instruction

theorem Fault.rename_of_ofOperands (f : String → String) {fault : Fault} (h : fault.ofOperands) :
    fault.rename f = fault := by
  cases fault with
  | duplicateLabel | undefinedLabel | labelOutOfRange => cases h
  | _ => rfl

/-! ## Lines -/

namespace Line

/-- Label and target are names, and an operand that is a name is the name of a register. -/
structure Spelled (l : Line) : Prop where
  label : ∀ name, l.label = some name → Label.isName name
  target : ∀ name, l.target = some name → Label.isName name
  first : ∀ s, l.first = some (.name s) → (Register.ofName? s).isSome

theorem spelled_of_parse {text : List Char} {l : Line} (h : parse text = .ok l) : l.Spelled := by
  obtain ⟨ts, -, hts⟩ := bind_eq_ok.mp h
  have hd := derives_of_ofTokens hts
  refine ⟨hd.label, hd.target, ?_⟩
  obtain ⟨-, body, hb, -⟩ := hd
  generalize l.mnemonic = m, l.first = o, l.second = r, l.target = t at hb
  intro s hs
  subst hs
  cases hb with
  | instruction ho => cases ho <;> assumption

/-- Renamed lines can be read as well. A target is not taken for a register that it was not before. -/
theorem exists_rename (ρ : Renaming) {text : List Char} {l : Line} (h : parse text = .ok l) :
    ∃ ts, ofTokens ts = .ok (l.rename ρ.map) := by
  obtain ⟨ts, -, hts⟩ := bind_eq_ok.mp h
  have hd := derives_of_ofTokens hts
  have hs : l.Settled := settled_of_ofTokens hts
  obtain ⟨body, hb⟩ : ∃ body, Body l.mnemonic l.first l.second (l.target.map ρ.map) body := by
    obtain ⟨-, body, hb, -⟩ := hd
    generalize l.mnemonic = m, l.first = o, l.second = r, l.target = t at hb
    cases hb with
    | blank => exact ⟨_, .blank⟩
    | instruction ho ht =>
      refine ⟨_, .instruction ho ?_⟩
      intro w hw
      obtain ⟨name, hname, rfl⟩ := Option.map_eq_some_iff.mp hw
      exact ρ.isName name (ht name hname)
  have label : ∀ name, (l.rename ρ.map).label = some name → Label.isName name := by
    intro name hname
    obtain ⟨old, hold, rfl⟩ := Option.map_eq_some_iff.mp hname
    exact ρ.isName old (hd.label old hold)
  refine ⟨_, ofTokens_of_settled ⟨label, body, hb, rfl⟩ ?_⟩
  intro w hw hreg
  obtain ⟨name, hname, rfl⟩ := Option.map_eq_some_iff.mp hw
  have old := hd.target name hname
  have same : ρ.map name = name := ρ.injective _ _ (ρ.isName name old) old (ρ.register _ (ρ.isName name old) hreg)
  exact hs name hname (same ▸ hreg)

namespace Spelled
variable {l : Line} (h : l.Spelled) (ρ : Renaming)
include h

theorem readTarget_rename (m : Mnemonic) : (l.rename ρ.map).readTarget m = ρ.map <$> l.readTarget m := by
  unfold readTarget
  cases ht : l.target with
  | some name => simp [rename, ht]
  | none =>
    cases hf : l.first with
    | none => simp [rename, ht, hf]
    | some o =>
      cases o with
      | literal v => simp [rename, ht, hf]
      | name s =>
        by_cases hs : Label.isName s
        · simp [rename, ht, hf, hs, ρ.register s hs (h.first s hf)]
        · simp [rename, ht, hf, hs]

theorem encodeAs_rename (m : Mnemonic) :
    (l.rename ρ.map).encodeAs m = Instruction.rename ρ.map <$> l.encodeAs m := by
  have hsource : (l.rename ρ.map).readSource m = l.readSource m := rfl
  have hdestination : (l.rename ρ.map).readDestination m = l.readDestination m := rfl
  have htarget := h.readTarget_rename ρ m
  cases m with
  | nop | swp | sav | neg | hlt => rfl
  | add | sub | jro =>
    simp only [encodeAs, hsource]
    cases l.readSource _ <;> rfl
  | mov =>
    simp only [encodeAs, hsource, hdestination]
    cases l.readSource _ with
    | error f => rfl
    | ok src => cases l.readDestination _ <;> rfl
  | jmp | jez | jnz | jgz | jlz =>
    simp only [encodeAs, htarget]
    cases l.readTarget _ <;> rfl

theorem encode_rename :
    (l.rename ρ.map).encode = Option.map (Instruction.rename ρ.map) <$> l.encode := by
  have hm : (l.rename ρ.map).mnemonic = l.mnemonic := rfl
  unfold encode
  rw [hm]
  cases l.mnemonic with
  | none => rfl
  | some m =>
    simp only [h.encodeAs_rename ρ m]
    cases l.encodeAs m <;> rfl

theorem instruction?_rename :
    (l.rename ρ.map).instruction? = l.instruction?.map (Instruction.rename ρ.map) := by
  rw [instruction?, h.encode_rename ρ, instruction?]
  cases l.encode <;> rfl

theorem instruction?_parts (n : Nat) : (Step.parts n (l.rename ρ.map)).instruction? =
    (Step.parts n l).instruction?.map (Instruction.rename ρ.map) :=
  h.instruction?_rename ρ

theorem size_parts (n : Nat) : (Step.parts n (l.rename ρ.map)).size = (Step.parts n l).size := by
  rw [Step.size, h.instruction?_parts ρ, Step.size]
  cases (Step.parts n l).instruction? <;> simp

theorem fault?_rename : (l.rename ρ.map).fault? = l.fault?.map (Fault.rename ρ.map) := by
  have same : (l.rename ρ.map).fault? = l.fault? := by
    rw [fault?, h.encode_rename ρ, fault?]
    cases l.encode <;> rfl
  rw [same]
  cases hf : l.fault? with
  | none => rfl
  | some f => rw [Option.map_some, Fault.rename_of_ofOperands ρ.map (fault?_ofOperands hf)]

theorem named {i : Instruction} (hi : l.instruction? = some i) : i.Named := by
  apply encode_named h.target
  unfold instruction? at hi
  split at hi
  · rename_i he
    rw [he, hi]
  · cases hi

end Spelled

end Line

/-! ## Label tables -/

theorem Renaming.find?_map (ρ : Renaming) {name : String} (hname : Label.isName name) {ls : List Label}
    (hls : ∀ l ∈ ls, Label.isName l.name) :
    (ls.map (Label.rename ρ.map)).find? (·.name == ρ.map name) =
      (ls.find? (·.name == name)).map (Label.rename ρ.map) := by
  induction ls with
  | nil => rfl
  | cons l ls ih =>
    have rest := ih fun m hm => hls m (List.mem_cons_of_mem _ hm)
    rw [List.map_cons]
    by_cases hl : l.name = name
    · rw [List.find?_cons_of_pos (by simp [Label.rename, hl]), List.find?_cons_of_pos (by simp [hl]), Option.map_some]
    · have hne : ρ.map l.name ≠ ρ.map name := fun e => hl (ρ.injective _ _ (hls l List.mem_cons_self) hname e)
      rw [List.find?_cons_of_neg (by simpa [Label.rename] using hne), List.find?_cons_of_neg (by simpa using hl), rest]

namespace Assembler

structure Renamed (ρ : Renaming) (s r : Assembler) : Prop where
  source : r.source = s.source
  labels : r.labels.entries.toList = s.labels.entries.toList.map (Label.rename ρ.map)
  size : r.code.size = s.code.size
  listing : r.listing.toList = s.listing.toList.map (Entry.rename ρ.map)
  diagnostics : r.diagnostics.toList = s.diagnostics.toList.map (Diagnostic.rename ρ.map)
  labelNames : ∀ l ∈ s.labels.entries.toList, Label.isName l.name
  targetNames : ∀ e ∈ s.listing.toList, e.instruction.Named

theorem renamed_start (ρ : Renaming) (source : String) : (start source).Renamed ρ (start source) :=
  ⟨rfl, rfl, rfl, rfl, rfl, nofun, nofun⟩

namespace Renamed
variable {ρ : Renaming} {s r : Assembler} (h : s.Renamed ρ r) (hs : s.Consistent) (hr : r.Consistent)
include h hs hr

theorem find? {name : String} (hname : Label.isName name) :
    r.labels.find? (ρ.map name) = (s.labels.find? name).map (Label.rename ρ.map) := by
  rw [hr.indexed.find?_eq, hs.indexed.find?_eq, h.labels, ρ.find?_map hname h.labelNames]

theorem duplicateFault? {label : Option String} (hlabel : ∀ name, label = some name → Label.isName name) :
    r.duplicateFault? (label.map ρ.map) = (s.duplicateFault? label).map (Fault.rename ρ.map) := by
  cases label with
  | none => rfl
  | some name =>
    simp only [Assembler.duplicateFault?, Option.map_some, Option.bind_some, h.find? hs hr (hlabel name rfl)]
    cases s.labels.find? name <;> rfl

/-! ## Steps -/

section
variable {l : Line} (hl : l.Spelled) (n : Nat)
include hl

theorem labels_step : (r.step (.parts n (l.rename ρ.map))).labels.entries.toList =
    (s.step (.parts n l)).labels.entries.toList.map (Label.rename ρ.map) := by
  rw [Assembler.labels_step, Assembler.labels_step]
  show ((l.label.map ρ.map).elim r.labels _).entries.toList = (l.label.elim s.labels _).entries.toList.map _
  cases hlabel : l.label with
  | none => exact h.labels
  | some name =>
    have found := h.find? hs hr (hl.label name hlabel)
    simp only [Option.map_some, Option.elim, LabelTable.declare, found]
    cases s.labels.find? name with
    | some _ => exact h.labels
    | none => simp [LabelTable.entries_insert, h.labels, h.size, Label.rename, Step.line]

theorem stepFaults : r.stepFaults (.parts n (l.rename ρ.map)) =
    (s.stepFaults (.parts n l)).map (Fault.rename ρ.map) := by
  have duplicate := h.duplicateFault? hs hr hl.label
  have own := hl.fault?_rename ρ
  have overflow : ∀ offset size, overflowFault? offset size = (overflowFault? offset size).map (Fault.rename ρ.map) := by
    intro offset size
    unfold overflowFault?
    split <;> rfl
  show (r.duplicateFault? (l.label.map ρ.map)).toList ++ (l.rename ρ.map).fault?.toList ++ _ = _
  rw [duplicate, own, hl.size_parts ρ, h.size, overflow]
  simp only [Assembler.stepFaults, List.map_append, Option.toList_map]
  rfl

theorem step : (s.step (.parts n l)).Renamed ρ (r.step (.parts n (l.rename ρ.map))) where
  source := by simp only [source_step, h.source]
  labels := h.labels_step hs hr hl n
  size := by rw [size_step, size_step, h.size, hl.size_parts ρ]
  listing := by
    rw [listing_step, listing_step, h.listing, h.size, hl.instruction?_parts ρ, List.map_append]
    cases (Step.parts n l).instruction? <;> simp [Entry.rename, Step.line]
  diagnostics := by
    simp only [diagnostics_step, h.diagnostics, h.source, h.stepFaults hs hr hl n, List.map_append, List.map_map]
    rfl
  labelNames := by
    intro m hm
    rcases s.mem_labels_step (.parts n l) hm with hm | ⟨name, hname, rfl⟩
    · exact h.labelNames m hm
    · exact hl.label name hname
  targetNames := by
    intro e he
    rw [listing_step, List.mem_append, Option.mem_toList] at he
    rcases he with he | he
    · exact h.targetNames e he
    · obtain ⟨i, hi, rfl⟩ := Option.map_eq_some_iff.mp he
      exact hl.named hi

end

/-! ## The finished assembly -/

theorem byte? {name : String} (hname : Label.isName name) : r.labels.byte? (ρ.map name) = s.labels.byte? name := by
  rw [LabelTable.byte?, LabelTable.byte?, h.find? hs hr hname]
  cases s.labels.find? name <;> rfl

theorem missing? {name : String} (hname : Label.isName name) :
    r.labels.missing? (ρ.map name) = (s.labels.missing? name).map (Fault.rename ρ.map) := by
  rw [LabelTable.missing?, LabelTable.missing?, h.find? hs hr hname]
  cases s.labels.find? name with
  | none => rfl
  | some l => by_cases hl : l.offset < romSize <;> simp [Label.rename, hl, Fault.rename]

theorem linked {i : Instruction} (hi : i.Named) : (i.rename ρ.map).linked r.labels = i.linked s.labels := by
  cases i with
  | jump c name =>
    rw [Instruction.rename, Instruction.linked_jump, Instruction.linked_jump, h.byte? hs hr (hi name rfl)]
  | _ => rfl

theorem code_finish : r.finish.assembly.code = s.finish.assembly.code := by
  apply Array.toList_inj.mp
  rw [hr.code_finish, hs.code_finish, h.listing, List.flatMap_map]
  apply List.flatMap_congr
  intro e he
  exact h.linked hs hr (h.targetNames e he)

theorem diagnostics_finish : r.finish.assembly.diagnostics.toList =
    s.finish.assembly.diagnostics.toList.map (Diagnostic.rename ρ.map) := by
  rw [hr.diagnostics_finish, hs.diagnostics_finish, listing_finish, listing_finish, h.listing, h.diagnostics,
    List.map_append, List.filterMap_map, List.map_filterMap]
  congr 1
  apply List.filterMap_congr
  intro e he
  have reported : ∀ name, e.instruction.target? = some name →
      r.labels.missing? (ρ.map name) = (s.labels.missing? name).map (Fault.rename ρ.map) := by
    intro name hname
    exact h.missing? hs hr (h.targetNames e he name hname)
  simp only [Function.comp, Assembly.jumpReport?, hr.targetFault?_finish, hs.targetFault?_finish, Entry.rename,
    Instruction.target?_rename, h.source]
  cases ht : e.instruction.target? with
  | none => rfl
  | some name =>
    simp only [Option.map_some, Option.bind_some, reported name ht]
    cases s.labels.missing? name <;> rfl

end Renamed

theorem renamed_run (ρ : Renaming) (source : String) {lines : List (Nat × Line)} (h : ∀ p ∈ lines, p.2.Spelled) :
    (run source (lines.map fun p => .parts p.1 p.2)).Renamed ρ
      (run source (lines.map fun p => .parts p.1 (p.2.rename ρ.map))) := by
  induction lines using List.reverseRecOn with
  | nil => exact renamed_start ρ source
  | append_singleton lines p ih =>
    have before := ih fun q hq => h q (List.mem_append_left _ hq)
    rw [List.map_append, List.map_append, List.map_singleton, List.map_singleton, run_snoc, run_snoc]
    exact before.step (consistent_run source _) (consistent_run source _) (h p (by simp)) p.1

/-- **Names of labels are only names.** Rename the labels and targets of lines that have been read: the result are
lines that can be read as well. Take them instead, and the code is the same. Labels, listing and diagnostics are the
same but for the names in them, which are the new ones. -/
theorem renaming_changes_names_only (ρ : Renaming) (source : String) (lines : List (Nat × Line))
    (parsed : ∀ p ∈ lines, ∃ text, Line.parse text = .ok p.2) :
    let a := (run source (lines.map fun p => .parts p.1 p.2)).finish.assembly
    let b := (run source (lines.map fun p => .parts p.1 (p.2.rename ρ.map))).finish.assembly
    (∀ p ∈ lines, ∃ ts, Line.ofTokens ts = .ok (p.2.rename ρ.map)) ∧
    b.code = a.code ∧ b.labels.toList = a.labels.toList.map (Label.rename ρ.map) ∧
    b.listing.toList = a.listing.toList.map (Entry.rename ρ.map) ∧
    b.diagnostics.toList = a.diagnostics.toList.map (Diagnostic.rename ρ.map) := by
  intro a b
  have spelled : ∀ p ∈ lines, p.2.Spelled := by
    intro p hp
    obtain ⟨text, ht⟩ := parsed p hp
    exact Line.spelled_of_parse ht
  have h := renamed_run ρ source spelled
  have hs := consistent_run source (lines.map fun p => .parts p.1 p.2)
  have hr := consistent_run source (lines.map fun p => .parts p.1 (p.2.rename ρ.map))
  refine ⟨?_, h.code_finish hs hr, ?_, ?_, h.diagnostics_finish hs hr⟩
  · intro p hp
    obtain ⟨text, ht⟩ := parsed p hp
    exact Line.exists_rename ρ ht
  · rw [labels_finish, labels_finish, h.labels]
  · rw [listing_finish, listing_finish, h.listing]

/-- A label that changes places with a keyword, in a program that declares it twice and jumps to one that is
spelled like a register. -/
theorem renaming_swaps_keyword :
    let ρ := Renaming.swap "LOOP" "NOP" (by decide +kernel) (by decide +kernel)
    let lines : List (Nat × Line) :=
      [(1, { label := some "ACC", mnemonic := some .jmp, target := some "LOOP" }),
        (2, { label := some "LOOP", mnemonic := some .jnz, first := some (.name "ACC") }),
        (3, { label := some "LOOP", mnemonic := some .jmp, target := some "NOP" })]
    let a := (run "t" (lines.map fun p => .parts p.1 p.2)).finish.assembly
    let b := (run "t" (lines.map fun p => .parts p.1 (p.2.rename ρ.map))).finish.assembly
    (∀ p ∈ lines, ∃ text, Line.parse text = .ok p.2) ∧
    b.code = a.code ∧ b.labels.toList = a.labels.toList.map (Label.rename ρ.map) ∧
    b.listing.toList = a.listing.toList.map (Entry.rename ρ.map) ∧
    b.diagnostics.toList = a.diagnostics.toList.map (Diagnostic.rename ρ.map) ∧
    b.diagnostics.toList.map Diagnostic.fault = [.duplicateLabel "NOP" 2, .undefinedLabel "LOOP"] := by
  intro ρ lines a b
  have first : Line.parse "ACC: JMP LOOP".toList =
      .ok { label := some "ACC", mnemonic := some .jmp, target := some "LOOP" } := by decide +kernel
  have second : Line.parse "LOOP: JNZ ACC".toList =
      .ok { label := some "LOOP", mnemonic := some .jnz, first := some (.name "ACC") } := by decide +kernel
  have third : Line.parse "LOOP: JMP NOP".toList =
      .ok { label := some "LOOP", mnemonic := some .jmp, target := some "NOP" } := by decide +kernel
  have parsed : ∀ p ∈ lines, ∃ text, Line.parse text = .ok p.2 := by
    simp only [lines, List.forall_mem_cons]
    exact ⟨⟨_, first⟩, ⟨_, second⟩, ⟨_, third⟩, by simp⟩
  obtain ⟨-, code, labels, listing, diagnostics⟩ := renaming_changes_names_only ρ "t" lines parsed
  exact ⟨parsed, code, labels, listing, diagnostics, by decide +kernel⟩

end Assembler

end T21
