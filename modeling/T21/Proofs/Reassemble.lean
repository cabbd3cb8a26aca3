import T21.Proofs.Interleave
import T21.Proofs.Log
import T21.Proofs.Repair

/-!
# Listings as programs

The listing of an assembly, with every label on a line of its own before the instruction that it stands for, is a
program again. It assembles to the same code, labels and instructions, and of what was reported there is left what
is wrong with the program as a whole.
-/

namespace T21

open TwoPass

/-! ## Steps that take the lines -/

def Label.place (l : Label) : String × Nat := (l.name, l.offset)

def Entry.place (e : Entry) : Nat × Instruction := (e.offset, e.instruction)

def Diagnostic.what (d : Diagnostic) : String × Fault := (d.source, d.fault)

theorem Instruction.instruction?_line {i : Instruction} (h : i.Named) : i.line.instruction? = some i := by
  rw [Line.instruction?, encode_line h]

section
variable {ts : List Step} {ls : List Label} {es : List Entry} {lo hi : Nat}

theorem declarations_labels {group : List Label} (offset : ∀ l ∈ group, l.offset = lo)
    (h : ts.map Step.content? = group.map fun l => some { label := some l.name }) :
    total ts = 0 ∧ (declarations lo ts).map Label.place = group.map Label.place := by
  induction group generalizing ts with
  | nil =>
    obtain rfl := List.map_eq_nil_iff.mp h
    exact ⟨rfl, rfl⟩
  | cons l group ih =>
    obtain ⟨t, ts, rfl, ht, hts⟩ := List.map_eq_cons_iff.mp h
    obtain ⟨htotal, hplaces⟩ := ih (fun m hm => offset m (List.mem_cons_of_mem _ hm)) hts
    have label : t.label? = some l.name := by rw [Step.label?, ht]; rfl
    have size : t.size = 0 := by
      rw [Step.size, Step.instruction?, ht]
      rfl
    have hl : l.place = (l.name, lo) := by rw [Label.place, offset l List.mem_cons_self]
    rw [total, declarations, label, size, List.map_append, Nat.add_zero, hplaces, List.map_cons, hl]
    exact ⟨by omega, rfl⟩

variable (named : ∀ e ∈ es, e.instruction.Named)
  (h : ts.map Step.content? =
    interleave (fun l => some { label := some l.name }) (fun i => some i.line) ls hi es)
include named h

theorem instructions_of_lines : ts.filterMap Step.instruction? = es.map Entry.instruction := by
  have each : ts.map Step.instruction? = interleave (fun _ => none) some ls hi es := by
    calc ts.map Step.instruction?
        = (ts.map Step.content?).map fun c => c.bind Line.instruction? := by rw [List.map_map]; rfl
      _ = interleave (fun _ => none) (fun i => i.line.instruction?) ls hi es := by rw [h, map_interleave]; rfl
      _ = interleave (fun _ => none) some ls hi es :=
          interleave_congr (fun _ _ => rfl) fun e he => Instruction.instruction?_line (named e he)
  have reduced := congrArg List.reduceOption each
  rw [instructions_interleave, List.reduceOption, List.filterMap_map] at reduced
  exact reduced

theorem declarations_of_lines (tiles : Tiles lo es hi) :
    (declarations lo ts).map Label.place =
      (interleave (some ∘ Label.place) (fun _ => none) ls hi es).reduceOption := by
  have group : ∀ {k : Nat} {us : List Step},
      us.map Step.content? = (ls.filter (·.offset = k)).map (fun l => some { label := some l.name }) →
        total us = 0 ∧ (declarations k us).map Label.place = (ls.filter (·.offset = k)).map Label.place := by
    intro k us hus
    apply declarations_labels _ hus
    intro l hl
    simpa using (List.mem_filter.mp hl).2
  induction es generalizing lo ts with
  | nil =>
    have hlo : lo = hi := tiles
    rw [hlo, (group h).2, interleave, reduceOption_map_some]
  | cons e es ih =>
    obtain ⟨hlo, hs⟩ := tiles
    obtain ⟨us, more, rfl, hus, hmore⟩ := List.map_eq_append_iff.mp h
    obtain ⟨t, ts, rfl, ht, hts⟩ := List.map_eq_cons_iff.mp hmore
    obtain ⟨htotal, hplaces⟩ := group hus
    have hi := Instruction.instruction?_line (named e List.mem_cons_self)
    have label : t.label? = none := by
      rw [Step.label?, ht]
      exact e.instruction.label_line
    have size : t.size = e.instruction.size := by
      rw [Step.size, Step.instruction?, ht, Option.bind_some, hi]
      rfl
    have rest := ih (fun d hd => named d (List.mem_cons_of_mem _ hd)) hts hs
    rw [declarations_append, htotal, declarations, label, size, Nat.add_zero, List.map_append, interleave,
      List.reduceOption_append, List.reduceOption_cons_of_none, ← rest, ← hlo, hplaces, reduceOption_map_some]
    rfl

theorem nothing_wrong_of_lines : ∀ t ∈ ts, t.fault? = none ∧ t.warnings = [] := by
  intro t ht
  have hmem : t.content? ∈ ts.map Step.content? := List.mem_map_of_mem ht
  rw [h] at hmem
  rcases mem_interleave hmem with ⟨l, -, hl⟩ | ⟨e, he, hl⟩
  · rw [Step.fault?_of_content? hl, Step.warnings, hl]
    exact ⟨rfl, rfl⟩
  · rw [Step.fault?_of_content? hl, Step.warnings, hl, Line.fault?, Instruction.encode_line (named e he)]
    exact ⟨rfl, Instruction.warnings_line (named e he)⟩

end

/-! ## Names -/

structure Step.Named (t : Step) : Prop where
  label : ∀ name, t.label? = some name → Label.isName name
  instruction : ∀ i, t.instruction? = some i → i.Named

theorem Step.named_raw (n : Nat) (text : String) : (Step.raw n text).Named where
  label := by
    intro name hname
    obtain ⟨l, hr, hl⟩ := (label?_raw n text name).mp hname
    exact Line.isName_of_read hr hl
  instruction := by
    intro i hi
    obtain ⟨l, hr, he⟩ := (instruction?_raw n text i).mp hi
    obtain ⟨ts, -, hm⟩ := Line.tokens_of_read hr
    have target : ∀ w, l.mute.target = some w → Label.isName w := (Line.derives_of_ofTokens hm).target
    exact Line.encode_named target he

namespace Assembler

section
variable {source : String} {steps : List Step} (h : ∀ t ∈ steps, t.Named)
include h

theorem named_listing : ∀ e ∈ (run source steps).finish.assembly.listing.toList, e.instruction.Named := by
  intro e he
  have hmem : e.instruction ∈ (run source steps).listing.toList.map Entry.instruction := by
    rw [← listing_finish]
    exact List.mem_map_of_mem he
  rw [instructions_run] at hmem
  obtain ⟨t, ht, hi⟩ := List.mem_filterMap.mp hmem
  exact (h t ht).instruction _ hi

theorem named_labels : ∀ l ∈ (run source steps).finish.assembly.labels.toList, Label.isName l.name := by
  intro l hl
  have found : (run source steps).labels.find? l.name ≠ none := by
    rw [labels_finish] at hl
    rw [(consistent_run source steps).indexed.find?_eq, Ne, List.find?_eq_none]
    intro hno
    exact hno l hl (by simp)
  rw [Ne, find?_run_eq_none, not_not] at found
  obtain ⟨t, ht, hname⟩ := List.mem_filterMap.mp found
  exact (h t ht).label _ hname

end

end Assembler

/-! ## What depends on the places only -/

theorem tiles_places {lo hi hi' : Nat} {es fs : List Entry} (h : Tiles lo es hi) (h' : Tiles lo fs hi')
    (same : es.map Entry.instruction = fs.map Entry.instruction) : es.map Entry.place = fs.map Entry.place := by
  induction es generalizing lo fs with
  | nil =>
    obtain rfl := List.map_eq_nil_iff.mp same.symm
    rfl
  | cons e es ih =>
    obtain ⟨f, fs, rfl, hf, hfs⟩ := List.map_eq_cons_iff.mp same.symm
    obtain ⟨he, hs⟩ := h
    obtain ⟨hf', hs'⟩ := h'
    rw [hf] at hs'
    rw [List.map_cons, List.map_cons, ih hs hs' hfs.symm, Entry.place, Entry.place, he, hf', hf]

theorem Assembly.offset?_of_places {a b : Assembly}
    (h : b.labels.toList.map Label.place = a.labels.toList.map Label.place) : b.offset? = a.offset? := by
  have place : ∀ (c : Assembly) (name : String),
      c.offset? name = ((c.labels.toList.map Label.place).find? (·.1 == name)).map Prod.snd := by
    intro c name
    rw [Assembly.offset?, ← Array.find?_toList, List.find?_map, Option.map_map]
    rfl
  funext name
  rw [place, place, h]

namespace Assembler

/-- What is wrong with the program can be told from the places of its labels and instructions. -/
theorem whats_finish (source : String) (steps : List Step) :
    let a := (run source steps).finish.assembly
    let placed := a.listing.toList.map Entry.place
    (a.diagnostics.toList.filter (·.fault.ofProgram)).map Diagnostic.what =
      (placed.filterMap (fun p => overflowFault? p.1 p.2.size) ++
        placed.filterMap (fun p => TwoPass.targetFault? steps p.2)).map (Prod.mk source) := by
  intro a placed
  have hs := consistent_run source steps
  have targets : ∀ d ∈ a.listing.toList.filterMap (a.jumpReport? source), d.fault.ofProgram = true := by
    intro d hd
    obtain ⟨e, -, hd⟩ := List.mem_filterMap.mp hd
    obtain ⟨f, hf, rfl⟩ := Option.map_eq_some_iff.mp hd
    rw [hs.targetFault?_finish] at hf
    obtain ⟨name, -, hm⟩ := Option.bind_eq_some_iff.mp hf
    exact LabelTable.missing?_ofProgram hm
  rw [hs.diagnostics_finish, source_run, List.filter_append, overflows_run, List.filter_eq_self.mpr targets,
    jumpReport?_finish, ← listing_finish, List.map_append, List.map_append, List.map_filterMap, List.map_filterMap,
    List.map_filterMap, List.map_filterMap, List.filterMap_map, List.filterMap_map]
  congr 2
  · funext e
    cases h : overflowFault? e.offset e.instruction.size <;> simp [h, Entry.place, Diagnostic.what]
  · funext e
    cases h : TwoPass.targetFault? steps e.instruction <;>
      simp [h, Entry.place, Diagnostic.what, TwoPass.jumpReport?]

/-! ## Listings that are run -/

/-- The steps take the labels and instructions of the assembly one by one. -/
def Replays (ts : List Step) (a : Assembly) : Prop :=
  ts.map Step.content? = interleave (fun l => some { label := some l.name }) (fun i => some i.line)
    a.labels.toList a.code.size a.listing.toList

section
variable {source : String} {steps ts : List Step} (named : ∀ t ∈ steps, t.Named)
  (h : Replays ts (run source steps).finish.assembly)
include named h

theorem instructions_again : ts.filterMap Step.instruction? = steps.filterMap Step.instruction? := by
  rw [instructions_of_lines (named_listing named) h, listing_finish, instructions_run]

theorem declarations_again : (declarations 0 ts).map Label.place = (TwoPass.labels steps).map Label.place := by
  have hs := consistent_run source steps
  have tiles : Tiles 0 (run source steps).finish.assembly.listing.toList
      (run source steps).finish.assembly.code.size := by
    rw [listing_finish, size_finish]
    exact hs.tiles
  rw [declarations_of_lines (named_listing named) h tiles, labels_finish, listing_finish, size_finish,
    labels_interleave _ hs.tiles hs.ordered (labels_between source steps), labels_run]

theorem nodup_again : (ts.filterMap Step.label?).Nodup := by
  have names : ∀ ls : List Label, ls.map Label.name = (ls.map Label.place).map Prod.fst := by
    intro ls
    rw [List.map_map]
    rfl
  rw [← map_name_declarations ts 0, names, declarations_again named h, ← names, ← labels_run source]
  exact (consistent_run source steps).indexed.nodup_names

theorem labels_again : (run source ts).finish.assembly.labels.toList.map Label.place =
    (run source steps).finish.assembly.labels.toList.map Label.place := by
  have nodup : ((declarations 0 ts).map Label.name).Nodup := by
    rw [map_name_declarations]
    exact nodup_again named h
  rw [labels_finish, labels_finish, labels_run, labels_run, TwoPass.labels, keepFirst_eq_self nodup,
    declarations_again named h]

theorem address?_again : address? ts = address? steps := by
  funext name
  rw [← offset?_run source, ← offset?_run source, Assembly.offset?_of_places (labels_again named h)]

theorem listing_again : (run source ts).finish.assembly.listing.toList.map Entry.place =
    (run source steps).finish.assembly.listing.toList.map Entry.place := by
  rw [listing_finish, listing_finish]
  apply tiles_places (consistent_run source ts).tiles (consistent_run source steps).tiles
  rw [instructions_run, instructions_run, instructions_again named h]

theorem code_again : (run source ts).finish.assembly.code = (run source steps).finish.assembly.code := by
  have bytes : instructionBytes ts = instructionBytes steps := by
    funext i
    simp only [instructionBytes, targetByte, address?_again named h]
  apply Array.toList_inj.mp
  rw [code_run, code_run, TwoPass.code, TwoPass.code, bytes, instructions_again named h]

theorem whats_again : (run source ts).finish.assembly.diagnostics.toList.map Diagnostic.what =
    ((run source steps).finish.assembly.diagnostics.toList.filter (·.fault.ofProgram)).map Diagnostic.what := by
  have right : repaired ts = ts :=
    repaired_eq_self (fun t ht => (nothing_wrong_of_lines (named_listing named) h t ht).1) (nodup_again named h)
  have mirrored := mirrors_run source ts
  rw [right] at mirrored
  have targets : TwoPass.targetFault? ts = TwoPass.targetFault? steps := by
    funext i
    simp only [TwoPass.targetFault?, address?_again named h]
  rw [mirrored.diagnostics_finish, whats_finish, whats_finish, listing_again named h, targets]

theorem surplus_again (part : String) (m : Mnemonic) : Event.surplus part m ∉ (run source ts).finish.log := by
  intro hmem
  have warned : Event.surplus part m ∈ ts.flatMap Step.warnings := by
    rw [← surplus_finish source]
    exact List.mem_filter.mpr ⟨Array.mem_toList_iff.mpr hmem, rfl⟩
  obtain ⟨t, ht, hw⟩ := List.mem_flatMap.mp warned
  rw [(nothing_wrong_of_lines (named_listing named) h t ht).2] at hw
  cases hw

end

end Assembler

/-! ## The text of a listing -/

namespace Assembly

/-- Every instruction on a line of its own, with the labels that stand at its offset on lines before it. -/
def sourceLines (a : Assembly) : List String :=
  interleave (·.name ++ ":") Instruction.text a.labels.toList a.code.size a.listing.toList

def sourceText (a : Assembly) : String :=
  String.join (a.sourceLines.map (· ++ "\n"))

variable {a : Assembly} (labels : ∀ l ∈ a.labels.toList, Label.isName l.name)
  (named : ∀ e ∈ a.listing.toList, e.instruction.Named)
include labels named

theorem lines_sourceText : Text.lines a.sourceText = a.sourceLines := by
  have written : ∀ line ∈ a.sourceLines, ∀ c ∈ line.toList, isWritten c := by
    intro line hline
    rcases mem_interleave hline with ⟨l, hl, rfl⟩ | ⟨e, he, rfl⟩
    · exact (writes_label (labels l hl)).chars
    · obtain ⟨ts, hw, -⟩ := Instruction.writes_text (named e he)
      exact hw.chars
  apply Text.lines_join_ended
  · intro line hline hmem
    exact (ne_of_isWritten (written line hline _ hmem)).2.1 rfl
  · intro line hline hmem
    exact (ne_of_isWritten (written line hline _ hmem)).2.2 rfl

theorem replays_sourceLines : Assembler.Replays (numbered a.sourceLines) a := by
  have content : (numbered a.sourceLines).map Step.content? =
      a.sourceLines.map fun text => (Line.read text).toOption := by
    rw [numbered, List.map_map]
    conv => rhs; rw [← List.zipIdx_map_fst 1 a.sourceLines, List.map_map]
    rfl
  rw [Assembler.Replays, content, sourceLines, map_interleave]
  apply interleave_congr
  · intro l hl
    simp only [Function.comp, read_label (labels l hl)]
    rfl
  · intro e he
    simp only [Function.comp, Instruction.read_text (named e he)]
    rfl

end Assembly

/-- **Listings reassemble.** Write the listing of an assembly out as a program, with each label on a line before the
instruction that it stands for. That program has the same code, the same labels at the same offsets in the same
order and the same instructions. It is warned of nothing and reported on only for what the first program had wrong
as a whole, in the same order. -/
theorem listing_reassembles (source text : String) :
    let a := (assemble source text).assembly
    let o := assemble source a.sourceText
    let b := o.assembly
    b.code = a.code ∧ b.labels.toList.map Label.place = a.labels.toList.map Label.place ∧
    b.listing.toList.map Entry.place = a.listing.toList.map Entry.place ∧
    (∀ part m, Event.surplus part m ∉ o.log) ∧
    b.diagnostics.toList.map Diagnostic.what =
      (a.diagnostics.toList.filter (·.fault.ofProgram)).map Diagnostic.what := by
  intro a o b
  have named : ∀ t ∈ numbered (Text.lines text), t.Named := by
    intro t ht
    obtain ⟨n, raw, rfl, -⟩ := (mem_numbered _).mp ht
    exact Step.named_raw n raw
  have labels : ∀ l ∈ a.labels.toList, Label.isName l.name := Assembler.named_labels named
  have listing : ∀ e ∈ a.listing.toList, e.instruction.Named := Assembler.named_listing named
  have replays : Assembler.Replays (numbered a.sourceLines) a := Assembly.replays_sourceLines labels listing
  have ho : o = (Assembler.run source (numbered a.sourceLines)).finish := by
    show assemble source a.sourceText = _
    rw [assemble, Assembly.lines_sourceText labels listing]
  rw [show b = o.assembly from rfl, ho]
  exact ⟨Assembler.code_again named replays, Assembler.labels_again named replays,
    Assembler.listing_again named replays, Assembler.surplus_again named replays,
    Assembler.whats_again named replays⟩

-- `LEFT` is a label here, and is read as one although it is spelled like a register
example : (assemble "t" "a: jmp left # go\nleft: mov -1 acc\nend:").assembly.sourceLines =
    ["A:", "JMP LEFT", "LEFT:", "MOV -1, ACC", "END:"] := by decide +kernel

end T21
