import T21.Proofs.Image
import T21.Proofs.Utf8
import T21.Proofs.Workspace

/-!
# What a run delivers

A run prints its report before it writes any file, and writes the image before the records. So the report is there
whatever fails afterwards, and a failure to write is a failure of everything that comes later. What a run logs does
not matter to any of this: the actions of a run are followed up to the errors that they print.
-/

namespace T21.Cli

open HexRecord Text

/-! ## Hex files -/

/-- The bytes are lines that can be read as data records with one end of file after them, and the data records load
the image. -/
def IsHexFile (bytes : List UInt8) (image : Array UInt8) : Prop :=
  ∃ (lines : List String) (data : List HexRecord),
    bytes = Utf8.encode (String.join (lines.map (· ++ "\n"))) ∧
    Text.lines (Utf8.decode bytes) = lines ∧
    lines.map parse = data.map .ok ++ [.ok endOfFile] ∧
    (∀ r ∈ data, r.kind = .data) ∧
    ∀ k : Nat, load data k = image[k]?

theorem isHexFile_recordFile {image : Array UInt8} (h : image.size ≤ maxImage) (chunk : Nat) :
    IsHexFile (recordFile (ofSlices image chunk ++ [endOfFile])) image := by
  refine ⟨(ofSlices image chunk ++ [endOfFile]).map text, ofSlices image chunk, ?_, ?_, ?_, ?_, ?_⟩
  · rw [recordFile, List.map_map]
    rfl
  · rw [recordFile, Utf8.decode_encode, lines_text]
  · simp [parse_text]
  · intro r hr
    obtain ⟨i, -, rfl⟩ := List.mem_map.mp hr
    rfl
  · apply congrFun
    apply load_eq
    rw [writes_ofSlices image chunk h]

/-! ## Actions in a workspace -/

/-- However much has been logged before, the action ends so and leaves this workspace, up to what is logged. -/
def Leaves (action : StateM Workspace Exit) (w : Workspace) (e : Exit) (w' : Workspace) : Prop :=
  ∀ errors, ∃ errors', action.run { w with errors } = (e, { w' with errors := errors' })

section
variable {o : Options} {w w' : Workspace} {e : Exit} {next : StateM Workspace Exit}

theorem run_bind {α β : Type} (action : StateM Workspace α) (next : α → StateM Workspace β) (w : Workspace) :
    (action >>= next).run w = (next (action.run w).1).run (action.run w).2 :=
  rfl

theorem run_get (w : Workspace) : (get : StateM Workspace Workspace).run w = (w, w) :=
  rfl

theorem run_openFile (w : Workspace) (name : String) :
    (Workspace.host.openFile name).run w = ((w.openFile name).mapError PathError.message, w) :=
  rfl

theorem leaves_log (lines : List LogLine) (h : Leaves next w e w') :
    Leaves (do log Workspace.host o lines; next) w e w' := by
  intro errors
  exact h (errors ++ shown o.verbosity lines)

theorem leaves_print (text : String) (h : Leaves next { w with output := w.output ++ text } e w') :
    Leaves (do Workspace.host.print text; next) w e w' := by
  intro errors
  exact h errors

theorem leaves_fail (o : Options) (w : Workspace) (line : LogLine) :
    Leaves (fail Workspace.host o line) w .failure w := by
  intro errors
  exact ⟨errors ++ shown o.verbosity [line], rfl⟩

section
variable {name : String} {content : List UInt8}

theorem run_createFile_error {reason : PathError} (h : w.newFile name = .error reason) :
    (Workspace.host.createFile name).run w = (.error reason.message, w) := by
  simp only [Workspace.host, run_bind, run_get, h]
  rfl

theorem run_createFile_ok {p : Path} (h : w.newFile name = .ok p) :
    (Workspace.host.createFile name).run w = (.ok p, w.put p []) := by
  simp only [Workspace.host, run_bind, run_get, h]
  rfl

theorem run_writeFile (p : Path) :
    (Workspace.host.writeFile p content).run (w.put p []) = (.ok (), w.put p content) := by
  rw [← Workspace.put_put w p [] content]
  rfl

theorem leaves_write_none (h : w.place? name = none) :
    Leaves (write Workspace.host o name content next) w .failure w := by
  intro errors
  obtain ⟨p, hp, -⟩ | ⟨-, reason, hr⟩ := Workspace.newFile_cases { w with errors } name
  · cases h.symm.trans hp
  · rw [write, run_bind, run_createFile_error hr]
    exact leaves_fail o w _ errors

theorem leaves_write_some {p : Path} (h : w.place? name = some p) (hn : Leaves next (w.put p content) e w') :
    Leaves (write Workspace.host o name content next) w e w' := by
  intro errors
  obtain ⟨q, hq, hw⟩ | ⟨hq, -⟩ := Workspace.newFile_cases { w with errors } name
  · obtain rfl := Option.some.inj (h.symm.trans hq)
    rw [write, run_bind, run_createFile_ok hw]
    dsimp only
    rw [run_bind, run_writeFile]
    exact leaves_log _ hn errors
  · cases h.symm.trans hq

end

theorem leaves_store_none {name : Option String} {content : List UInt8} (h : w.store? name content = none) :
    Leaves (name.elim next fun name => write Workspace.host o name content next) w .failure w := by
  cases name with
  | none => cases h
  | some name => exact leaves_write_none (by simpa [Workspace.store?] using h)

theorem leaves_store_some {name : Option String} {content : List UInt8} {v : Workspace}
    (h : w.store? name content = some v) (hn : Leaves next v e w') :
    Leaves (name.elim next fun name => write Workspace.host o name content next) w e w' := by
  cases name with
  | none =>
    obtain rfl := Option.some.inj h
    exact hn
  | some name =>
    obtain ⟨p, hp, rfl⟩ := Option.map_eq_some_iff.mp h
    exact leaves_write_some hp hn

end

/-! ## The stages of a run -/

def recordBytes (a : Assembly) : List UInt8 :=
  recordFile (ofSlices a.code recordSize ++ [endOfFile])

/-- How the files of an assembly come to a workspace: the first that cannot be made ends the run. -/
inductive Delivers (o : Options) (a : Assembly) (w : Workspace) : Exit → Workspace → Prop
  | noImage (refused : w.Refuses o.image) : Delivers o a w .failure w
  | noRecords {v : Workspace} (image : w.store? o.image a.code.toList = some v)
      (refused : v.Refuses o.records ∨ o.records.isSome ∧ maxImage < a.code.size) : Delivers o a w .failure v
  | all {v u : Workspace} (image : w.store? o.image a.code.toList = some v)
      (records : v.store? o.records (recordBytes a) = some u) (fits : o.records.isSome → a.code.size ≤ maxImage) :
      Delivers o a w (if a.hasErrors then .failure else .success) u

section
variable (o : Options) (a : Assembly) (w : Workspace)

theorem leaves_conclude :
    Leaves (conclude Workspace.host o a) w (if a.hasErrors then .failure else .success) w := by
  unfold conclude
  by_cases h : a.hasErrors
  · rw [if_pos h, if_pos h]
    exact leaves_fail o w _
  · rw [if_neg h, if_neg h]
    intro errors
    exact ⟨errors, rfl⟩

theorem writeImage_eq (next : StateM Workspace Exit) : writeImage Workspace.host o a next =
    o.image.elim next fun name => write Workspace.host o name a.code.toList next := by
  unfold writeImage
  cases o.image <;> rfl

theorem writeRecords_eq (next : StateM Workspace Exit) (fits : o.records.isSome → a.code.size ≤ maxImage) :
    writeRecords Workspace.host o a next =
      o.records.elim next fun name => write Workspace.host o name (recordBytes a) next := by
  unfold writeRecords recordBytes
  cases hr : o.records with
  | none => rfl
  | some name =>
    rw [hr] at fits
    simp only [ofImage_eq a.code recordSize (fits rfl), Option.elim]

theorem leaves_writeRecords_large (next : StateM Workspace Exit) (asked : o.records.isSome)
    (large : maxImage < a.code.size) : Leaves (writeRecords Workspace.host o a next) w .failure w := by
  obtain ⟨name, hr⟩ := Option.isSome_iff_exists.mp asked
  simp only [writeRecords, hr, ofImage_of_large recordSize large]
  exact leaves_fail o w _

theorem leaves_deliver : ∃ e u, Leaves (deliver Workspace.host o a) w e u ∧
    Delivers o a { w with output := w.output ++ report o.showListing a } e u := by
  -- Nothing can fail before the report is printed, so all that follows starts from a workspace that has it.
  have reported : ∀ {e u}, Leaves (writeImage Workspace.host o a (writeRecords Workspace.host o a
      (conclude Workspace.host o a))) { w with output := w.output ++ report o.showListing a } e u →
      Leaves (deliver Workspace.host o a) w e u := by
    intro e u h
    exact leaves_log _ (leaves_print _ h)
  rw [writeImage_eq] at reported
  cases image : Workspace.store? { w with output := w.output ++ report o.showListing a } o.image a.code.toList with
  | none => exact ⟨_, _, reported (leaves_store_none image), .noImage (Workspace.store?_eq_none_iff.mp image)⟩
  | some v =>
    by_cases large : o.records.isSome ∧ maxImage < a.code.size
    · have h := leaves_writeRecords_large o a v (conclude Workspace.host o a) large.1 large.2
      exact ⟨_, _, reported (leaves_store_some image h), .noRecords image (.inr large)⟩
    · have fits : o.records.isSome → a.code.size ≤ maxImage := by
        intro asked
        exact Nat.not_lt.mp fun h => large ⟨asked, h⟩
      rw [writeRecords_eq o a _ fits] at reported
      cases records : v.store? o.records (recordBytes a) with
      | none =>
        refine ⟨_, _, reported (leaves_store_some image (leaves_store_none records)), .noRecords image (.inl ?_)⟩
        exact Workspace.store?_eq_none_iff.mp records
      | some u =>
        have h := leaves_store_some (o := o) records (leaves_conclude o a u)
        exact ⟨_, _, reported (leaves_store_some image h), .all image records fits⟩

end

def Workspace.input? (w : Workspace) (o : Options) : Option (List UInt8) :=
  if o.input = "-" then some w.input else w.read? o.input

section
variable (o : Options) (w : Workspace)

theorem run_openInput_none (h : w.input? o = none) :
    ∃ reason, (openInput Workspace.host o).run w = (.error reason, w) ∨
      (openInput Workspace.host o).run w = (.ok ⟨[], some reason⟩, w) := by
  unfold Workspace.input? at h
  by_cases hi : o.input = "-"
  · rw [if_pos hi] at h
    cases h
  · rw [if_neg hi] at h
    rw [openInput, if_neg hi]
    obtain ⟨data, hd, -⟩ | ⟨-, ⟨reason, hr⟩ | ⟨reason, hr⟩⟩ := w.openFile_cases o.input
    · cases h.symm.trans hd
    · refine ⟨reason.message, .inl ?_⟩
      rw [run_openFile, hr]
      rfl
    · refine ⟨reason, .inr ?_⟩
      rw [run_openFile, hr]
      rfl

theorem run_openInput_some {data : List UInt8} (h : w.input? o = some data) :
    (openInput Workspace.host o).run w = (.ok { data }, w) := by
  unfold Workspace.input? at h
  by_cases hi : o.input = "-"
  · rw [if_pos hi] at h
    cases h
    rw [openInput, if_pos hi]
    rfl
  · rw [if_neg hi] at h
    rw [openInput, if_neg hi]
    obtain ⟨data', hd, hr⟩ | ⟨hd, -⟩ := w.openFile_cases o.input
    · obtain rfl := Option.some.inj (h.symm.trans hd)
      rw [run_openFile, hr]
      rfl
    · cases h.symm.trans hd

theorem leaves_execute_none (h : w.input? o = none) : Leaves (execute Workspace.host o) w .failure w := by
  apply leaves_log
  intro errors
  rw [run_bind]
  obtain ⟨reason, hr | hr⟩ := run_openInput_none o { w with errors } h
  · rw [hr]
    exact leaves_fail o w _ errors
  · rw [hr]
    exact leaves_log _ (leaves_fail o w _) errors

theorem leaves_execute_some {data : List UInt8} (h : w.input? o = some data) :
    ∃ outcome, assembleStream o.input { data } = .ok outcome ∧ ∃ e u, Leaves (execute Workspace.host o) w e u ∧
      Delivers o outcome.assembly { w with output := w.output ++ report o.showListing outcome.assembly } e u := by
  refine ⟨_, rfl, ?_⟩
  obtain ⟨e, u, hl, hd⟩ := leaves_deliver o _ w
  refine ⟨e, u, ?_, hd⟩
  apply leaves_log
  intro errors
  rw [run_bind, run_openInput_some o { w with errors } h]
  exact leaves_log _ hl errors

end

/-! ## What is left in the end -/

section
variable {o : Options} {a : Assembly} {w u : Workspace} {e : Exit} (h : Delivers o a w e u)
include h

theorem Delivers.output : u.output = w.output := by
  cases h with
  | noImage refused => rfl
  | noRecords image refused => exact Workspace.output_store? image
  | all image records fits => rw [Workspace.output_store? records, Workspace.output_store? image]

theorem Delivers.content? (p : Path) : u.content? p =
    if ¬ w.Refuses o.image ∧ a.code.size ≤ maxImage ∧ w.target? o.records = some p then some (recordBytes a)
    else if w.target? o.image = some p then some a.code.toList
    else w.content? p := by
  cases h with
  | noImage refused => simp [refused, refused.2]
  | noRecords image refused =>
    -- The place of the records is still what it was before the image was written.
    have unwritten : ¬ (¬ w.Refuses o.image ∧ a.code.size ≤ maxImage ∧ w.target? o.records = some p) := by
      rintro ⟨-, small, hp⟩
      obtain refused | ⟨-, large⟩ := refused
      · rw [← Workspace.target?_store? image, refused.2] at hp
        cases hp
      · exact absurd small (Nat.not_le.mpr large)
    rw [Workspace.content?_store? image, if_neg unwritten]
  | all image records fits =>
    have granted := Workspace.not_refuses_of_store? image
    rw [Workspace.content?_store? records, Workspace.content?_store? image, Workspace.target?_store? image]
    by_cases hp : w.target? o.records = some p
    · simp [hp, granted, fits (Workspace.isSome_of_target? hp)]
    · simp [hp]

theorem Delivers.code : e.code =
    if ¬ w.Refuses o.image ∧ ¬ w.Refuses o.records ∧ (o.records.isSome → a.code.size ≤ maxImage) ∧
      a.diagnostics = #[] then 0 else 1 := by
  cases h with
  | noImage refused => simp [refused, Exit.code]
  | noRecords image refused =>
    rw [Workspace.refuses_store? image] at refused
    obtain refused | ⟨asked, large⟩ := refused
    · simp [refused, Exit.code]
    · simp [asked, Nat.not_le.mpr large, Exit.code]
  | all image records fits =>
    have image' := Workspace.not_refuses_of_store? image
    have records' := Workspace.not_refuses_of_store? records
    rw [Workspace.refuses_store? image] at records'
    by_cases clean : a.diagnostics = #[]
    · simpa [image', records', clean, Assembly.hasErrors, Exit.code] using fits
    · simp [clean, Assembly.hasErrors, Exit.code]

end

def runIn (w : Workspace) (args : List String) : Exit × Workspace :=
  (run Workspace.host args).run w

structure Delivered (w : Workspace) (o : Options) (a : Assembly) (e : Exit) (u : Workspace) : Prop where
  printed : u.output = w.output ++
    (String.join (a.labels.toList.map fun l => l.name ++ ": " ++ toString l.offset ++ "\n") ++
      (if o.showListing then listing a ++ "\n" else "") ++ a.hexDump ++ "\n")
  image : ∀ p, w.target? o.image = some p → w.target? o.records ≠ some p → u.content? p = some a.code.toList
  imageRefused : w.Refuses o.image → e.code = 1 ∧ ∀ p, u.content? p = w.content? p
  records : ¬ w.Refuses o.image → a.code.size ≤ 65536 →
    ∀ p, w.target? o.records = some p → ∃ bytes, u.content? p = some bytes ∧ IsHexFile bytes a.code
  recordsRefused : ¬ w.Refuses o.image → w.Refuses o.records ∨ o.records.isSome ∧ 65536 < a.code.size →
    e.code = 1 ∧ ∀ p, w.target? o.image ≠ some p → u.content? p = w.content? p
  others : ∀ p, w.target? o.image ≠ some p → w.target? o.records ≠ some p → u.content? p = w.content? p
  exit : e.code = if ¬ w.Refuses o.image ∧ ¬ w.Refuses o.records ∧ (o.records.isSome → a.code.size ≤ 65536) ∧
    a.diagnostics = #[] then 0 else 1

theorem Delivers.delivered {o : Options} {a : Assembly} {w u : Workspace} {e : Exit} (errors : String)
    (h : Delivers o a { w with output := w.output ++ report o.showListing a } e u) :
    Delivered w o a e { u with errors } := by
  have content : ∀ p, Workspace.content? { u with errors } p =
      if ¬ w.Refuses o.image ∧ a.code.size ≤ 65536 ∧ w.target? o.records = some p then some (recordBytes a)
      else if w.target? o.image = some p then some a.code.toList
      else w.content? p := h.content?
  refine ⟨h.output, ?_, ?_, ?_, ?_, ?_, h.code⟩
  · intro p hp apart
    simp [content, hp, apart]
  · intro refused
    refine ⟨h.code.trans (if_neg fun h => h.1 refused), ?_⟩
    intro p
    simp [content, refused, refused.2]
  · intro granted small p hp
    refine ⟨recordBytes a, ?_, isHexFile_recordFile small recordSize⟩
    simp [content, granted, small, hp]
  · intro granted refused
    constructor
    · apply h.code.trans
      apply if_neg
      rintro ⟨-, records, fits, -⟩
      obtain refused | ⟨asked, large⟩ := refused
      · exact records refused
      · exact absurd (fits asked) (Nat.not_le.mpr large)
    · intro p hp
      obtain refused | ⟨-, large⟩ := refused
      · simp [content, hp, refused.2]
      · simp [content, hp, Nat.not_le.mpr large]
  · intro p hi hr
    simp [content, hi, hr]

/-- **Every run says what it found and leaves what it could make.** If the input cannot be read, the run fails,
prints nothing and creates nothing. Otherwise the report is printed, whatever fails afterwards. An image that can be
created holds the code, with or without diagnostics; if it cannot, no records are written either. Records that can be
created and whose offsets reach all of the code are a hex file of the same image. Nothing else is changed, and the
run succeeds if nothing was found wrong and everything that was asked for has been made. -/
theorem run_delivers (w : Workspace) (args : List String) (o : Options) (accepted : Options.read args = .ok o) :
    (w.input? o = none → (runIn w args).1.code = 1 ∧ (runIn w args).2.output = w.output ∧
      ∀ p, (runIn w args).2.content? p = w.content? p) ∧
    ∀ data, w.input? o = some data → ∃ outcome, assembleStream o.input { data } = .ok outcome ∧
      Delivered w o outcome.assembly (runIn w args).1 (runIn w args).2 := by
  have executed : runIn w args = (execute Workspace.host o).run w := by
    rw [runIn, run, accepted]
  constructor
  · intro unread
    obtain ⟨errors, h⟩ := leaves_execute_none o w unread w.errors
    rw [executed, h]
    exact ⟨rfl, rfl, fun p => rfl⟩
  · intro data read
    obtain ⟨outcome, ho, e, u, hl, hd⟩ := leaves_execute_some o w read
    obtain ⟨errors, h⟩ := hl w.errors
    refine ⟨outcome, ho, ?_⟩
    rw [executed, h]
    exact hd.delivered errors

/-- A jump to nowhere from standard input, with the records asked for where there is a folder: the image is written
all the same, and nothing else. -/
theorem run_delivers_image_only :
    let w := Workspace.ofNames [] ["out"] (Utf8.encode "JMP A\n")
    let args := ["-d", "-o", "a.bin", "-x", "out", "-"]
    let o : Options := ⟨"-", 0, true, some "a.bin", some "out"⟩
    Options.read args = .ok o ∧ w.Refuses o.records ∧ (runIn w args).1.code = 1 ∧
      (runIn w args).2.output = "0x00: JMP A => 0C 00\n\n0C 00\n" ∧
      (runIn w args).2.content? ["tmp", "t21", "a.bin"] = some [0x0C, 0x00] ∧
      ∀ p, p ≠ ["tmp", "t21", "a.bin"] → (runIn w args).2.content? p = w.content? p := by
  intro w args o
  have accepted : Options.read args = .ok o := by decide +kernel
  have image : w.target? o.image = some ["tmp", "t21", "a.bin"] := by decide +kernel
  have refused : w.Refuses o.records := by decide +kernel
  have assembled : (assembleStream o.input { data := Utf8.encode "JMP A\n" }).map Outcome.assembly =
      .ok ⟨#[], #[0x0C, 0x00], #[⟨1, 0, .jump .always "A"⟩], #[⟨"-", 1, .undefinedLabel "A"⟩]⟩ := by decide +kernel
  obtain ⟨outcome, ho, h⟩ := (run_delivers w args o accepted).2 (Utf8.encode "JMP A\n") rfl
  rw [ho] at assembled
  rw [Except.ok.inj assembled] at h
  have kept := h.recordsRefused (by rw [Workspace.Refuses, image]; simp) (.inl refused)
  refine ⟨accepted, refused, kept.1, h.printed.trans (by decide +kernel), ?_, ?_⟩
  · exact h.image _ image (by rw [refused.2]; simp)
  · intro p hp
    apply kept.2
    rw [image]
    simpa using hp.symm

end T21.Cli
