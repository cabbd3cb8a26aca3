import T21.Proofs.TwoPass

/-!
# Programs without faults

A program is assembled without a report exactly when it is clean: its lines read and encode, its labels are
declared once, its jumps have targets that a byte can address, and its code fits in the ROM.
-/

namespace T21

/-! ## Lines of a program -/

def Declares (raw name : String) : Prop :=
  ∃ l, Line.read raw = .ok l ∧ l.label = some name

def EncodesTo (raw : String) (i : Instruction) : Prop :=
  ∃ l, Line.read raw = .ok l ∧ l.encode = .ok (some i)

def hasMnemonic (raw : String) : Bool :=
  match Line.read raw with
  | .ok l => l.mnemonic.isSome
  | .error _ => false

def lineSize (raw : String) : Nat :=
  match Line.read raw with
  | .error _ => 0
  | .ok l =>
    match l.encode with
    | .ok (some i) => i.size
    | _ => 0

def imageSize : List String → Nat
  | [] => 0
  | raw :: lines => lineSize raw + imageSize lines

structure Clean (lines : List String) : Prop where
  reads : ∀ raw ∈ lines, ∃ l, Line.read raw = .ok l
  encodes : ∀ raw ∈ lines, ∀ l, Line.read raw = .ok l → l.mnemonic.isSome → ∃ i, l.encode = .ok (some i)
  declaredOnce : lines.Pairwise fun a b => ∀ name, Declares a name → ¬ Declares b name
  declared : ∀ raw ∈ lines, ∀ c name, EncodesTo raw (.jump c name) → ∃ raw' ∈ lines, Declares raw' name
  inRange : ∀ raw ∈ lines, ∀ c name, EncodesTo raw (.jump c name) → ∀ before raw' after,
    lines = before ++ raw' :: after → Declares raw' name → imageSize before ≤ 255
  fits : imageSize lines ≤ 256

/-! ## Steps that report nothing -/

namespace Assembler

open TwoPass

theorem overflowFault?_eq_none (offset size : Nat) :
    overflowFault? offset size = none ↔ (offset ≤ romSize → offset + size ≤ romSize) := by
  unfold overflowFault?
  by_cases h : offset ≤ romSize ∧ romSize < offset + size
  · rw [if_pos h]
    simp only [reduceCtorEq, false_iff]
    intro h'
    have := h' h.1
    omega
  · rw [if_neg h]
    simp only [true_iff]
    omega

theorem duplicateFault?_run_eq_none (source : String) (steps : List Step) (label : Option String) :
    (run source steps).duplicateFault? label = none ↔
      ∀ name, label = some name → name ∉ steps.filterMap Step.label? := by
  cases label with
  | none => simp [duplicateFault?]
  | some name =>
    have h := find?_run source steps name
    simp only [duplicateFault?, Option.bind_some, Option.map_eq_none_iff, Option.some.injEq, forall_eq',
      ← address?_eq_none, ← h]

/-- The lines of a run are reported on unless they are well formed, declare new names and stay in the ROM. -/
theorem diagnostics_run_eq_nil (source : String) (steps : List Step) :
    (run source steps).diagnostics.toList = [] ↔
      (∀ t ∈ steps, t.fault? = none) ∧ (steps.filterMap Step.label?).Nodup ∧ total steps ≤ romSize := by
  induction steps using List.reverseRecOn with
  | nil => simp [start, total]
  | append_singleton steps t ih =>
    rw [run_snoc, diagnostics_step, List.append_eq_nil_iff, ih, List.map_eq_nil_iff, stepFaults,
      List.append_eq_nil_iff, List.append_eq_nil_iff, Option.toList_eq_nil_iff, Option.toList_eq_nil_iff,
      Option.toList_eq_nil_iff, duplicateFault?_run_eq_none, overflowFault?_eq_none, size_run, total_append,
      List.filterMap_append, List.nodup_append]
    have ht : total [t] = t.size := by simp [total]
    have hl : ∀ name, name ∈ [t].filterMap Step.label? ↔ t.label? = some name := by simp
    have hn : ([t].filterMap Step.label?).Nodup := by
      cases h : t.label? <;> simp [h]
    rw [ht]
    constructor
    · intro h
      obtain ⟨⟨hf, hd, htot⟩, ⟨hfresh, hft⟩, hover⟩ := h
      refine ⟨?_, ⟨hd, hn, ?_⟩, hover htot⟩
      · intro u hu
        rcases List.mem_append.mp hu with hu | hu
        · exact hf u hu
        · rw [List.mem_singleton.mp hu]; exact hft
      · intro a ha b hb hab
        exact hfresh b ((hl b).mp hb) (hab ▸ ha)
    · intro h
      obtain ⟨hf, ⟨hd, -, hdisj⟩, htot⟩ := h
      refine ⟨⟨?_, hd, by omega⟩, ⟨?_, hf t (by simp)⟩, fun _ => htot⟩
      · intro u hu
        exact hf u (List.mem_append_left _ hu)
      · intro name hname hmem
        exact hdisj name hmem name ((hl name).mpr hname) rfl

/-! ## Jumps that have a target -/

theorem targets_run (source : String) (steps : List Step) :
    (run source steps).fixups.toList.map Fixup.target =
      (steps.filterMap Step.instruction?).filterMap Instruction.target? := by
  rw [(consistent_run source steps).fixups, ← instructions_run source, List.map_filterMap, List.filterMap_map]
  apply List.filterMap_congr
  intro e _
  unfold Entry.fixup?
  cases h : e.instruction.target? <;> simp [h]

theorem missing?_run_eq_none (source : String) (steps : List Step) (name : String) :
    (run source steps).labels.missing? name = none ↔ ∃ k, address? steps name = some k ∧ k ≤ 255 := by
  rw [← find?_run source, LabelTable.missing?]
  cases (run source steps).labels.find? name with
  | none => simp
  | some l =>
    by_cases hl : l.offset < romSize
    · simpa [hl] using Nat.le_of_lt_succ hl
    · simpa [hl] using Nat.lt_of_not_le fun h => hl (Nat.lt_succ_of_le h)

theorem diagnostics_finish_eq_nil (source : String) (steps : List Step) :
    (run source steps).finish.assembly.diagnostics.toList = [] ↔
      ((∀ t ∈ steps, t.fault? = none) ∧ (steps.filterMap Step.label?).Nodup ∧ total steps ≤ romSize) ∧
      ∀ t ∈ steps, ∀ c name, t.instruction? = some (.jump c name) →
        ∃ k, address? steps name = some k ∧ k ≤ 255 := by
  rw [diagnostics_finish, List.append_eq_nil_iff, diagnostics_run_eq_nil, List.filterMap_eq_nil_iff]
  have hf : (∀ f ∈ (run source steps).fixups.toList, ((run source steps).labels.missing? f.target).map
        (Diagnostic.mk (run source steps).source f.line) = none) ↔
      ∀ name ∈ (run source steps).fixups.toList.map Fixup.target,
        ∃ k, address? steps name = some k ∧ k ≤ 255 := by
    simp only [Option.map_eq_none_iff, missing?_run_eq_none, List.mem_map, forall_exists_index, and_imp,
      forall_apply_eq_imp_iff₂]
  rw [hf, targets_run]
  apply and_congr_right
  intro _
  constructor
  · intro h t ht c name hi
    apply h name
    exact List.mem_filterMap.mpr ⟨.jump c name, List.mem_filterMap.mpr ⟨t, ht, hi⟩, rfl⟩
  · intro h name hname
    obtain ⟨i, hi, hit⟩ := List.mem_filterMap.mp hname
    obtain ⟨t, ht, hti⟩ := List.mem_filterMap.mp hi
    cases i with
    | jump c name' =>
      simp only [Instruction.target?, Option.some.injEq] at hit
      subst hit
      exact h t ht c name' hti
    | _ => simp [Instruction.target?] at hit

end Assembler

/-! ## Raw lines as steps -/

theorem Line.fault?_eq_none (l : Line) :
    l.fault? = none ↔ (l.mnemonic.isSome → ∃ i, l.encode = .ok (some i)) := by
  unfold Line.fault? Line.encode
  cases l.mnemonic with
  | none => simp
  | some m => cases h : l.encodeAs m <;> simp [h]

section
variable (n : Nat) (raw : String)

theorem fault?_raw : (Step.raw n raw).fault? = none ↔
    (∃ l, Line.read raw = .ok l) ∧
      ∀ l, Line.read raw = .ok l → l.mnemonic.isSome → ∃ i, l.encode = .ok (some i) := by
  simp only [Step.fault?]
  cases Line.read raw with
  | error cause => simp
  | ok l => simp [Line.fault?_eq_none]

theorem label?_raw (name : String) : (Step.raw n raw).label? = some name ↔ Declares raw name := by
  simp only [Declares, Step.label?, Step.content?]
  cases Line.read raw <;> simp [Except.toOption]

theorem instruction?_raw (i : Instruction) : (Step.raw n raw).instruction? = some i ↔ EncodesTo raw i := by
  simp only [EncodesTo, Step.instruction?, Step.content?]
  cases Line.read raw with
  | error _ => simp [Except.toOption]
  | ok l => cases h : l.encode <;> simp [Except.toOption, Line.instruction?, h]

theorem size_raw : (Step.raw n raw).size = lineSize raw := by
  simp only [lineSize, Step.size, Step.instruction?, Step.content?]
  cases Line.read raw with
  | error _ => rfl
  | ok l =>
    simp only [Except.toOption, Option.bind_some, Line.instruction?]
    rcases l.encode with _ | (_ | i) <;> rfl

theorem isSome_instruction?_raw (h : (Step.raw n raw).fault? = none) :
    (Step.raw n raw).instruction?.isSome = hasMnemonic raw := by
  obtain ⟨⟨l, hl⟩, he⟩ := (fault?_raw n raw).mp h
  simp only [Step.instruction?, Step.content?, hasMnemonic, hl, Except.toOption, Option.bind_some]
  cases hm : l.mnemonic with
  | none => simp [Line.instruction?, Line.encode, hm]
  | some m =>
    obtain ⟨i, hi⟩ := he l hl (by simp [hm])
    simp [Line.instruction?, hi]

end

/-! ## Numbered lines -/

theorem total_numberedFrom : ∀ (n : Nat) (lines : List String),
    TwoPass.total ((lines.zipIdx n).map fun (raw, line) => Step.raw line raw) = imageSize lines
  | _, [] => rfl
  | n, raw :: lines => by
    rw [List.zipIdx_cons, List.map_cons, TwoPass.total, total_numberedFrom (n + 1) lines, size_raw, imageSize]

section
variable (lines : List String)

theorem mem_numbered {t : Step} :
    t ∈ numbered lines ↔ ∃ n raw, t = .raw n raw ∧ 1 ≤ n ∧ lines[n - 1]? = some raw := by
  unfold numbered
  rw [List.mem_map]
  constructor
  · intro h
    obtain ⟨⟨raw, n⟩, hp, rfl⟩ := h
    exact ⟨n, raw, rfl, List.mk_mem_zipIdx_iff_le_and_getElem?_sub.mp hp⟩
  · intro h
    obtain ⟨n, raw, rfl, hn⟩ := h
    exact ⟨(raw, n), List.mk_mem_zipIdx_iff_le_and_getElem?_sub.mpr hn, rfl⟩

theorem raw_mem_numbered {raw : String} (h : raw ∈ lines) : ∃ n, Step.raw n raw ∈ numbered lines := by
  obtain ⟨i, hi⟩ := List.getElem?_of_mem h
  exact ⟨i + 1, (mem_numbered lines).mpr ⟨i + 1, raw, rfl, by omega, hi⟩⟩

theorem total_numbered : TwoPass.total (numbered lines) = imageSize lines :=
  total_numberedFrom 1 lines

theorem labels_numbered : (numbered lines).filterMap Step.label? =
    lines.filterMap fun raw => (Step.raw 0 raw).label? := by
  unfold numbered
  rw [List.filterMap_map]
  have h := List.filterMap_map (f := Prod.fst) (g := fun raw => (Step.raw 0 raw).label?) (l := lines.zipIdx 1)
  rw [List.zipIdx_map_fst] at h
  exact h.symm

theorem nodup_labels_numbered : ((numbered lines).filterMap Step.label?).Nodup ↔
    lines.Pairwise fun a b => ∀ name, Declares a name → ¬ Declares b name := by
  rw [labels_numbered, List.Nodup, List.pairwise_filterMap]
  apply List.Pairwise.iff
  intro a b
  simp only [label?_raw]
  constructor
  · intro h name ha hb
    exact h name ha name hb rfl
  · intro h x hx y hy hxy
    subst hxy
    exact h x hx hy

theorem numbered_split (before after : List String) (raw : String) :
    ∃ n rest, numbered (before ++ raw :: after) = numbered before ++ Step.raw n raw :: rest := by
  unfold numbered
  rw [List.zipIdx_append, List.map_append, List.zipIdx_cons, List.map_cons]
  exact ⟨_, _, rfl⟩

/-- Among lines that declare no name twice, a declared name has the size of the lines before it as its address. -/
theorem address?_numbered {before after : List String} {raw name : String}
    (hs : lines = before ++ raw :: after) (hr : Declares raw name)
    (hd : ((numbered lines).filterMap Step.label?).Nodup) :
    TwoPass.address? (numbered lines) name = some (imageSize before) := by
  subst hs
  obtain ⟨n, rest, hn⟩ := numbered_split before after raw
  rw [hn] at hd ⊢
  have hl : (Step.raw n raw).label? = some name := (label?_raw n raw name).mpr hr
  rw [← total_numbered]
  apply TwoPass.address?_of_first hl
  intro hmem
  rw [List.filterMap_append, List.filterMap_cons, hl, List.nodup_append] at hd
  exact hd.2.2 name hmem name List.mem_cons_self rfl

end

/-! ## Clean programs -/

open TwoPass

theorem clean_iff (lines : List String) :
    Clean lines ↔
      ((∀ t ∈ numbered lines, t.fault? = none) ∧ ((numbered lines).filterMap Step.label?).Nodup ∧
        total (numbered lines) ≤ romSize) ∧
      ∀ t ∈ numbered lines, ∀ c name, t.instruction? = some (.jump c name) →
        ∃ k, address? (numbered lines) name = some k ∧ k ≤ 255 := by
  rw [nodup_labels_numbered, total_numbered]
  constructor
  · intro h
    refine ⟨⟨?_, h.declaredOnce, h.fits⟩, ?_⟩
    · intro t ht
      obtain ⟨n, raw, rfl, -, hr⟩ := (mem_numbered lines).mp ht
      have hraw := List.mem_of_getElem? hr
      exact (fault?_raw n raw).mpr ⟨h.reads raw hraw, h.encodes raw hraw⟩
    · intro t ht c name hi
      obtain ⟨n, raw, rfl, -, hr⟩ := (mem_numbered lines).mp ht
      have hraw := List.mem_of_getElem? hr
      have henc := (instruction?_raw n raw _).mp hi
      obtain ⟨raw', hraw', hd⟩ := h.declared raw hraw c name henc
      obtain ⟨before, after, hs⟩ := List.append_of_mem hraw'
      exact ⟨imageSize before, address?_numbered lines hs hd ((nodup_labels_numbered lines).mpr h.declaredOnce),
        h.inRange raw hraw c name henc before raw' after hs hd⟩
  · intro h
    obtain ⟨⟨hf, hd, hfits⟩, hj⟩ := h
    have hline : ∀ raw ∈ lines, (∃ l, Line.read raw = .ok l) ∧
        ∀ l, Line.read raw = .ok l → l.mnemonic.isSome → ∃ i, l.encode = .ok (some i) := by
      intro raw hraw
      obtain ⟨n, hn⟩ := raw_mem_numbered lines hraw
      exact (fault?_raw n raw).mp (hf _ hn)
    have hjump : ∀ raw ∈ lines, ∀ c name, EncodesTo raw (.jump c name) →
        ∃ k, address? (numbered lines) name = some k ∧ k ≤ 255 := by
      intro raw hraw c name henc
      obtain ⟨n, hn⟩ := raw_mem_numbered lines hraw
      exact hj _ hn c name ((instruction?_raw n raw _).mpr henc)
    refine ⟨fun raw hr => (hline raw hr).1, fun raw hr => (hline raw hr).2, hd, ?_, ?_, hfits⟩
    · intro raw hraw c name henc
      obtain ⟨k, hk, -⟩ := hjump raw hraw c name henc
      have hmem : name ∈ (numbered lines).filterMap Step.label? := by
        by_contra hno
        rw [(address?_eq_none _ name).mpr hno] at hk
        cases hk
      obtain ⟨t, ht, hl⟩ := List.mem_filterMap.mp hmem
      obtain ⟨n, raw', rfl, -, hr⟩ := (mem_numbered lines).mp ht
      exact ⟨raw', List.mem_of_getElem? hr, (label?_raw n raw' name).mp hl⟩
    · intro raw hraw c name henc before raw' after hs hdecl
      obtain ⟨k, hk, hle⟩ := hjump raw hraw c name henc
      rw [address?_numbered lines hs hdecl ((nodup_labels_numbered lines).mpr hd)] at hk
      cases hk
      exact hle

theorem listed_lines (source : String) (lines : List String) (hf : ∀ t ∈ numbered lines, t.fault? = none) :
    (Assembler.run source (numbered lines)).listing.toList.map Entry.line =
      ((lines.zipIdx 1).filter fun p => hasMnemonic p.1).map Prod.snd := by
  have h := congrArg (List.map Prod.fst) (Assembler.listing_run source (numbered lines))
  rw [List.map_map, List.map_filterMap] at h
  refine Eq.trans h ?_
  rw [numbered, List.filterMap_map, ← List.filterMap_eq_filter, List.map_filterMap]
  apply List.filterMap_congr
  intro p hp
  have hp' : Step.raw p.2 p.1 ∈ numbered lines := List.mem_map.mpr ⟨p, hp, rfl⟩
  have hm := isSome_instruction?_raw p.2 p.1 (hf _ hp')
  show ((Step.raw p.2 p.1).instruction?.map ((Step.raw p.2 p.1).line, ·)).map Prod.fst = _
  cases hi : (Step.raw p.2 p.1).instruction? with
  | none => rw [hi] at hm; simp [Option.guard, ← hm]
  | some i => rw [hi] at hm; simp [Option.guard, ← hm, Step.line]

theorem listed_encodesTo (source : String) (lines : List String) {e : Entry}
    (he : e ∈ (Assembler.run source (numbered lines)).listing.toList) :
    ∃ raw, Step.raw e.line raw ∈ numbered lines ∧ EncodesTo raw e.instruction := by
  have hmem : (e.line, e.instruction) ∈
      (Assembler.run source (numbered lines)).listing.toList.map fun e => (e.line, e.instruction) :=
    List.mem_map.mpr ⟨e, he, rfl⟩
  rw [Assembler.listing_run, List.mem_filterMap] at hmem
  obtain ⟨t, ht, hte⟩ := hmem
  obtain ⟨i, hi, hli⟩ := Option.map_eq_some_iff.mp hte
  obtain ⟨n, raw, rfl, -, -⟩ := (mem_numbered lines).mp ht
  obtain ⟨hn, rfl⟩ := Prod.mk.inj hli
  have hn : n = e.line := hn
  subst hn
  exact ⟨raw, ht, (instruction?_raw e.line raw _).mp hi⟩

theorem hasErrors_eq_false (a : Assembly) : a.hasErrors = false ↔ a.diagnostics.toList = [] := by
  simp [Assembly.hasErrors]

/-- **Reports are sound and complete.** Assembling a text reports nothing exactly when its lines are clean. Then
each line with a mnemonic has its own entry in the listing, in the order of the lines, and the second byte of
every jump is the offset of its target. -/
theorem no_errors_iff_clean (source text : String) :
    let lines := Text.lines text
    let a := (assemble source text).assembly
    (a.hasErrors = false ↔ Clean lines) ∧
    (a.hasErrors = false →
      a.listing.toList.map Entry.line = ((lines.zipIdx 1).filter fun p => hasMnemonic p.1).map Prod.snd ∧
      (∀ e ∈ a.listing, ∃ raw, lines[e.line - 1]? = some raw ∧ EncodesTo raw e.instruction) ∧
      ∀ e ∈ a.listing, ∀ c name, e.instruction = .jump c name →
        ∃ k, a.offset? name = some k ∧ k ≤ 255 ∧ a.code[e.offset + 1]? = some (UInt8.ofNat k)) := by
  simp only [assemble]
  generalize Text.lines text = lines
  rw [hasErrors_eq_false, Assembler.diagnostics_finish_eq_nil, Assembler.listing_finish]
  refine ⟨(clean_iff lines).symm, ?_⟩
  intro h
  obtain ⟨⟨hf, -, -⟩, hj⟩ := h
  refine ⟨listed_lines source lines hf, ?_, ?_⟩
  · intro e he
    obtain ⟨raw, hr, henc⟩ := listed_encodesTo source lines (Array.mem_toList_iff.mpr he)
    obtain ⟨n, raw', heq, -, hget⟩ := (mem_numbered lines).mp hr
    cases heq
    exact ⟨raw, hget, henc⟩
  · intro e he c name hi
    have he' := Array.mem_toList_iff.mpr he
    obtain ⟨raw, hr, henc⟩ := listed_encodesTo source lines he'
    rw [hi] at henc
    obtain ⟨k, hk, hle⟩ := hj _ hr c name ((instruction?_raw e.line raw _).mpr henc)
    have hbyte := Assembler.jump_byte_run source (numbered lines) he' hi
    simp only [targetByte, hk, hle, ite_true] at hbyte
    exact ⟨k, (Assembler.offset?_run source (numbered lines) name).trans hk, hle, hbyte⟩

theorem no_errors_forward_jump :
    let a := (assemble "t" "JMP END\nEND: HLT").assembly
    a.hasErrors = false ∧ Clean (Text.lines "JMP END\nEND: HLT") ∧
      (∃ e ∈ a.listing, e.instruction = .jump .always "END") ∧
      ∀ e ∈ a.listing, ∀ c name, e.instruction = .jump c name →
        ∃ k, a.offset? name = some k ∧ k ≤ 255 ∧ a.code[e.offset + 1]? = some (UInt8.ofNat k) := by
  have h : (assemble "t" "JMP END\nEND: HLT").assembly.hasErrors = false := by decide +kernel
  have hc := no_errors_iff_clean "t" "JMP END\nEND: HLT"
  exact ⟨h, hc.1.mp h, by decide +kernel, (hc.2 h).2.2⟩

end T21
