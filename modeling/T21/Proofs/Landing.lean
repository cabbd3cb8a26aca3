import T21.Proofs.Extend
import T21.Proofs.Interleave

/-!
# Where jumps land

A label is declared before the instruction of its line is placed, and stands for the end of the code as it is then.
So it stands for the instruction that is placed next, by its own line or by a later one, and a jump to it never lands
inside an instruction.
-/

namespace T21

theorem tiles_apart : ∀ {lo hi : Nat} {es : List Entry}, Tiles lo es hi → ∀ d ∈ es, ∀ e ∈ es,
    e.offset ≤ d.offset ∨ d.offset + d.instruction.size ≤ e.offset
  | _, _, [], _, d, hd, _, _ => by cases hd
  | lo, hi, x :: es, ⟨hx, hs⟩, d, hd, e, he => by
    have bounds := tiles_bounds hs
    rcases List.mem_cons.mp hd with rfl | hd'
    · rcases List.mem_cons.mp he with rfl | he'
      · exact .inl (Nat.le_refl _)
      · have := bounds.2 e he'
        omega
    · rcases List.mem_cons.mp he with rfl | he'
      · have := bounds.2 d hd'
        omega
      · exact tiles_apart hs d hd' e he'

theorem LabelTable.find?_insert (t : LabelTable) (l : Label) : (t.insert l).find? l.name = some l := by
  simp [find?, insert]

namespace TwoPass

theorem exists_first {steps : List Step} {name : String} {k : Nat} (h : address? steps name = some k) :
    ∃ before t after, steps = before ++ t :: after ∧ t.label? = some name ∧
      name ∉ before.filterMap Step.label? ∧ k = total before := by
  have declared : name ∈ steps.filterMap Step.label? := by
    by_contra hno
    rw [(address?_eq_none steps name).mpr hno] at h
    cases h
  obtain ⟨u, hu, hname⟩ := List.mem_filterMap.mp declared
  obtain ⟨t, ht⟩ : ∃ t, steps.find? (fun t => t.label? = some name) = some t := by
    rw [← Option.isSome_iff_exists, List.find?_isSome]
    exact ⟨u, hu, by simpa using hname⟩
  obtain ⟨hlabel, before, after, rfl, hbefore⟩ := List.find?_eq_some_iff_append.mp ht
  have hlabel : t.label? = some name := by simpa using hlabel
  have hno : name ∉ before.filterMap Step.label? := by
    intro hmem
    obtain ⟨v, hv, hn⟩ := List.mem_filterMap.mp hmem
    simpa [hn] using hbefore v hv
  rw [address?_of_first hlabel hno] at h
  cases h
  exact ⟨before, t, after, rfl, hlabel, hno, rfl⟩

end TwoPass

namespace Assembler

/-! ## Steps that place nothing -/

theorem quiet_run (source : String) (before : List Step) {quiet : List Step}
    (h : ∀ q ∈ quiet, q.instruction? = none) :
    (run source (before ++ quiet)).listing = (run source before).listing ∧
      (run source (before ++ quiet)).code.size = (run source before).code.size := by
  induction quiet using List.reverseRecOn with
  | nil => simp
  | append_singleton quiet q ih =>
    obtain ⟨listing, size⟩ := ih fun p hp => h p (List.mem_append_left _ hp)
    have none := h q (by simp)
    rw [← List.append_assoc, run_snoc, ← Array.toList_inj, listing_step, size_step, listing, size, Step.size, none]
    simp

/-- The next instruction to be placed is placed at the present end of the code. -/
theorem next_placed (source : String) (before after : List Step) :
    (∃ quiet u later i, after = quiet ++ u :: later ∧
      (run source (before ++ quiet)).listing = (run source before).listing ∧
      (run source (before ++ quiet ++ [u])).listing =
        (run source before).listing.push ⟨u.line, (run source before).code.size, i⟩) ∨
    (run source (before ++ after)).listing = (run source before).listing ∧
      (run source (before ++ after)).code.size = (run source before).code.size := by
  cases h : after.find? (·.instruction?.isSome) with
  | none =>
    right
    apply quiet_run
    intro q hq
    simpa using List.find?_eq_none.mp h q hq
  | some u =>
    left
    obtain ⟨hu, quiet, later, rfl, hquiet⟩ := List.find?_eq_some_iff_append.mp h
    obtain ⟨i, hi⟩ := Option.isSome_iff_exists.mp hu
    have still : ∀ q ∈ quiet, q.instruction? = none := by simpa using hquiet
    obtain ⟨listing, size⟩ := quiet_run source before still
    refine ⟨quiet, u, later, i, rfl, listing, ?_⟩
    rw [run_snoc, ← Array.toList_inj, listing_step, listing, size, hi]
    simp

theorem declared_by (source : String) {before : List Step} {t : Step} {name : String} (ht : t.label? = some name)
    (hb : (run source before).labels.find? name = none) :
    (run source (before ++ [t])).labels.find? name = some ⟨name, (run source before).code.size, t.line⟩ := by
  rw [run_snoc, labels_step, ht, Option.elim, LabelTable.declare]
  simp only [hb]
  exact LabelTable.find?_insert _ ⟨name, _, _⟩

theorem label_between (source : String) (steps : List Step) {name : String} {k : Nat}
    (h : (run source steps).finish.assembly.offset? name = some k) {d : Entry}
    (hd : d ∈ (run source steps).listing.toList) : k ≤ d.offset ∨ d.offset + d.instruction.size ≤ k := by
  have hs := consistent_run source steps
  rw [hs.offset?_finish] at h
  obtain ⟨l, hl, rfl⟩ := Option.map_eq_some_iff.mp h
  rw [hs.indexed.find?_eq] at hl
  rcases labels_between source steps l (List.mem_of_find?_eq_some hl) with hend | ⟨e, he, ho⟩
  · rw [hend]
    exact .inr ((tiles_bounds hs.tiles).2 d hd).2
  · rw [← ho]
    exact tiles_apart hs.tiles d hd e he

/-- **Jumps land on instructions.** Let a jump of a finished run have a target that is declared at an offset a byte
can hold. Its second byte is that offset. The step that declares the target, or else the first step after it that
places an instruction, places it there; if none does, the code ends there. No instruction has the offset inside it,
past its first byte. -/
theorem jumps_land_on_instructions (source : String) (steps : List Step) {e : Entry} {c : Condition}
    {name : String} {k : Nat} (he : e ∈ (run source steps).finish.assembly.listing)
    (hi : e.instruction = .jump c name) (hk : (run source steps).finish.assembly.offset? name = some k)
    (hle : k ≤ 255) :
    let a := (run source steps).finish.assembly
    (∃ b, a.code[e.offset + 1]? = some b ∧ b.toNat = k) ∧
    (∃ before t after, steps = before ++ t :: after ∧
      (run source before).labels.find? name = none ∧
      (run source (before ++ [t])).labels.find? name = some ⟨name, k, t.line⟩ ∧
      ((∃ quiet u later i, t :: after = quiet ++ u :: later ∧
          (run source (before ++ quiet)).listing = (run source before).listing ∧
          (run source (before ++ quiet ++ [u])).listing = (run source before).listing.push ⟨u.line, k, i⟩) ∨
        a.listing = (run source before).listing ∧ k = a.code.size)) ∧
    ∀ d ∈ a.listing, ∀ j, 0 < j → j < d.instruction.size → k ≠ d.offset + j := by
  intro a
  have listed : ∀ d, d ∈ a.listing → d ∈ (run source steps).listing.toList := by
    intro d hd
    rwa [listing_finish, ← Array.mem_toList_iff] at hd
  have address : TwoPass.address? steps name = some k := by rw [← offset?_run source, hk]
  refine ⟨⟨UInt8.ofNat k, ?_, UInt8.toNat_ofNat_of_lt' (Nat.lt_succ_of_le hle)⟩, ?_, ?_⟩
  · rw [jump_byte_run source steps (listed e he) hi]
    simp only [TwoPass.targetByte, address, hle, ite_true]
  · obtain ⟨before, t, after, rfl, ht, hno, rfl⟩ := TwoPass.exists_first address
    have new := (find?_run_eq_none source before name).mpr hno
    refine ⟨before, t, after, rfl, new, ?_, ?_⟩
    · rw [declared_by source ht new, size_run]
    · rw [← size_run source, listing_finish, size_finish]
      rcases next_placed source before (t :: after) with placed | ⟨listing, size⟩
      · exact .inl placed
      · exact .inr ⟨listing, size.symm⟩
  · intro d hd j hpos hj
    have := label_between source steps hk (listed d hd)
    omega

/-- The operands on the line of the target do not fit, so the jump lands on the instruction after it. -/
theorem jumps_land_past_fault :
    let steps := [Step.raw 1 "JMP END", .raw 2 "END: MOV 300, ACC", .raw 3 "OTHER:", .raw 4 "ADD 5", .raw 5 "HLT"]
    let a := (run "t" steps).finish.assembly
    (⟨1, 0, .jump .always "END"⟩ ∈ a.listing ∧ a.offset? "END" = some 2 ∧ 2 ≤ 255) ∧
    (∃ b, a.code[0 + 1]? = some b ∧ b.toNat = 2) ∧
    (∃ before t after, steps = before ++ t :: after ∧
      (run "t" before).labels.find? "END" = none ∧
      (run "t" (before ++ [t])).labels.find? "END" = some ⟨"END", 2, t.line⟩ ∧
      ((∃ quiet u later i, t :: after = quiet ++ u :: later ∧
          (run "t" (before ++ quiet)).listing = (run "t" before).listing ∧
          (run "t" (before ++ quiet ++ [u])).listing = (run "t" before).listing.push ⟨u.line, 2, i⟩) ∨
        a.listing = (run "t" before).listing ∧ 2 = a.code.size)) ∧
    ∀ d ∈ a.listing, ∀ j, 0 < j → j < d.instruction.size → 2 ≠ d.offset + j := by
  intro steps a
  have listed : ⟨1, 0, .jump .always "END"⟩ ∈ a.listing := by decide +kernel
  have declared : a.offset? "END" = some 2 := by decide +kernel
  exact ⟨⟨listed, declared, by decide⟩, jumps_land_on_instructions "t" steps listed rfl declared (by decide)⟩

end Assembler

end T21
