import T21.Proofs.JumpReports

/-!
# The end of the ROM

The ROM holds 256 bytes. An image that outgrows it is reported on once, under the line of the instruction that holds
the first byte too many. An image that does not can still have a label behind its last byte, and that is the one
offset that neither lies in the ROM nor is reported on as an overflow.
-/

namespace T21

def Fault.isOverflow : Fault → Bool
  | romOverflow _ => true
  | _ => false

theorem Fault.isOverflow_eq {f : Fault} (h : f.aboutTarget = false) : f.isOverflow = f.ofProgram := by
  cases f with
  | undefinedLabel | labelOutOfRange => cases h
  | _ => rfl

theorem Fault.isOverflow_eq_false {f : Fault} (h : f.aboutTarget) : f.isOverflow = false := by
  cases f with
  | romOverflow => cases h
  | _ => rfl

def Entry.covers (k : Nat) (e : Entry) : Bool :=
  e.offset ≤ k && k < e.offset + e.instruction.size

/-! ## What covers an address -/

theorem filter_covers_eq_nil {lo hi k : Nat} {es : List Entry} (h : Tiles lo es hi) (hk : k < lo ∨ hi ≤ k) :
    es.filter (·.covers k) = [] := by
  rw [List.filter_eq_nil_iff]
  intro e he
  have := (tiles_bounds h).2 e he
  simp only [Entry.covers, Bool.and_eq_true, decide_eq_true_eq]
  omega

theorem exists_filter_covers : ∀ {lo hi k : Nat} {es : List Entry}, Tiles lo es hi → lo ≤ k → k < hi →
    ∃ e, es.filter (·.covers k) = [e]
  | lo, hi, k, [], h, hlo, hhi => by
    have hnil : lo = hi := h
    omega
  | lo, hi, k, e :: es, ⟨he, hs⟩, hlo, hhi => by
    by_cases hk : k < lo + e.instruction.size
    · have here : e.covers k = true := by simp [Entry.covers, he, hlo, hk]
      exact ⟨e, by rw [List.filter_cons_of_pos here, filter_covers_eq_nil hs (.inl hk)]⟩
    · have past : ¬ e.covers k = true := by simp [Entry.covers, he, hk]
      rw [List.filter_cons_of_neg past]
      exact exists_filter_covers hs (Nat.le_of_not_lt hk) hhi

namespace Assembler

/-! ## Overflows -/

theorem overflowFault?_entry (e : Entry) : overflowFault? e.offset e.instruction.size =
    if e.covers 256 then some (.romOverflow 256) else none := by
  unfold overflowFault?
  by_cases h : e.offset ≤ 256 ∧ 256 < e.offset + e.instruction.size <;> simp [Entry.covers, romSize, h]

/-- The overflows that are reported are the instructions that cover the first address past the ROM. -/
theorem overflows_finish (source : String) (steps : List Step) :
    let a := (run source steps).finish.assembly
    a.diagnostics.toList.filter (·.fault.isOverflow) =
      (a.listing.toList.filter (·.covers 256)).map fun e => ⟨source, e.line, .romOverflow 256⟩ := by
  intro a
  have crossings : (run source steps).diagnostics.toList.filter (·.fault.ofProgram) =
      (a.listing.toList.filter (·.covers 256)).map fun e => ⟨source, e.line, .romOverflow 256⟩ := by
    rw [overflows_run, listing_finish, ← List.filterMap_eq_map, ← List.filterMap_eq_filter, List.filterMap_filterMap]
    congr 1
    funext e
    rw [overflowFault?_entry]
    by_cases he : e.covers 256 <;> simp [he, Option.guard]
  have lines : (run source steps).diagnostics.toList.filter (·.fault.isOverflow) =
      (run source steps).diagnostics.toList.filter (·.fault.ofProgram) := by
    apply List.filter_congr
    intro d hd
    exact Fault.isOverflow_eq (diagnostics_run_aboutTarget source steps d hd)
  have jumps : (a.listing.toList.filterMap (a.jumpReport? source)).filter (·.fault.isOverflow) = [] := by
    rw [List.filter_eq_nil_iff]
    intro d hd
    obtain ⟨e, -, hd⟩ := List.mem_filterMap.mp hd
    simp [Fault.isOverflow_eq_false (Assembly.aboutTarget_of_jumpReport? hd)]
  rw [(consistent_run source steps).diagnostics_finish, source_run, List.filter_append, lines, jumps, crossings,
    List.append_nil]

theorem overflows_of_le {source : String} {steps : List Step} (h : (run source steps).code.size ≤ 256) :
    (run source steps).finish.assembly.diagnostics.toList.filter (·.fault.isOverflow) = [] := by
  rw [overflows_finish, listing_finish, filter_covers_eq_nil (consistent_run source steps).tiles (.inr h)]
  rfl

theorem overflows_of_lt {source : String} {steps : List Step} (h : 256 < (run source steps).code.size) :
    let a := (run source steps).finish.assembly
    ∃ e, a.listing.toList.filter (·.covers 256) = [e] ∧
      a.diagnostics.toList.filter (·.fault.isOverflow) = [⟨source, e.line, .romOverflow 256⟩] := by
  intro a
  obtain ⟨e, he⟩ := exists_filter_covers (consistent_run source steps).tiles (Nat.zero_le 256) h
  rw [← listing_finish] at he
  refine ⟨e, he, ?_⟩
  rw [overflows_finish, he]
  rfl

/-! ## Labels -/

theorem outOfRange_finish {source : String} {steps : List Step} {d : Diagnostic} {name : String} {k : Nat}
    (hd : d ∈ (run source steps).finish.assembly.diagnostics) (hf : d.fault = .labelOutOfRange name k) :
    (run source steps).finish.assembly.offset? name = some k ∧ 255 < k ∧ k ≤ (run source steps).code.size := by
  have hs := consistent_run source steps
  have listed : d ∈ (run source steps).finish.assembly.diagnostics.toList.filter (·.fault.aboutTarget) := by
    simp [Array.mem_toList_iff.mpr hd, hf, Fault.aboutTarget]
  rw [reports_on_targets, List.mem_filterMap] at listed
  obtain ⟨e, -, hr⟩ := listed
  obtain ⟨f, htarget, rfl⟩ := Option.map_eq_some_iff.mp hr
  obtain rfl : f = .labelOutOfRange name k := hf
  obtain ⟨name', -, ⟨-, hn⟩ | ⟨k', hk', hlt, he⟩⟩ := Assembly.targetFault?_eq_some_iff.mp htarget
  · cases hn
  · cases he
    refine ⟨hk', hlt, ?_⟩
    rw [hs.offset?_finish] at hk'
    obtain ⟨l, hl, rfl⟩ := Option.map_eq_some_iff.mp hk'
    rw [hs.indexed.find?_eq] at hl
    exact hs.within l (List.mem_of_find?_eq_some hl)

/-- **The end of the ROM.** A finished run reports an overflow exactly if its code is longer than the ROM, and then
once, under the line of the one instruction that holds the byte at address 256. Without an overflow every label
stands at 256 or before, and an offset reported as out of range is 256, where the code ends. -/
theorem overflow_reported_once (source : String) (steps : List Step) :
    let a := (run source steps).finish.assembly
    let overflows := a.diagnostics.toList.filter (·.fault.isOverflow)
    (overflows ≠ [] ↔ 256 < a.code.size) ∧
    overflows.length ≤ 1 ∧
    (∀ d ∈ overflows, ∃ e, a.listing.toList.filter (·.covers 256) = [e] ∧
      d = ⟨source, e.line, .romOverflow 256⟩) ∧
    (overflows = [] → (∀ l ∈ a.labels, l.offset ≤ 256) ∧
      ∀ d ∈ a.diagnostics, ∀ name k, d.fault = .labelOutOfRange name k →
        a.offset? name = some k ∧ k = 256 ∧ a.code.size = 256) := by
  intro a overflows
  have size : a.code.size = (run source steps).code.size := size_finish _
  by_cases hlt : 256 < (run source steps).code.size
  · obtain ⟨e, he, ho⟩ := overflows_of_lt hlt
    have ho : overflows = [⟨source, e.line, .romOverflow 256⟩] := ho
    rw [ho, size]
    refine ⟨by simp [hlt], by simp, ?_, by simp⟩
    intro d hd
    exact ⟨e, he, List.mem_singleton.mp hd⟩
  · have fits : (run source steps).code.size ≤ 256 := Nat.le_of_not_lt hlt
    have ho : overflows = [] := overflows_of_le fits
    rw [ho, size]
    refine ⟨by simp [fits], by simp, by simp, fun _ => ⟨?_, ?_⟩⟩
    · intro l hl
      have hl : l ∈ (run source steps).labels.entries.toList := by
        rwa [Array.mem_toList_iff, ← labels_finish]
      exact Nat.le_trans ((consistent_run source steps).within l hl) fits
    · intro d hd name k hf
      obtain ⟨stands, above, within⟩ := outOfRange_finish hd hf
      exact ⟨stands, by omega, by omega⟩

-- the instruction that crosses the end may begin before it
example :
    let steps := List.replicate 255 (.raw 1 "NOP") ++ [.raw 2 "ADD 1", .raw 3 "HLT"]
    (run "t" steps).finish.assembly.diagnostics = #[⟨"t", 2, .romOverflow 256⟩] := by decide +kernel

-- a full ROM is no overflow, and a label at its end is out of range
example :
    let steps := .raw 1 "JMP END" :: List.replicate 254 (.raw 2 "NOP") ++ [.raw 3 "END:"]
    (run "t" steps).finish.assembly.diagnostics = #[⟨"t", 1, .labelOutOfRange "END" 256⟩] := by decide +kernel

end Assembler

end T21
