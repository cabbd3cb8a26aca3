import T21.Proofs.JumpReports
import T21.Proofs.TwoPass

/-!
# More lines

A step adds at the end of what there is. So whatever a run has listed, declared and reported stays in place when
more lines follow, and of its code they can only fill in jumps whose target it had not declared.
-/

namespace T21

theorem LabelTable.entries_declare (t : LabelTable) (l : Label) :
    t.entries.toList <+: (t.declare l).entries.toList := by
  unfold LabelTable.declare
  split
  · exact List.prefix_refl _
  · rw [entries_insert]
    exact List.prefix_append _ _

theorem LabelTable.Indexed.find?_of_prefix {t u : LabelTable} (ht : t.Indexed) (hu : u.Indexed)
    (h : t.entries.toList <+: u.entries.toList) {name : String} {l : Label} (hl : t.find? name = some l) :
    u.find? name = some l := by
  rw [ht.find?_eq] at hl
  rw [hu.find?_eq]
  obtain ⟨more, hm⟩ := h
  rw [← hm, List.find?_append, hl, Option.some_or]

namespace Assembler

/-! ## Steps add at the end -/

structure Extends (s s' : Assembler) : Prop where
  labels : s.labels.entries.toList <+: s'.labels.entries.toList
  code : s.code.toList <+: s'.code.toList
  listing : s.listing.toList <+: s'.listing.toList
  diagnostics : s.diagnostics.toList <+: s'.diagnostics.toList

theorem Extends.refl (s : Assembler) : s.Extends s :=
  ⟨List.prefix_refl _, List.prefix_refl _, List.prefix_refl _, List.prefix_refl _⟩

theorem Extends.trans {s s' s'' : Assembler} (h : s.Extends s') (h' : s'.Extends s'') : s.Extends s'' :=
  ⟨h.labels.trans h'.labels, h.code.trans h'.code, h.listing.trans h'.listing,
    h.diagnostics.trans h'.diagnostics⟩

theorem extends_step (s : Assembler) (t : Step) : s.Extends (s.step t) := by
  constructor
  · rw [labels_step]
    cases t.label? with
    | none => exact List.prefix_refl _
    | some name => exact s.labels.entries_declare _
  · rw [code_step]
    exact List.prefix_append _ _
  · rw [listing_step]
    exact List.prefix_append _ _
  · rw [diagnostics_step]
    exact List.prefix_append _ _

theorem extends_foldl : ∀ (q : List Step) (s : Assembler), s.Extends (q.foldl step s)
  | [], s => .refl s
  | t :: q, s => (s.extends_step t).trans (extends_foldl q _)

theorem extends_run (source : String) (p q : List Step) : (run source p).Extends (run source (p ++ q)) := by
  rw [run, run, List.foldl_append]
  exact extends_foldl q _

/-! ## Targets -/

theorem Consistent.getElem?_finish {s : Assembler} (h : s.Consistent) {e : Entry} (he : e ∈ s.listing.toList)
    {j : Nat} (hj : j < e.instruction.size) :
    s.finish.assembly.code[e.offset + j]? = (e.instruction.linked s.labels)[j]? := by
  rw [← Array.getElem?_toList, h.code_finish]
  exact tiles_getElem? (fun e => e.instruction.length_linked s.labels) h.tiles he hj

theorem find?_run_eq_none (source : String) (steps : List Step) (name : String) :
    (run source steps).labels.find? name = none ↔ name ∉ steps.filterMap Step.label? := by
  rw [← TwoPass.address?_eq_none, ← find?_run source, Option.map_eq_none_iff]

section
variable {s s' : Assembler} (h : s.Consistent) (h' : s'.Consistent) (he : s.Extends s')
include h h' he

theorem Extends.find? {name : String} {l : Label} (hl : s.labels.find? name = some l) :
    s'.labels.find? name = some l :=
  h.indexed.find?_of_prefix h'.indexed he.labels hl

theorem Extends.offset? {name : String} {k : Nat} (hk : s.finish.assembly.offset? name = some k) :
    s'.finish.assembly.offset? name = some k := by
  rw [h.offset?_finish] at hk
  obtain ⟨l, hl, rfl⟩ := Option.map_eq_some_iff.mp hk
  rw [h'.offset?_finish, he.find? h h' hl, Option.map_some]

theorem Extends.linked {i : Instruction} {j : Nat} (hj : j < i.size) :
    (i.linked s.labels)[j]? = (i.linked s'.labels)[j]? ∨
      (i.linked s.labels)[j]? = some 0 ∧ j = 1 ∧ ∃ c name, i = .jump c name ∧ s.labels.find? name = none := by
  cases i with
  | jump c name =>
    rw [Instruction.linked_jump, Instruction.linked_jump]
    cases hl : s.labels.find? name with
    | some l =>
      left
      rw [LabelTable.byte?, LabelTable.byte?, hl, he.find? h h' hl]
    | none =>
      have unknown : s.labels.byte? name = none := by rw [LabelTable.byte?, hl, Option.bind_none]
      have hj : j < 2 := hj
      rcases j with _ | _ | j
      · left; rfl
      · right; exact ⟨by rw [unknown]; rfl, rfl, c, name, rfl, hl⟩
      · omega
  | _ => exact .inl rfl

theorem Extends.byte {k : Nat} (hk : k < s.finish.assembly.code.size) :
    s.finish.assembly.code[k]? = s'.finish.assembly.code[k]? ∨
      s.finish.assembly.code[k]? = some 0 ∧ ∃ e ∈ s.listing.toList, ∃ c name, e.instruction = .jump c name ∧
        k = e.offset + 1 ∧ s.labels.find? name = none := by
  rw [size_finish] at hk
  obtain ⟨e, hs, j, hj, rfl⟩ := tiles_cover h.tiles (Nat.zero_le k) hk
  rw [h.getElem?_finish hs hj, h'.getElem?_finish (he.listing.subset hs) hj]
  rcases he.linked h h' hj with same | ⟨zero, rfl, c, name, hi, hl⟩
  · exact .inl same
  · exact .inr ⟨zero, e, hs, c, name, hi, rfl, hl⟩

theorem Extends.targetFault? {i : Instruction} {f : Fault} (hf : s'.finish.assembly.targetFault? i = some f) :
    (∃ name, i.target? = some name ∧ s.finish.assembly.targetFault? i = some (.undefinedLabel name)) ∨
      s.finish.assembly.targetFault? i = some f ∧ ∃ name k, f = .labelOutOfRange name k := by
  obtain ⟨name, hi, hf⟩ := Assembly.targetFault?_eq_some_iff.mp hf
  cases hk : s.finish.assembly.offset? name with
  | none => exact .inl ⟨name, hi, Assembly.targetFault?_eq_some_iff.mpr ⟨name, hi, .inl ⟨hk, rfl⟩⟩⟩
  | some k =>
    rw [he.offset? h h' hk] at hf
    rcases hf with ⟨hno, -⟩ | ⟨k', hk', hlt, rfl⟩
    · cases hno
    · cases hk'
      exact .inr ⟨Assembly.targetFault?_eq_some_iff.mpr ⟨name, hi, .inr ⟨k, hk, hlt, rfl⟩⟩, name, k, rfl⟩

theorem Extends.outOfRange {i : Instruction} {name : String} {k : Nat}
    (hf : s.finish.assembly.targetFault? i = some (.labelOutOfRange name k)) :
    s'.finish.assembly.targetFault? i = some (.labelOutOfRange name k) := by
  rw [Assembly.targetFault?_eq_some_iff] at hf ⊢
  obtain ⟨target, hi, ⟨-, hf⟩ | ⟨k', hk, hlt, hf⟩⟩ := hf
  · cases hf
  · exact ⟨target, hi, .inr ⟨k', he.offset? h h' hk, hlt, hf⟩⟩

end

/-- **More lines disturb nothing.** What a run lists, declares and reports on its lines stays in front when more
lines follow. Of its code only the zero in a jump to a name that it does not declare can change. A target that
is out of reach stays so, and a jump of it that is reported on in the end had been so without the further lines,
as undefined or in the same words. -/
theorem more_lines_disturb_nothing (source : String) (p q : List Step) :
    let s := run source p
    let a := s.finish.assembly
    let b := (run source (p ++ q)).finish.assembly
    (a.listing.toList <+: b.listing.toList ∧ a.labels.toList <+: b.labels.toList ∧ a.code.size ≤ b.code.size) ∧
    (∀ k < a.code.size, a.code[k]? = b.code[k]? ∨
      a.code[k]? = some 0 ∧ ∃ e ∈ a.listing, ∃ c name, e.instruction = .jump c name ∧ k = e.offset + 1 ∧
        name ∉ p.filterMap Step.label?) ∧
    (s.diagnostics.toList <+: a.diagnostics.toList ∧ s.diagnostics.toList <+: b.diagnostics.toList) ∧
    (∀ d ∈ a.diagnostics, ∀ name k, d.fault = .labelOutOfRange name k → d ∈ b.diagnostics) ∧
    (a.diagnostics.toList.filter (·.fault.aboutTarget) = a.listing.toList.filterMap (a.jumpReport? source) ∧
      b.diagnostics.toList.filter (·.fault.aboutTarget) = b.listing.toList.filterMap (b.jumpReport? source)) ∧
    ∀ e ∈ a.listing, ∀ d, b.jumpReport? source e = some d →
      (∃ name, e.instruction.target? = some name ∧
        a.jumpReport? source e = some ⟨source, e.line, .undefinedLabel name⟩) ∨
      a.jumpReport? source e = some d ∧ ∃ name k, d.fault = .labelOutOfRange name k := by
  intro s a b
  have h : s.Consistent := consistent_run source p
  have h' := consistent_run source (p ++ q)
  have he : s.Extends (run source (p ++ q)) := extends_run source p q
  have listing : a.listing.toList <+: b.listing.toList := by
    rw [listing_finish, listing_finish]
    exact he.listing
  refine ⟨⟨listing, ?_, ?_⟩, ?_, ⟨?_, ?_⟩, ?_, ⟨reports_on_targets source p, reports_on_targets source (p ++ q)⟩, ?_⟩
  · rw [labels_finish, labels_finish]
    exact he.labels
  · rw [size_finish, size_finish]
    exact he.code.length_le
  · intro k hk
    rcases he.byte h h' hk with same | ⟨zero, e, hs, c, name, hi, hke, hl⟩
    · exact .inl same
    · refine .inr ⟨zero, e, ?_, c, name, hi, hke, (find?_run_eq_none source p name).mp hl⟩
      rwa [listing_finish, ← Array.mem_toList_iff]
  · rw [h.diagnostics_finish]
    exact List.prefix_append _ _
  · rw [h'.diagnostics_finish]
    exact he.diagnostics.trans (List.prefix_append _ _)
  · -- the report belongs to a jump of the listing, which both assemblies have
    intro d hd name k hf
    have about : d ∈ a.diagnostics.toList.filter (·.fault.aboutTarget) := by
      rw [List.mem_filter, hf]
      exact ⟨Array.mem_toList_iff.mpr hd, rfl⟩
    rw [reports_on_targets source p, List.mem_filterMap] at about
    obtain ⟨e, hs, hd⟩ := about
    obtain ⟨f, ha, rfl⟩ := Option.map_eq_some_iff.mp hd
    have hf : f = .labelOutOfRange name k := hf
    subst hf
    have kept : ⟨source, e.line, .labelOutOfRange name k⟩ ∈ b.diagnostics.toList.filter (·.fault.aboutTarget) := by
      rw [reports_on_targets source (p ++ q), List.mem_filterMap]
      exact ⟨e, listing.subset hs, by rw [Assembly.jumpReport?, he.outOfRange h h' ha, Option.map_some]⟩
    exact Array.mem_toList_iff.mp (List.mem_of_mem_filter kept)
  · intro e hs d hd
    obtain ⟨f, hf, rfl⟩ := Option.map_eq_some_iff.mp hd
    rcases he.targetFault? h h' hf with ⟨name, hi, ha⟩ | ⟨ha, hk⟩
    · exact .inl ⟨name, hi, by rw [Assembly.jumpReport?, ha, Option.map_some]⟩
    · exact .inr ⟨by rw [Assembly.jumpReport?, ha, Option.map_some], hk⟩

/-- A forward jump that a later line completes, beside one that stays undefined. -/
theorem more_lines_complete_jump :
    let p := [Step.raw 1 "JMP END", .raw 2 "JMP OUT"]
    let a := (run "t" p).finish.assembly
    let b := (run "t" (p ++ [.raw 3 "END: HLT"])).finish.assembly
    (1 < a.code.size ∧ a.code[1]? = some 0 ∧ b.code[1]? = some 4 ∧
      ∃ e ∈ a.listing, ∃ c name, e.instruction = .jump c name ∧ 1 = e.offset + 1 ∧ name ∉ p.filterMap Step.label?) ∧
    ∃ e ∈ a.listing, b.jumpReport? "t" e = some ⟨"t", 2, .undefinedLabel "OUT"⟩ ∧
      ∃ name, e.instruction.target? = some name ∧
        a.jumpReport? "t" e = some ⟨"t", e.line, .undefinedLabel name⟩ := by
  intro p a b
  obtain ⟨-, bytes, -, -, -, jumps⟩ := more_lines_disturb_nothing "t" p [.raw 3 "END: HLT"]
  have size : 1 < a.code.size := by decide +kernel
  have before : a.code[1]? = some 0 := by decide +kernel
  have after : b.code[1]? = some 4 := by decide +kernel
  have listed : ⟨2, 2, .jump .always "OUT"⟩ ∈ a.listing := by decide +kernel
  have reported : b.jumpReport? "t" ⟨2, 2, .jump .always "OUT"⟩ = some ⟨"t", 2, .undefinedLabel "OUT"⟩ := by
    decide +kernel
  refine ⟨⟨size, before, after, ?_⟩, _, listed, reported, ?_⟩
  · rcases bytes 1 size with same | ⟨-, changed⟩
    · rw [before, after] at same
      cases same
    · exact changed
  · rcases jumps _ listed _ reported with undefined | ⟨-, name, k, hf⟩
    · exact undefined
    · cases hf

end Assembler

end T21
