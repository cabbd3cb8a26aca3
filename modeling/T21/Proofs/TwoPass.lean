import T21.Proofs.Consistent

/-!
# Two passes

A plain assembler reads the program twice. The first pass adds up sizes and gives every name the offset of its
first declaration; the second writes out the instructions, whose targets are all known by then. It keeps no
placeholders and no fixups, and an assembler's run ends with the same labels and the same code.
-/

namespace T21

namespace TwoPass

/-! ## The first pass -/

def total : List Step → Nat
  | [] => 0
  | t :: ts => t.size + total ts

/-- Every declaration, at the offset that the steps before it give. -/
def declarations : Nat → List Step → List Label
  | _, [] => []
  | offset, t :: ts =>
    (t.label?.map fun name => Label.mk name offset t.line).toList ++ declarations (offset + t.size) ts

def keepFirst : List Label → List Label
  | [] => []
  | l :: ls => l :: (keepFirst ls).filter (·.name ≠ l.name)

def labels (steps : List Step) : List Label :=
  keepFirst (declarations 0 steps)

def address? (steps : List Step) (name : String) : Option Nat :=
  ((labels steps).find? (·.name == name)).map (·.offset)

/-! ## The second pass -/

/-- The second byte of a jump: the address of its target, or zero if there is none that fits. -/
def targetByte (steps : List Step) (name : String) : UInt8 :=
  match address? steps name with
  | some k => if k ≤ 255 then UInt8.ofNat k else 0
  | none => 0

def instructionBytes (steps : List Step) (i : Instruction) : List UInt8 :=
  match i.target? with
  | some name => i.bytes.set 1 (targetByte steps name)
  | none => i.bytes

def code (steps : List Step) : List UInt8 :=
  (steps.filterMap Step.instruction?).flatMap (instructionBytes steps)

/-! ## First declarations -/

theorem total_append : ∀ xs ys : List Step, total (xs ++ ys) = total xs + total ys
  | [], ys => by simp [total]
  | t :: xs, ys => by
    rw [List.cons_append, total, total, total_append xs, Nat.add_assoc]

theorem declarations_append : ∀ (xs ys : List Step) (offset : Nat),
    declarations offset (xs ++ ys) = declarations offset xs ++ declarations (offset + total xs) ys
  | [], _, _ => by simp [declarations, total]
  | t :: xs, ys, offset => by
    rw [List.cons_append, declarations, declarations, declarations_append xs, List.append_assoc]
    simp [total, Nat.add_assoc]

theorem find?_filter_name {name other : String} (h : other ≠ name) (ls : List Label) :
    (ls.filter (·.name ≠ other)).find? (·.name == name) = ls.find? (·.name == name) := by
  rw [List.find?_filter]
  congr 1
  funext l
  by_cases hl : l.name = name
  · simp [hl, Ne.symm h]
  · simp [hl]

theorem find?_keepFirst (name : String) : ∀ ls : List Label,
    (keepFirst ls).find? (·.name == name) = ls.find? (·.name == name)
  | [] => rfl
  | l :: ls => by
    rw [keepFirst, List.find?_cons, List.find?_cons]
    by_cases hl : l.name = name
    · simp [hl]
    · rw [find?_filter_name hl, find?_keepFirst name ls]

theorem keepFirst_snoc (l : Label) : ∀ ls : List Label,
    keepFirst (ls ++ [l]) =
      match ls.find? (·.name == l.name) with
      | some _ => keepFirst ls
      | none => keepFirst ls ++ [l]
  | [] => rfl
  | m :: ls => by
    rw [List.cons_append, keepFirst, keepFirst_snoc l ls, List.find?_cons, keepFirst]
    by_cases hm : m.name = l.name
    · have hm' : (m.name == l.name) = true := by simpa using hm
      rw [hm']
      cases ls.find? (·.name == l.name) <;> simp [hm]
    · have hm' : (m.name == l.name) = false := by simpa using hm
      rw [hm']
      cases ls.find? (·.name == l.name) <;> simp [Ne.symm hm]

theorem keepFirst_eq_self {ls : List Label} (h : (ls.map Label.name).Nodup) : keepFirst ls = ls := by
  induction ls with
  | nil => rfl
  | cons l ls ih =>
    rw [List.map_cons, List.nodup_cons] at h
    rw [keepFirst, ih h.2, List.filter_eq_self.mpr]
    intro m hm
    have : m.name ≠ l.name := fun e => h.1 (e ▸ List.mem_map_of_mem hm)
    simpa using this

theorem address?_eq (steps : List Step) (name : String) :
    address? steps name = ((declarations 0 steps).find? (·.name == name)).map (·.offset) := by
  rw [address?, labels, find?_keepFirst]

theorem map_name_declarations : ∀ (steps : List Step) (offset : Nat),
    (declarations offset steps).map Label.name = steps.filterMap Step.label?
  | [], _ => rfl
  | t :: steps, offset => by
    rw [declarations, List.map_append, map_name_declarations steps, List.filterMap_cons]
    cases t.label? <;> simp

theorem address?_eq_none (steps : List Step) (name : String) :
    address? steps name = none ↔ name ∉ steps.filterMap Step.label? := by
  rw [address?_eq, Option.map_eq_none_iff, List.find?_eq_none, ← map_name_declarations steps 0, List.mem_map]
  constructor
  · intro h hmem
    obtain ⟨l, hl, hn⟩ := hmem
    exact h l hl (by simpa using hn)
  · intro h l hl hn
    exact h ⟨l, hl, by simpa using hn⟩

theorem address?_of_first {before after : List Step} {t : Step} {name : String} (ht : t.label? = some name)
    (hb : name ∉ before.filterMap Step.label?) : address? (before ++ t :: after) name = some (total before) := by
  have none_before : (declarations 0 before).find? (·.name == name) = none := by
    rw [← Option.map_eq_none_iff (f := Label.offset), ← address?_eq, address?_eq_none]
    exact hb
  rw [address?_eq, declarations_append, List.find?_append, none_before, declarations, ht]
  simp

end TwoPass

/-! ## The run does the first pass -/

namespace Assembler

open TwoPass

theorem size_run (source : String) (steps : List Step) : (run source steps).code.size = total steps := by
  induction steps using List.reverseRecOn with
  | nil => rfl
  | append_singleton steps t ih => rw [run_snoc, size_step, ih, total_append]; simp [total]

theorem labels_run (source : String) (steps : List Step) :
    (run source steps).labels.entries.toList = TwoPass.labels steps := by
  induction steps using List.reverseRecOn with
  | nil => rfl
  | append_singleton steps t ih =>
    have h := (consistent_run source steps).indexed
    rw [run_snoc, labels_step, size_run, TwoPass.labels, declarations_append, Nat.zero_add]
    simp only [declarations, List.append_nil]
    cases t.label? with
    | none => simpa [TwoPass.labels] using ih
    | some name =>
      simp only [Option.elim, Option.map_some, Option.toList_some, keepFirst_snoc, LabelTable.declare]
      rw [h.find?_eq, ih, TwoPass.labels, find?_keepFirst]
      cases (declarations 0 steps).find? (·.name == name) with
      | some _ => exact ih
      | none => rw [LabelTable.entries_insert, ih, TwoPass.labels]

theorem find?_run (source : String) (steps : List Step) (name : String) :
    ((run source steps).labels.find? name).map (·.offset) = address? steps name := by
  rw [(consistent_run source steps).indexed.find?_eq, labels_run, address?]

theorem listing_run (source : String) (steps : List Step) :
    ((run source steps).listing.toList.map fun e => (e.line, e.instruction)) =
      steps.filterMap fun t => t.instruction?.map (t.line, ·) := by
  induction steps using List.reverseRecOn with
  | nil => rfl
  | append_singleton steps t ih =>
    rw [run_snoc, listing_step, List.map_append, ih, List.filterMap_append]
    cases h : t.instruction? <;> simp [h]

theorem instructions_run (source : String) (steps : List Step) :
    (run source steps).listing.toList.map Entry.instruction = steps.filterMap Step.instruction? := by
  have h := congrArg (List.map Prod.snd) (listing_run source steps)
  rw [List.map_map, List.map_filterMap] at h
  apply h.trans
  apply List.filterMap_congr
  intro t _
  cases t.instruction? <;> rfl

/-! ## Resolving does the second -/

theorem byte?_run (source : String) (steps : List Step) (name : String) :
    ((run source steps).labels.byte? name).getD 0 = targetByte steps name := by
  rw [targetByte, ← find?_run source, LabelTable.byte?]
  cases (run source steps).labels.find? name with
  | none => rfl
  | some l =>
    by_cases hl : l.offset < romSize
    · have hl' : l.offset ≤ 255 := Nat.le_of_lt_succ hl
      simp [hl, hl']
    · have hl' : ¬ l.offset ≤ 255 := fun h => hl (Nat.lt_succ_of_le h)
      simp [hl, hl']

theorem linked_run (source : String) (steps : List Step) (i : Instruction) :
    i.linked (run source steps).labels = instructionBytes steps i := by
  unfold Instruction.linked instructionBytes
  cases i with
  | jump c name =>
    simp only [Instruction.target?, Option.bind_some, ← byte?_run source]
    cases (run source steps).labels.byte? name <;> rfl
  | _ => rfl

theorem code_run (source : String) (steps : List Step) :
    (run source steps).finish.assembly.code.toList = TwoPass.code steps := by
  rw [(consistent_run source steps).code_finish, TwoPass.code, ← instructions_run source, List.flatMap_map]
  simp only [linked_run]

theorem offset?_run (source : String) (steps : List Step) (name : String) :
    (run source steps).finish.assembly.offset? name = address? steps name := by
  rw [(consistent_run source steps).offset?_finish, find?_run]

theorem jump_byte_run (source : String) (steps : List Step) {e : Entry} {c : Condition} {name : String}
    (he : e ∈ (run source steps).listing.toList) (hi : e.instruction = .jump c name) :
    (run source steps).finish.assembly.code[e.offset + 1]? = some (targetByte steps name) := by
  have h := consistent_run source steps
  let linked := fun e : Entry => e.instruction.linked (run source steps).labels
  have hb : ∀ e, (linked e).length = e.instruction.size := fun e => e.instruction.length_linked _
  have hj : 1 < e.instruction.size := by simp [hi, Instruction.size]
  have := tiles_getElem? hb h.tiles he hj
  rw [← h.code_finish, Array.getElem?_toList] at this
  rw [this]
  simp only [linked, hi, linked_run, instructionBytes, Instruction.target?, Instruction.bytes]
  rfl

/-- Whatever part of the fixups has been resolved, only second bytes of jumps have changed. -/
theorem Consistent.changed_byte {s : Assembler} (h : s.Consistent) {done todo : List Fixup}
    (hf : s.fixups.toList = done ++ todo) {k : Nat}
    (hk : (done.foldl resolve s).code.toList[k]? ≠ s.code.toList[k]?) :
    ∃ e ∈ s.listing.toList, ∃ c name, e.instruction = .jump c name ∧ k = e.offset + 1 := by
  by_contra hno
  apply hk
  rw [code_foldl_resolve]
  apply getElem?_foldl_patch
  intro f hd ha
  apply hno
  obtain ⟨e, he, c, hi, hfa⟩ := h.mem_fixups (by rw [hf]; exact List.mem_append_left _ hd)
  exact ⟨e, he, c, f.target, hi, ha ▸ hfa⟩

/-- **Fixups are two passes.** A finished run has the labels and the code of the plain assembler. While fixups
are resolved the code keeps its length, and no byte changes but the second bytes of jumps. -/
theorem finish_eq_two_passes (source : String) (steps : List Step) :
    let s := run source steps
    let a := s.finish.assembly
    a.labels.toList = TwoPass.labels steps ∧ a.code.toList = TwoPass.code steps ∧
    (a.code.size = s.code.size ∧
      ∀ k : Nat, a.code[k]? ≠ s.code[k]? →
        ∃ e ∈ a.listing, ∃ c name, e.instruction = .jump c name ∧ k = e.offset + 1) ∧
    ∀ done todo, s.fixups.toList = done ++ todo →
      let r := done.foldl resolve s
      r.code.size = s.code.size ∧
      ∀ k : Nat, r.code[k]? ≠ s.code[k]? →
        ∃ e ∈ a.listing, ∃ c name, e.instruction = .jump c name ∧ k = e.offset + 1 := by
  intro s a
  have h : s.Consistent := consistent_run source steps
  have changed : ∀ done todo, s.fixups.toList = done ++ todo → ∀ k : Nat,
      (done.foldl resolve s).code[k]? ≠ s.code[k]? →
        ∃ e ∈ a.listing, ∃ c name, e.instruction = .jump c name ∧ k = e.offset + 1 := by
    intro done todo hf k hk
    rw [← Array.getElem?_toList, ← Array.getElem?_toList] at hk
    obtain ⟨e, he, hek⟩ := h.changed_byte hf hk
    exact ⟨e, by rwa [listing_finish, ← Array.mem_toList_iff], hek⟩
  refine ⟨?_, ?_, ⟨size_finish s, ?_⟩, ?_⟩
  · rw [labels_finish, labels_run]
  · exact code_run source steps
  · intro k hk
    apply changed s.fixups.toList [] (by simp) k
    rwa [Array.foldl_toList]
  · intro done todo hf r
    exact ⟨size_foldl_resolve done s, changed done todo hf⟩

end Assembler

end T21
