import T21.Proofs.Step

/-!
# Resolving fixups

Resolving touches the code at the address of the fixup, and otherwise only reports. The labels stay as they
are, so all fixups of a run are resolved against one table.
-/

namespace T21

def LabelTable.byte? (t : LabelTable) (name : String) : Option UInt8 :=
  (t.find? name).bind fun l => if l.offset < romSize then some (UInt8.ofNat l.offset) else none

def LabelTable.missing? (t : LabelTable) (name : String) : Option Fault :=
  match t.find? name with
  | none => some (.undefinedLabel name)
  | some l => if l.offset < romSize then none else some (.labelOutOfRange name l.offset)

def Fixup.patch (t : LabelTable) (code : List UInt8) (f : Fixup) : List UInt8 :=
  (t.byte? f.target).elim code (code.set f.address)

theorem Fixup.length_patch (t : LabelTable) (code : List UInt8) (f : Fixup) :
    (f.patch t code).length = code.length := by
  unfold Fixup.patch
  cases t.byte? f.target <;> simp

namespace Assembler

/-! ## One fixup -/

section
variable (s : Assembler) (f : Fixup)

theorem keep_resolve {α : Type} {field : Assembler → α} (h : ∀ s line f, field (report s line f) = field s)
    (h' : ∀ s code log, field { s with code, log } = field s) : field (s.resolve f) = field s := by
  unfold resolve
  split
  · exact h _ _ _
  · split
    · exact h' _ _ _
    · exact h _ _ _

@[simp] theorem source_resolve : (s.resolve f).source = s.source :=
  keep_resolve s f source_report fun _ _ _ => rfl

@[simp] theorem labels_resolve : (s.resolve f).labels = s.labels :=
  keep_resolve s f labels_report fun _ _ _ => rfl

@[simp] theorem listing_resolve : (s.resolve f).listing = s.listing :=
  keep_resolve s f listing_report fun _ _ _ => rfl

theorem code_resolve : (s.resolve f).code.toList = f.patch s.labels s.code.toList := by
  unfold resolve Fixup.patch LabelTable.byte?
  cases s.labels.find? f.target with
  | none => rfl
  | some l => by_cases hl : l.offset < romSize <;> simp [hl]

theorem diagnostics_resolve : (s.resolve f).diagnostics.toList =
    s.diagnostics.toList ++ ((s.labels.missing? f.target).map (Diagnostic.mk s.source f.line)).toList := by
  unfold resolve LabelTable.missing?
  cases s.labels.find? f.target with
  | none => simp
  | some l => by_cases hl : l.offset < romSize <;> simp [hl]

end

/-! ## All fixups -/

theorem keep_foldl_resolve {α : Type} {field : Assembler → α} (h : ∀ s f, field (s.resolve f) = field s) :
    ∀ (fs : List Fixup) (s : Assembler), field (fs.foldl resolve s) = field s
  | [], _ => rfl
  | f :: fs, s => by rw [List.foldl_cons, keep_foldl_resolve h fs, h]

theorem labels_foldl_resolve (fs : List Fixup) (s : Assembler) : (fs.foldl resolve s).labels = s.labels :=
  keep_foldl_resolve labels_resolve fs s

theorem listing_foldl_resolve (fs : List Fixup) (s : Assembler) : (fs.foldl resolve s).listing = s.listing :=
  keep_foldl_resolve listing_resolve fs s

theorem size_resolve (s : Assembler) (f : Fixup) : (s.resolve f).code.size = s.code.size := by
  rw [← Array.length_toList, code_resolve, Fixup.length_patch, Array.length_toList]

theorem size_foldl_resolve (fs : List Fixup) (s : Assembler) : (fs.foldl resolve s).code.size = s.code.size := by
  let size : Assembler → Nat := fun s => s.code.size
  have h : ∀ s f, size (resolve s f) = size s := size_resolve
  exact keep_foldl_resolve h fs s

theorem code_foldl_resolve : ∀ (fs : List Fixup) (s : Assembler),
    (fs.foldl resolve s).code.toList = fs.foldl (Fixup.patch s.labels) s.code.toList
  | [], _ => rfl
  | f :: fs, s => by rw [List.foldl_cons, code_foldl_resolve fs, labels_resolve, code_resolve, List.foldl_cons]

theorem diagnostics_foldl_resolve : ∀ (fs : List Fixup) (s : Assembler),
    (fs.foldl resolve s).diagnostics.toList = s.diagnostics.toList ++
      fs.filterMap fun f => (s.labels.missing? f.target).map (Diagnostic.mk s.source f.line)
  | [], _ => by simp
  | f :: fs, s => by
    rw [List.foldl_cons, diagnostics_foldl_resolve fs, diagnostics_resolve, labels_resolve, source_resolve,
      List.append_assoc, List.filterMap_cons]
    cases s.labels.missing? f.target <;> simp

theorem getElem?_foldl_patch (t : LabelTable) {k : Nat} : ∀ (fs : List Fixup) (code : List UInt8),
    (∀ f ∈ fs, f.address ≠ k) → (fs.foldl (Fixup.patch t) code)[k]? = code[k]?
  | [], _, _ => rfl
  | f :: fs, code, hk => by
    rw [List.foldl_cons, getElem?_foldl_patch t fs _ fun g hg => hk g (List.mem_cons_of_mem _ hg)]
    unfold Fixup.patch
    cases t.byte? f.target with
    | none => rfl
    | some b => exact List.getElem?_set_ne (hk f List.mem_cons_self)

/-! ## The finished assembly -/

section
variable (s : Assembler)

theorem labels_finish : s.finish.assembly.labels = s.labels.entries := by
  simp only [finish, assembly, ← Array.foldl_toList, labels_foldl_resolve]

theorem listing_finish : s.finish.assembly.listing = s.listing := by
  simp only [finish, assembly, ← Array.foldl_toList, listing_foldl_resolve]

theorem code_finish :
    s.finish.assembly.code.toList = s.fixups.toList.foldl (Fixup.patch s.labels) s.code.toList := by
  simp only [finish, assembly, ← Array.foldl_toList, code_foldl_resolve]

theorem size_finish : s.finish.assembly.code.size = s.code.size := by
  simp only [finish, assembly, ← Array.foldl_toList, size_foldl_resolve]

theorem diagnostics_finish : s.finish.assembly.diagnostics.toList = s.diagnostics.toList ++
    s.fixups.toList.filterMap fun f => (s.labels.missing? f.target).map (Diagnostic.mk s.source f.line) := by
  simp only [finish, assembly, ← Array.foldl_toList, diagnostics_foldl_resolve]

end

end Assembler

end T21
