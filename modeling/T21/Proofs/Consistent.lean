import Mathlib.Data.List.Basic
import T21.Proofs.Resolve

/-!
# The fields of an assembler agree

Labels, index, fixups, code and listing are kept by different operations. `Consistent` says how they fit
together: the listing tiles the code, the labels stand at increasing places of it, and the fixups are the
jumps of the listing.
-/

namespace T21

/-- The instructions stand one after the other, the first at `lo` and the last ending at `hi`. -/
def Tiles : Nat → List Entry → Nat → Prop
  | lo, [], hi => lo = hi
  | lo, e :: es, hi => e.offset = lo ∧ Tiles (lo + e.instruction.size) es hi

def Entry.fixup? (e : Entry) : Option Fixup :=
  e.instruction.target?.map (Fixup.mk (e.offset + 1) e.line)

theorem Entry.fixup?_eq_some {e : Entry} {f : Fixup} (h : e.fixup? = some f) :
    ∃ c, e.instruction = .jump c f.target ∧ f.address = e.offset + 1 ∧ f.line = e.line := by
  unfold Entry.fixup? at h
  cases hi : e.instruction with
  | jump c t =>
    simp only [hi, Instruction.target?, Option.map_some, Option.some.injEq] at h
    subst h
    exact ⟨c, rfl, rfl, rfl⟩
  | _ => simp [hi, Instruction.target?] at h

/-! ## Tilings -/

theorem tiles_snoc : ∀ {lo hi : Nat} {es : List Entry} {e : Entry}, Tiles lo es hi → e.offset = hi →
    Tiles lo (es ++ [e]) (hi + e.instruction.size)
  | lo, hi, [], e, h, he => by
    have hlo : lo = hi := h
    subst hlo
    exact ⟨he, rfl⟩
  | _, _, _ :: _, _, ⟨h, hs⟩, he => ⟨h, tiles_snoc hs he⟩

theorem tiles_bounds : ∀ {lo hi : Nat} {es : List Entry}, Tiles lo es hi →
    lo ≤ hi ∧ ∀ e ∈ es, lo ≤ e.offset ∧ e.offset + e.instruction.size ≤ hi
  | lo, hi, [], h => ⟨Nat.le_of_eq h, fun _ h => by cases h⟩
  | lo, hi, e :: es, ⟨he, hs⟩ => by
    obtain ⟨hlo, hes⟩ := tiles_bounds hs
    constructor
    · omega
    · intro x hx
      rcases List.mem_cons.mp hx with rfl | hx
      · omega
      · have := hes x hx
        omega

theorem tiles_pairwise : ∀ {lo hi : Nat} {es : List Entry}, Tiles lo es hi →
    es.Pairwise fun a b => a.offset + a.instruction.size ≤ b.offset
  | _, _, [], _ => .nil
  | lo, hi, e :: es, ⟨he, hs⟩ => by
    refine .cons (fun x hx => ?_) (tiles_pairwise hs)
    have := ((tiles_bounds hs).2 x hx).1
    omega

/-- Where every entry contributes as many bytes as its instruction has, its bytes stand at its offset. -/
theorem tiles_slice {b : Entry → List UInt8} (hb : ∀ e, (b e).length = e.instruction.size) :
    ∀ (es : List Entry) (before : List UInt8) {n : Nat}, Tiles before.length es n → ∀ e ∈ es,
      ((before ++ es.flatMap b).drop e.offset).take e.instruction.size = b e
  | [], _, _, _, e, he => by cases he
  | x :: es, before, n, ⟨hx, hs⟩, e, he => by
    rw [List.flatMap_cons]
    rcases List.mem_cons.mp he with rfl | he
    · rw [hx, List.drop_left, ← hb e, List.take_left]
    · rw [← List.append_assoc]
      apply tiles_slice hb es _ (n := n) _ e he
      rwa [List.length_append, hb]

theorem tiles_getElem? {b : Entry → List UInt8} (hb : ∀ e, (b e).length = e.instruction.size)
    {es : List Entry} {n : Nat} (h : Tiles 0 es n) {e : Entry} (he : e ∈ es) {j : Nat}
    (hj : j < e.instruction.size) : (es.flatMap b)[e.offset + j]? = (b e)[j]? := by
  have := tiles_slice hb es [] h e he
  rw [← this, List.getElem?_take_of_lt hj, List.getElem?_drop, List.nil_append]

theorem tiles_cover : ∀ {lo hi : Nat} {es : List Entry}, Tiles lo es hi → ∀ {k : Nat}, lo ≤ k → k < hi →
    ∃ e ∈ es, ∃ j < e.instruction.size, k = e.offset + j
  | lo, hi, [], h, k, hlo, hhi => by
    have hnil : lo = hi := h
    omega
  | lo, hi, e :: es, ⟨he, hs⟩, k, hlo, hhi => by
    by_cases hk : k < lo + e.instruction.size
    · exact ⟨e, List.mem_cons_self, k - lo, by omega, by omega⟩
    · obtain ⟨x, hx, hj⟩ := tiles_cover hs (Nat.le_of_not_lt hk) hhi
      exact ⟨x, List.mem_cons_of_mem _ hx, hj⟩

/-! ## Linking -/

/-- The bytes of an instruction with its target filled in from the table, as far as the table has it. -/
def Instruction.linked (t : LabelTable) (i : Instruction) : List UInt8 :=
  (i.target?.bind t.byte?).elim i.bytes (i.bytes.set 1)

theorem Instruction.length_linked (t : LabelTable) (i : Instruction) : (i.linked t).length = i.size := by
  unfold Instruction.linked
  cases i.target?.bind t.byte? <;> simp [Instruction.length_bytes]

theorem Instruction.linked_jump (t : LabelTable) (c : Condition) (name : String) :
    (Instruction.jump c name).linked t = [nibbles c.code 0xC, (t.byte? name).getD 0] := by
  simp only [Instruction.linked, Instruction.target?, Option.bind_some]
  cases t.byte? name <;> rfl

theorem linked_of_fixup?_none {e : Entry} (t : LabelTable) (h : e.fixup? = none) :
    e.instruction.linked t = e.instruction.bytes := by
  rw [Entry.fixup?, Option.map_eq_none_iff] at h
  simp [Instruction.linked, h]

theorem patch_append {e : Entry} {f : Fixup} (t : LabelTable) (h : e.fixup? = some f)
    (before after : List UInt8) (he : e.offset = before.length) :
    f.patch t (before ++ (e.instruction.bytes ++ after)) = before ++ (e.instruction.linked t ++ after) := by
  obtain ⟨c, hi, ha, -⟩ := Entry.fixup?_eq_some h
  simp only [Fixup.patch, hi, Instruction.linked, Instruction.target?, Option.bind_some, ha, he, Instruction.bytes]
  cases t.byte? f.target with
  | none => rfl
  | some b => simp

/-- Patching the jumps of a tiling one after the other links every instruction. -/
theorem foldl_patch_tiles (t : LabelTable) : ∀ (es : List Entry) (before : List UInt8) {n : Nat},
    Tiles before.length es n →
      (es.filterMap Entry.fixup?).foldl (Fixup.patch t) (before ++ es.flatMap (·.instruction.bytes)) =
        before ++ es.flatMap (·.instruction.linked t)
  | [], _, _, _ => rfl
  | e :: es, before, n, ⟨he, hs⟩ => by
    have ih := foldl_patch_tiles t es (before ++ e.instruction.linked t) (n := n)
      (by rwa [List.length_append, Instruction.length_linked])
    simp only [List.append_assoc] at ih
    rw [List.flatMap_cons, List.flatMap_cons, List.filterMap_cons]
    cases hf : e.fixup? with
    | none => simp only; rw [← linked_of_fixup?_none t hf, ih]
    | some f => rw [List.foldl_cons, patch_append t hf before _ he, ih]

/-! ## The invariant -/

namespace Assembler

structure Consistent (s : Assembler) : Prop where
  tiles : Tiles 0 s.listing.toList s.code.size
  code : s.code.toList = s.listing.toList.flatMap (·.instruction.bytes)
  fixups : s.fixups.toList = s.listing.toList.filterMap Entry.fixup?
  indexed : s.labels.Indexed
  ordered : s.labels.entries.toList.Pairwise (·.offset ≤ ·.offset)
  within : ∀ l ∈ s.labels.entries.toList, l.offset ≤ s.code.size

theorem consistent_start (source : String) : (start source).Consistent where
  tiles := rfl
  code := rfl
  fixups := rfl
  indexed := LabelTable.indexed_empty
  ordered := .nil
  within := fun _ h => by cases h

namespace Consistent
variable {s : Assembler} (h : s.Consistent)
include h

theorem tiles_step (t : Step) : Tiles 0 (s.step t).listing.toList (s.step t).code.size := by
  rw [listing_step, size_step, Step.size]
  cases t.instruction? with
  | none => simpa using h.tiles
  | some i => exact tiles_snoc h.tiles rfl

theorem fixups_step (t : Step) :
    (s.step t).fixups.toList = (s.step t).listing.toList.filterMap Entry.fixup? := by
  rw [Assembler.fixups_step, listing_step, List.filterMap_append, h.fixups]
  cases t.instruction? with
  | none => simp
  | some i => cases i <;> simp [Entry.fixup?, Instruction.target?, Instruction.size]

theorem labels_declare (l : Label) (hl : l.offset = s.code.size) :
    (s.labels.declare l).entries.toList.Pairwise (·.offset ≤ ·.offset) ∧
      ∀ m ∈ (s.labels.declare l).entries.toList, m.offset ≤ s.code.size := by
  unfold LabelTable.declare
  cases s.labels.find? l.name with
  | some _ => exact ⟨h.ordered, h.within⟩
  | none =>
    simp only [LabelTable.entries_insert, List.pairwise_append, List.mem_append, List.mem_singleton]
    refine ⟨⟨h.ordered, List.pairwise_singleton .., ?_⟩, ?_⟩
    · intro a ha b hb
      rw [hb, hl]
      exact h.within a ha
    · intro m hm
      rcases hm with hm | rfl
      · exact h.within m hm
      · exact Nat.le_of_eq hl

theorem step (t : Step) : (s.step t).Consistent := by
  refine ⟨h.tiles_step t, ?_, h.fixups_step t, ?_, ?_, ?_⟩
  · rw [code_step, listing_step, List.flatMap_append, ← h.code, Step.bytes]
    cases t.instruction? <;> simp
  · rw [labels_step]
    cases t.label? with
    | none => exact h.indexed
    | some name => exact h.indexed.declare _
  · rw [labels_step]
    cases t.label? with
    | none => exact h.ordered
    | some name => exact (h.labels_declare _ rfl).1
  · rw [labels_step, size_step]
    intro l hl
    apply Nat.le_add_right_of_le
    cases ht : t.label? with
    | none => rw [ht] at hl; exact h.within l hl
    | some name => rw [ht] at hl; exact (h.labels_declare _ rfl).2 l hl

/-! ## What follows from it -/

theorem mem_fixups {f : Fixup} (hf : f ∈ s.fixups.toList) :
    ∃ e ∈ s.listing.toList, ∃ c, e.instruction = .jump c f.target ∧ f.address = e.offset + 1 := by
  rw [h.fixups, List.mem_filterMap] at hf
  obtain ⟨e, he, hef⟩ := hf
  obtain ⟨c, hi, ha, -⟩ := Entry.fixup?_eq_some hef
  exact ⟨e, he, c, hi, ha⟩

theorem placeholder {f : Fixup} (hf : f ∈ s.fixups.toList) : s.code[f.address]? = some 0 := by
  obtain ⟨e, he, c, hi, ha⟩ := h.mem_fixups hf
  have := tiles_getElem? (b := fun e => e.instruction.bytes) (fun e => e.instruction.length_bytes) h.tiles he
    (j := 1) (by simp [hi, Instruction.size])
  rw [← h.code, Array.getElem?_toList, ← ha] at this
  rw [this]; simp [hi, Instruction.bytes]

theorem address_lt {f : Fixup} (hf : f ∈ s.fixups.toList) : f.address < s.code.size :=
  (Array.getElem?_eq_some_iff.mp (h.placeholder hf)).1

theorem addresses_increase : s.fixups.toList.Pairwise (·.address < ·.address) := by
  rw [h.fixups, List.pairwise_filterMap]
  apply (tiles_pairwise h.tiles).imp
  intro a b hab f hf g hg
  obtain ⟨c, hi, ha, -⟩ := Entry.fixup?_eq_some hf
  obtain ⟨-, -, hb, -⟩ := Entry.fixup?_eq_some hg
  simp only [hi, Instruction.size] at hab
  omega

theorem code_finish :
    s.finish.assembly.code.toList = s.listing.toList.flatMap (·.instruction.linked s.labels) := by
  rw [Assembler.code_finish, h.code, h.fixups]
  exact foldl_patch_tiles s.labels _ [] h.tiles

theorem bytesOf_finish {e : Entry} (he : e ∈ s.listing.toList) :
    (s.finish.assembly.bytesOf e).toList = e.instruction.linked s.labels := by
  rw [Assembly.bytesOf, Array.toList_extract, h.code_finish, List.extract_eq_take_drop, Nat.add_sub_cancel_left]
  exact tiles_slice (fun e => e.instruction.length_linked s.labels) _ [] h.tiles e he

theorem offset?_finish (name : String) :
    s.finish.assembly.offset? name = (s.labels.find? name).map (·.offset) := by
  rw [Assembly.offset?, labels_finish, h.indexed.find?_eq, Array.find?_toList]

end Consistent

theorem consistent_run (source : String) (steps : List Step) : (run source steps).Consistent :=
  run_induction source (consistent_start source) (fun _ t h => h.step t) steps

/-- **After every run** the listing tiles the code, the index agrees with the labels and the fixups are the jumps
of the listing. So no look-up of a label, of the last byte of a jump just placed or of a fixup's address misses,
and the finished assembly shows the labels of the index and, entry by entry, the whole code. -/
theorem run_keeps_representation (source : String) (steps : List Step) :
    let s := run source steps
    let a := s.finish.assembly
    (Tiles 0 s.listing.toList s.code.size ∧
      s.code.toList = s.listing.toList.flatMap fun e => e.instruction.bytes) ∧
    ((s.labels.entries.toList.map Label.name).Nodup ∧
      (∀ (name : String) (i : Nat),
        s.labels.index[name]? = some i ↔ ∃ l : Label, s.labels.entries[i]? = some l ∧ l.name = name) ∧
      s.labels.entries.toList.Pairwise (fun l m => l.offset ≤ m.offset) ∧
      ∀ l ∈ s.labels.entries, l.offset ≤ s.code.size) ∧
    (s.fixups.toList = s.listing.toList.filterMap Entry.fixup? ∧
      s.fixups.toList.Pairwise (fun f g => f.address < g.address) ∧
      ∀ f ∈ s.fixups, s.code[f.address]? = some 0) ∧
    ((∀ (name : String) (i : Nat), s.labels.index[name]? = some i → i < s.labels.entries.size) ∧
      (∀ line i target, i.target? = some target → 0 < (s.place line i).code.size ∧
        Fixup.mk ((s.place line i).code.size - 1) line target ∈ (s.place line i).fixups) ∧
      ∀ done f todo, s.fixups.toList = done ++ f :: todo →
        let r := done.foldl resolve s
        f.address < r.code.size ∧ ∀ i : Nat, r.labels.index[f.target]? = some i → i < r.labels.entries.size) ∧
    (∀ name, a.offset? name = (s.labels.find? name).map Label.offset) ∧
    a.listing.toList.flatMap (fun e => (a.bytesOf e).toList) = a.code.toList := by
  intro s a
  have h : s.Consistent := consistent_run source steps
  refine ⟨⟨h.tiles, h.code⟩, ⟨h.indexed.nodup_names, h.indexed, h.ordered, ?_⟩,
    ⟨h.fixups, h.addresses_increase, ?_⟩, ⟨?_, ?_, ?_⟩, h.offset?_finish, ?_⟩
  · intro l hl
    exact h.within l (Array.mem_toList_iff.mpr hl)
  · intro f hf
    exact h.placeholder (Array.mem_toList_iff.mpr hf)
  · intro name i hi
    exact h.indexed.lt_size hi
  · intro line i target hi
    rw [size_place]
    constructor
    · have := i.size_pos
      omega
    · rw [← Array.mem_toList_iff, fixups_place, hi]
      simp
  · intro done f todo hf r
    have hmem : f ∈ s.fixups.toList := by rw [hf]; simp
    constructor
    · rw [size_foldl_resolve]
      exact h.address_lt hmem
    · intro i hi
      rw [labels_foldl_resolve] at hi ⊢
      exact h.indexed.lt_size hi
  · rw [h.code_finish, listing_finish]
    apply List.flatMap_congr
    intro e he
    exact h.bytesOf_finish he

end Assembler

end T21
