import Mathlib.Data.List.ReduceOption
import T21.Proofs.Consistent

/-!
# Labels between instructions

A way through a listing that meets, before each instruction, the labels at its offset. The labels of a program stand
in the order of their offsets and only where an instruction begins or the code ends, so the way meets all of them in
the order of their declaration.
-/

namespace T21

theorem reduceOption_map_some {α β : Type} (f : α → β) (xs : List α) :
    (xs.map (some ∘ f)).reduceOption = xs.map f := by
  rw [List.reduceOption, List.filterMap_map, ← List.filterMap_eq_map]
  rfl

section
variable {α β : Type} {label label' : Label → α} {instruction instruction' : Instruction → α}
  {ls : List Label} {es : List Entry} {lo hi : Nat}

/-- Before every entry come the labels at its offset, and in the end those at `hi`. -/
def interleave (label : Label → α) (instruction : Instruction → α) (ls : List Label) (hi : Nat) :
    List Entry → List α
  | [] => (ls.filter (·.offset = hi)).map label
  | e :: es => (ls.filter (·.offset = e.offset)).map label ++
      instruction e.instruction :: interleave label instruction ls hi es

theorem map_interleave (f : α → β) :
    (interleave label instruction ls hi es).map f = interleave (f ∘ label) (f ∘ instruction) ls hi es := by
  induction es with
  | nil => simp [interleave]
  | cons e es ih => simp [interleave, ih]

theorem interleave_congr (hl : ∀ l ∈ ls, label l = label' l)
    (hi : ∀ e ∈ es, instruction e.instruction = instruction' e.instruction) :
    interleave label instruction ls lo es = interleave label' instruction' ls lo es := by
  have group : ∀ k, (ls.filter (·.offset = k)).map label = (ls.filter (·.offset = k)).map label' := by
    intro k
    apply List.map_congr_left
    intro l hmem
    exact hl l (List.mem_of_mem_filter hmem)
  induction es with
  | nil => exact group lo
  | cons e es ih =>
    rw [interleave, interleave, group, hi e List.mem_cons_self, ih fun d hd => hi d (List.mem_cons_of_mem _ hd)]

theorem mem_interleave {x : α} (h : x ∈ interleave label instruction ls hi es) :
    (∃ l ∈ ls, x = label l) ∨ ∃ e ∈ es, x = instruction e.instruction := by
  have group : ∀ k, x ∈ (ls.filter (·.offset = k)).map label → ∃ l ∈ ls, x = label l := by
    intro k hx
    obtain ⟨l, hl, rfl⟩ := List.mem_map.mp hx
    exact ⟨l, List.mem_of_mem_filter hl, rfl⟩
  induction es with
  | nil => exact .inl (group hi h)
  | cons e es ih =>
    rcases List.mem_append.mp h with h | h
    · exact .inl (group _ h)
    · rcases List.mem_cons.mp h with rfl | h
      · exact .inr ⟨e, List.mem_cons_self, rfl⟩
      · rcases ih h with hl | ⟨d, hd, hx⟩
        · exact .inl hl
        · exact .inr ⟨d, List.mem_cons_of_mem _ hd, hx⟩

theorem instructions_interleave :
    (interleave (fun _ => none) some ls hi es).reduceOption = es.map Entry.instruction := by
  induction es with
  | nil => simp [interleave]
  | cons e es ih => simp [interleave, List.reduceOption_append, ih]

/-! ## Labels between the instructions -/

theorem filter_append_filter_of_ordered (ordered : ls.Pairwise (·.offset ≤ ·.offset))
    (h : ∀ l ∈ ls, lo ≤ l.offset) : ls.filter (·.offset = lo) ++ ls.filter (·.offset ≠ lo) = ls := by
  induction ls with
  | nil => rfl
  | cons l ls ih =>
    obtain ⟨hl, hls⟩ := List.pairwise_cons.mp ordered
    by_cases hlo : l.offset = lo
    · have := ih hls fun m hm => h m (List.mem_cons_of_mem _ hm)
      simpa [hlo] using this
    · have past : ∀ m ∈ l :: ls, m.offset ≠ lo := by
        intro m hm
        have := h l List.mem_cons_self
        rcases List.mem_cons.mp hm with rfl | hm
        · exact hlo
        · have := hl m hm
          omega
      rw [List.filter_eq_nil_iff.mpr (by simpa using past), List.filter_eq_self.mpr (by simpa using past),
        List.nil_append]

theorem interleave_filter (hhi : hi ≠ lo) (hes : ∀ e ∈ es, e.offset ≠ lo) :
    interleave label instruction (ls.filter (·.offset ≠ lo)) hi es = interleave label instruction ls hi es := by
  have group : ∀ k, k ≠ lo → (ls.filter (·.offset ≠ lo)).filter (·.offset = k) = ls.filter (·.offset = k) := by
    intro k hk
    rw [List.filter_filter]
    apply List.filter_congr
    intro l _
    by_cases hl : l.offset = k
    · simp [hl, hk]
    · simp [hl]
  induction es with
  | nil => rw [interleave, interleave, group hi hhi]
  | cons e es ih =>
    rw [interleave, interleave, group _ (hes e List.mem_cons_self), ih fun d hd => hes d (List.mem_cons_of_mem _ hd)]

/-- Labels that stand between the instructions of a listing are all met on the way through it, in their order. -/
theorem labels_interleave (f : Label → α) (tiles : Tiles lo es hi) (ordered : ls.Pairwise (·.offset ≤ ·.offset))
    (between : ∀ l ∈ ls, l.offset = hi ∨ ∃ e ∈ es, e.offset = l.offset) :
    (interleave (some ∘ f) (fun _ => none) ls hi es).reduceOption = ls.map f := by
  induction es generalizing lo ls with
  | nil =>
    have all : ls.filter (·.offset = hi) = ls := by
      rw [List.filter_eq_self]
      intro l hl
      rcases between l hl with h | ⟨e, he, -⟩
      · simpa using h
      · cases he
    rw [interleave, all, reduceOption_map_some]
  | cons e es ih =>
    obtain ⟨hlo, hs⟩ := tiles
    have bounds := tiles_bounds hs
    have hsize := e.instruction.size_pos
    have ge : ∀ l ∈ ls, lo ≤ l.offset := by
      intro l hl
      rcases between l hl with h | ⟨d, hd, h⟩
      · omega
      · rcases List.mem_cons.mp hd with rfl | hd
        · omega
        · have := bounds.2 d hd
          omega
    have later : ∀ d ∈ es, d.offset ≠ lo := by
      intro d hd
      have := bounds.2 d hd
      omega
    have rest : (interleave (some ∘ f) (fun _ => none) (ls.filter (·.offset ≠ lo)) hi es).reduceOption =
        (ls.filter (·.offset ≠ lo)).map f := by
      apply ih hs (ordered.filter _)
      intro l hl
      obtain ⟨hmem, hne⟩ := List.mem_filter.mp hl
      rcases between l hmem with h | ⟨d, hd, h⟩
      · exact .inl h
      · rcases List.mem_cons.mp hd with rfl | hd
        · simp [← h, hlo] at hne
        · exact .inr ⟨d, hd, h⟩
    have hhi : hi ≠ lo := by omega
    rw [interleave_filter hhi later] at rest
    rw [interleave, hlo, List.reduceOption_append, reduceOption_map_some, List.reduceOption_cons_of_none, rest,
      ← List.map_append, filter_append_filter_of_ordered ordered ge]

end

/-! ## Where labels stand -/

namespace Assembler

theorem labels_between (source : String) (steps : List Step) :
    ∀ l ∈ (run source steps).labels.entries.toList,
      l.offset = (run source steps).code.size ∨ ∃ e ∈ (run source steps).listing.toList, e.offset = l.offset := by
  refine run_induction (P := fun s => ∀ l ∈ s.labels.entries.toList,
    l.offset = s.code.size ∨ ∃ e ∈ s.listing.toList, e.offset = l.offset) source nofun ?_ steps
  intro s t ih l hl
  have before : l.offset = s.code.size ∨ ∃ e ∈ s.listing.toList, e.offset = l.offset := by
    rcases s.mem_labels_step t hl with hl | ⟨name, -, rfl⟩
    · exact ih l hl
    · exact .inl rfl
  rw [listing_step, size_step, Step.size]
  rcases before with hend | ⟨e, he, ho⟩
  · cases t.instruction? with
    | none => exact .inl hend
    | some i => exact .inr ⟨⟨t.line, s.code.size, i⟩, by simp, hend.symm⟩
  · exact .inr ⟨e, List.mem_append_left _ he, ho⟩

end Assembler

end T21
