import T21.Assembler

/-!
# Label tables agree with their index

An index that maps a name to the one place where an entry has it makes `find?` a search for the first entry
of that name, and keeps the names distinct.
-/

namespace T21

namespace LabelTable

/-- The index has a name at a place exactly when the entry there has that name. -/
def Indexed (t : LabelTable) : Prop :=
  ∀ (name : String) (i : Nat),
    t.index[name]? = some i ↔ ∃ l : Label, t.entries[i]? = some l ∧ l.name = name

def declare (t : LabelTable) (l : Label) : LabelTable :=
  match t.find? l.name with
  | some _ => t
  | none => t.insert l

theorem indexed_empty : Indexed {} := by
  intro name i
  simp

theorem Indexed.lt_size {t : LabelTable} (h : t.Indexed) {name : String} {i : Nat}
    (hi : t.index[name]? = some i) : i < t.entries.size := by
  obtain ⟨l, hl, -⟩ := (h name i).mp hi
  exact (Array.getElem?_eq_some_iff.mp hl).1

theorem Indexed.place_inj {t : LabelTable} (h : t.Indexed) {i j : Nat} {l m : Label}
    (hl : t.entries[i]? = some l) (hm : t.entries[j]? = some m) (hn : l.name = m.name) : i = j := by
  have hi := (h m.name i).mpr ⟨l, hl, hn⟩
  have hj := (h m.name j).mpr ⟨m, hm, rfl⟩
  rw [hi] at hj
  exact Option.some.inj hj

theorem Indexed.nodup_names {t : LabelTable} (h : t.Indexed) :
    (t.entries.toList.map Label.name).Nodup := by
  rw [List.nodup_iff_pairwise_ne, List.pairwise_map, List.pairwise_iff_getElem]
  intro i j hi hj hij hn
  have := h.place_inj (i := i) (j := j) (Array.getElem?_eq_getElem hi) (Array.getElem?_eq_getElem hj) hn
  omega

/-- Looking a name up through the index finds the first entry of that name. -/
theorem Indexed.find?_eq {t : LabelTable} (h : t.Indexed) (name : String) :
    t.find? name = t.entries.toList.find? (·.name == name) := by
  unfold find?
  cases hi : t.index[name]? with
  | some i =>
    obtain ⟨l, hl, hn⟩ := (h name i).mp hi
    rw [Option.bind_some, hl]
    obtain ⟨m, hm⟩ : ∃ m, t.entries.toList.find? (·.name == name) = some m := by
      rw [← Option.isSome_iff_exists, List.find?_isSome]
      exact ⟨l, Array.mem_toList_iff.mpr (Array.mem_of_getElem? hl), by simp [hn]⟩
    obtain ⟨j, hj⟩ := List.getElem?_of_mem (List.mem_of_find?_eq_some hm)
    have hmn : m.name = name := by simpa using List.find?_some hm
    rw [Array.getElem?_toList] at hj
    have hij := h.place_inj hl hj (hn.trans hmn.symm)
    rw [hm, ← hl, hij, hj]
  | none =>
    symm
    rw [Option.bind_none, List.find?_eq_none]
    intro l hl
    obtain ⟨j, hj⟩ := List.getElem?_of_mem hl
    intro hn
    have := (h name j).mpr ⟨l, by simpa using hj, by simpa using hn⟩
    rw [hi] at this
    cases this

theorem Indexed.insert {t : LabelTable} (h : t.Indexed) {l : Label} (hl : t.find? l.name = none) :
    (t.insert l).Indexed := by
  have fresh : t.index[l.name]? = none := by
    cases hi : t.index[l.name]? with
    | none => rfl
    | some i =>
      obtain ⟨m, hm, -⟩ := (h l.name i).mp hi
      simp [find?, hi, hm] at hl
  intro name i
  simp only [LabelTable.insert, Std.TreeMap.getElem?_insert, Array.getElem?_push,
    Std.LawfulEqOrd.compare_eq_iff_eq]
  by_cases hi : i = t.entries.size
  · subst hi
    by_cases hn : l.name = name
    · simp [hn]
    · have : t.index[name]? ≠ some t.entries.size := fun e => Nat.lt_irrefl _ (h.lt_size e)
      simp [hn, this]
  · by_cases hn : l.name = name
    · subst hn
      have : ¬ ∃ m, t.entries[i]? = some m ∧ m.name = l.name := by
        rw [← h, fresh]; simp
      simp only [ite_true, Option.some.injEq, Ne.symm hi, false_iff]
      simpa [hi] using this
    · simp only [hn, ite_false, hi]
      exact h name i

theorem Indexed.declare {t : LabelTable} (h : t.Indexed) (l : Label) : (t.declare l).Indexed := by
  unfold LabelTable.declare
  split
  · exact h
  · exact h.insert ‹_›

theorem entries_insert (t : LabelTable) (l : Label) :
    (t.insert l).entries.toList = t.entries.toList ++ [l] := by
  simp [insert]

end LabelTable

end T21
