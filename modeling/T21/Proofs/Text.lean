import Mathlib.Data.List.TakeWhile
import T21.Text

/-!
# Case, trimming and lines

Trimming takes blanks off both ends and does not see case. Blanks at the end of a text do not outlast it, so
neither do the line ends that one way of cutting a text into lines leaves in place and another drops.
-/

namespace T21.Text

/-! ## Upper case -/

theorem toNat_toUpper (c : Char) :
    c.toUpper.toNat = if 0x61 ≤ c.toNat ∧ c.toNat ≤ 0x7A then c.toNat - 0x20 else c.toNat := by
  have lower : ('a'.val ≤ c.val ∧ c.val ≤ 'z'.val) ↔ 0x61 ≤ c.toNat ∧ c.toNat ≤ 0x7A := Iff.rfl
  unfold Char.toUpper
  split
  · rename_i h
    have hc := lower.mp h
    have distance : ('A'.val - 'a'.val).toNat = 2 ^ 32 - 0x20 := by decide
    rw [if_pos hc, Char.toNat_mk, UInt32.toNat_add, distance, Char.toNat_val]
    omega
  · rename_i h
    rw [if_neg fun hc => h (lower.mpr hc)]

theorem toUpper_eq_iff {c d : Char} (h : d.toNat < 0x41) : c.toUpper = d ↔ c = d := by
  rw [← Char.toNat_inj, ← Char.toNat_inj, toNat_toUpper]
  split <;> omega

theorem isBlank_toUpper (c : Char) : isBlank c.toUpper = isBlank c := by
  have h := toNat_toUpper c
  simp only [isBlank, blankRanges, List.any_cons, List.any_nil, h]
  split
  · rw [Bool.eq_iff_iff]
    simp
    omega
  · rfl

theorem upper_eq_self {cs : List Char} (h : ∀ c ∈ cs, c.toUpper = c) : upper cs = cs := by
  rw [upper, List.map_congr_left (g := id) h, List.map_id]

theorem upper_take_drop (cs : List Char) (i n : Nat) :
    upper ((cs.drop i).take n) = ((upper cs).drop i).take n := by
  simp only [upper, List.map_take, List.map_drop]

/-! ## Trimming -/

theorem exists_trim (cs : List Char) :
    ∃ l r, cs = l ++ trim cs ++ r ∧ (∀ c ∈ l, isBlank c) ∧ ∀ c ∈ r, isBlank c := by
  let kept := cs.dropWhile isBlank
  refine ⟨cs.takeWhile isBlank, (kept.reverse.takeWhile isBlank).reverse, ?_, ?_, ?_⟩
  · rw [trim, List.append_assoc, ← List.reverse_append, List.takeWhile_append_dropWhile, List.reverse_reverse,
      List.takeWhile_append_dropWhile]
  · intro c hc
    exact List.mem_takeWhile_imp hc
  · intro c hc
    exact List.mem_takeWhile_imp (List.mem_reverse.mp hc)

theorem trim_append_blank (cs : List Char) {blanks : List Char} (h : ∀ c ∈ blanks, isBlank c) :
    trim (cs ++ blanks) = trim cs := by
  unfold trim
  rw [List.dropWhile_append]
  split
  · rename_i he
    rw [List.isEmpty_iff.mp he, List.dropWhile_eq_nil_iff.mpr h]
  · rw [List.reverse_append, List.dropWhile_append_of_pos]
    intro c hc
    exact h c (List.mem_reverse.mp hc)

theorem trim_concat_blank (cs : List Char) {c : Char} (h : isBlank c) : trim (cs ++ [c]) = trim cs := by
  apply trim_append_blank
  intro d hd
  rw [List.mem_singleton.mp hd, h]

theorem trim_eq_self {cs : List Char} (h : ∀ c ∈ cs, isBlank c = false) : trim cs = cs := by
  have keep : ∀ ds : List Char, (∀ c ∈ ds, isBlank c = false) → ds.dropWhile isBlank = ds := by
    intro ds hd
    cases ds with
    | nil => rfl
    | cons d ds => simp [hd d List.mem_cons_self]
  rw [trim, keep cs h, keep cs.reverse fun c hc => h c (List.mem_reverse.mp hc), List.reverse_reverse]

theorem trim_dropReturn (cs : List Char) : trim (dropReturn cs) = trim cs := by
  unfold dropReturn
  split
  · rename_i h
    obtain ⟨front, rfl⟩ := List.getLast?_eq_some_iff.mp h
    rw [List.dropLast_concat, trim_concat_blank _ (by decide)]
  · rfl

theorem trim_dropLineEnds (cs : List Char) : trim (dropLineEnds cs) = trim cs := by
  let isEnd := fun c : Char => c == '\n' || c == '\r'
  have ends : ∀ c ∈ (cs.reverse.takeWhile isEnd).reverse, isBlank c := by
    intro c hc
    have hend : c = '\n' ∨ c = '\r' := by
      simpa [isEnd] using List.mem_takeWhile_imp (List.mem_reverse.mp hc)
    rcases hend with rfl | rfl <;> decide
  rw [← trim_append_blank (dropLineEnds cs) ends, dropLineEnds, ← List.reverse_append,
    List.takeWhile_append_dropWhile, List.reverse_reverse]

/-! ## Lines written one after the other -/

theorem splitOnP_ended : ∀ {ls : List (List Char)}, (∀ l ∈ ls, '\n' ∉ l) →
    (ls.flatMap (· ++ ['\n'])).splitOnP (· == '\n') = ls ++ [[]]
  | [], _ => rfl
  | l :: ls, h => by
    have other : ∀ c ∈ l, (c == '\n') = false := by
      intro c hc
      rw [beq_eq_false_iff_ne]
      exact fun e => h l List.mem_cons_self (e ▸ hc)
    rw [List.flatMap_cons, List.append_assoc, List.singleton_append,
      List.splitOnP_append_cons_of_forall_mem other _ (by rfl),
      splitOnP_ended fun m hm => h m (List.mem_cons_of_mem _ hm), List.cons_append]

theorem toList_join_ended : ∀ ls : List String,
    (String.join (ls.map (· ++ "\n"))).toList = (ls.map String.toList).flatMap (· ++ ['\n'])
  | [] => by simp
  | l :: ls => by
    rw [List.map_cons, List.map_cons, String.join_cons, String.toList_append, toList_join_ended ls,
      List.flatMap_cons, String.toList_append]
    rfl

/-- Lines that hold no line end are got back from the text that has each of them followed by a line feed. -/
theorem lines_join_ended {ls : List String} (feed : ∀ l ∈ ls, '\n' ∉ l.toList) (ret : ∀ l ∈ ls, '\r' ∉ l.toList) :
    lines (String.join (ls.map (· ++ "\n"))) = ls := by
  have split : ((ls.map String.toList).flatMap (· ++ ['\n'])).splitOnP (· == '\n') = ls.map String.toList ++ [[]] := by
    apply splitOnP_ended
    intro l hl
    obtain ⟨s, hs, rfl⟩ := List.mem_map.mp hl
    exact feed s hs
  have kept : ∀ l ∈ ls, dropReturn l.toList = l.toList := by
    intro l hl
    rw [dropReturn, if_neg]
    intro h
    exact ret l hl (List.mem_of_getLast? h)
  simp only [lines, terminated, remainder, toList_join_ended, split, List.dropLast_concat, List.getLastD_concat,
    List.isEmpty_nil, if_true, List.append_nil, List.map_map]
  rw [List.map_congr_left (g := id), List.map_id]
  intro l hl
  simp [kept l hl]

end T21.Text
