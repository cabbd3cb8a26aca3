import T21.Event
import T21.Proofs.Scan

/-!
# Surplus parts

A part of a line is unread if anything else could stand in its place, or nothing, and the line would be encoded
alike. These are the parts that encoding warns of. Without them the line is encoded to the same instruction with no
warning, and then nothing more can be left out.
-/

namespace T21.Line

def without (l : Line) (ps : List Place) : Line :=
  { l with
    first := if .first ∈ ps then none else l.first
    second := if .second ∈ ps then none else l.second
    target := if .target ∈ ps then none else l.target }

/-- The line is encoded alike whatever is written at the place. -/
def Unread (l : Line) (p : Place) : Prop :=
  ∀ l' : Line, l'.without [p] = l.without [p] → l'.encode = l.encode

def SameAt (l l' : Line) : Place → Prop
  | .first => l'.first = l.first
  | .second => l'.second = l.second
  | .target => l'.target = l.target

/-! ## Leaving parts out -/

section
variable {l l' : Line} {p q : Place} {ps : List Place}

theorem mnemonic_without : (l.without ps).mnemonic = l.mnemonic := rfl

theorem part?_without : (l.without ps).part? p = if p ∈ ps then none else l.part? p := by
  cases p <;> simp only [part?, without] <;> split <;> rfl

theorem sameAt_without (h : p ∉ ps) : l.SameAt (l.without ps) p := by
  cases p <;> exact if_neg h

theorem sameAt_of_without_eq (h : l'.without [p] = l.without [p]) (hq : q ≠ p) : l.SameAt l' q := by
  simp only [without, mk.injEq, List.mem_singleton] at h
  cases q with
  | first => simpa [hq, SameAt] using h.2.2.1
  | second => simpa [hq, SameAt] using h.2.2.2.1
  | target => simpa [hq, SameAt] using h.2.2.2.2.1

theorem mnemonic_of_without_eq (h : l'.without ps = l.without ps) : l'.mnemonic = l.mnemonic := by
  simp only [without, mk.injEq] at h
  exact h.2.1

theorem without_without_self : (l.without ps).without ps = l.without ps := by
  simp only [without, mk.injEq, true_and, and_true]
  refine ⟨?_, ?_, ?_⟩ <;> split <;> rfl

end

/-! ## What is read -/

section
variable {l l' : Line} {m : Mnemonic} {i : Instruction} {p : Place}

theorem encode_eq (hm : l.mnemonic = some m) : l.encode = some <$> l.encodeAs m := by
  simp only [encode, hm]

/-- An instruction is made of nothing, of a source, of a source and a destination, or of a target. -/
theorem encode_cases (h : l.encode = .ok (some i)) : ∃ m, l.mnemonic = some m ∧
    ((∀ l' : Line, l'.encodeAs m = .ok i) ∧ (∀ p, l.reads i p = false) ∨
    (∃ make s, (∀ l' : Line, l'.encodeAs m = make <$> l'.readSource m) ∧ l.readSource m = .ok s ∧
      ∀ p, l.reads i p = (p == .first)) ∨
    (∃ s d, (∀ l' : Line, l'.encodeAs m = l'.readSource m >>= fun src => .mov src <$> l'.readDestination m) ∧
      l.readSource m = .ok s ∧ i = .mov s d) ∨
    ∃ c t, (∀ l' : Line, l'.encodeAs m = .jump c <$> l'.readTarget m) ∧ i = .jump c t) := by
  unfold encode at h
  split at h
  · cases h
  · rename_i m hm
    obtain ⟨j, hi, e⟩ := map_eq_ok.mp h
    cases e
    refine ⟨m, hm, ?_⟩
    cases m with
    | nop | swp | sav | neg | hlt =>
      cases hi
      exact .inl ⟨fun _ => rfl, fun p => by cases p <;> rfl⟩
    | add | sub | jro =>
      obtain ⟨s, hs, rfl⟩ := map_eq_ok.mp hi
      exact .inr (.inl ⟨_, s, fun _ => rfl, hs, fun p => by cases p <;> rfl⟩)
    | mov =>
      have move : ∀ l' : Line, l'.encodeAs .mov =
          l'.readSource .mov >>= fun src => .mov src <$> l'.readDestination .mov := fun _ => rfl
      rw [move] at hi
      cases hs : l.readSource .mov with
      | error f =>
        rw [hs] at hi
        cases hi
      | ok s =>
        rw [hs] at hi
        obtain ⟨d, -, rfl⟩ := map_eq_ok.mp hi
        exact .inr (.inr (.inl ⟨s, d, move, rfl, rfl⟩))
    | jmp | jez | jnz | jgz | jlz =>
      obtain ⟨t, -, rfl⟩ := map_eq_ok.mp hi
      exact .inr (.inr (.inr ⟨_, t, fun _ => rfl, rfl⟩))

theorem readSource_congr (h : l'.first = l.first) : l'.readSource m = l.readSource m := by
  simp only [readSource, h]

theorem readDestination_congr (h : l'.second = l.second) : l'.readDestination m = l.readDestination m := by
  simp only [readDestination, h]

theorem readTarget_congr (ht : l'.target = l.target) (hf : l.target = none → l'.first = l.first) :
    l'.readTarget m = l.readTarget m := by
  unfold readTarget
  rw [ht]
  -- the first operand only matters where there is no other target
  cases h : l.target with
  | some t => rfl
  | none => rw [hf h]

theorem encode_of_sameAt (h : l.encode = .ok (some i)) (hm : l'.mnemonic = l.mnemonic)
    (same : ∀ p, l.reads i p → l.SameAt l' p) : l'.encode = .ok (some i) := by
  obtain ⟨m, hl, forms⟩ := encode_cases h
  rw [← h, encode_eq hl, encode_eq (hm.trans hl)]
  apply congrArg
  obtain ⟨form, -⟩ | ⟨make, s, form, -, reads⟩ | ⟨s, d, form, -, rfl⟩ | ⟨c, t, form, rfl⟩ := forms
  · rw [form, form]
  · rw [form, form, readSource_congr (same .first (reads .first))]
  · rw [form, form, readSource_congr (same .first rfl), readDestination_congr (same .second rfl)]
  · rw [form, form, readTarget_congr (same .target rfl)]
    intro none
    apply same .first
    simp [reads, none]

/-- What is read cannot be left out, but for a target that a first operand could stand in for. -/
theorem encode_without_read (h : l.encode = .ok (some i)) (hp : l.reads i p)
    (alone : p = .target → l.first = none) : ∃ f, (l.without [p]).encode = .error f := by
  obtain ⟨m, hl, forms⟩ := encode_cases h
  suffices fails : ∃ f, (l.without [p]).encodeAs m = .error f by
    obtain ⟨f, hf⟩ := fails
    exact ⟨f, by rw [encode_eq (l := l.without [p]) hl, hf]; rfl⟩
  have noSource : (l.without [.first]).readSource m = .error (.invalidOperand m) := rfl
  have noDestination : (l.without [.second]).readDestination m = .error (.missingDestination m) := rfl
  have sameSource : (l.without [.second]).readSource m = l.readSource m := rfl
  obtain ⟨-, reads⟩ | ⟨make, s, form, -, reads⟩ | ⟨s, d, form, hs, rfl⟩ | ⟨c, t, form, rfl⟩ := forms
  · rw [reads] at hp
    cases hp
  · rw [reads] at hp
    obtain rfl := beq_iff_eq.mp hp
    exact ⟨_, by rw [form, noSource]; rfl⟩
  · cases p with
    | first => exact ⟨_, by rw [form, noSource]; rfl⟩
    | second => exact ⟨_, by rw [form, sameSource, hs, noDestination]; rfl⟩
    | target => cases hp
  · have missing : (l.without [p]).first = none → (l.without [p]).target = none →
        ∃ f, (l.without [p]).encodeAs m = .error f := by
      intro hf ht
      exact ⟨.missingTarget m, by rw [form, readTarget, hf, ht]; rfl⟩
    cases p with
    | first => exact missing rfl (Option.isNone_iff_eq_none.mp hp)
    | second => cases hp
    | target => exact missing (alone rfl) rfl

/-- Another target makes another jump, also where a first operand could stand in for the target. -/
theorem not_unread_target (h : l.encode = .ok (some i)) (hp : l.reads i .target) : ¬ l.Unread .target := by
  intro unread
  obtain ⟨m, hl, ⟨-, reads⟩ | ⟨make, s, -, -, reads⟩ | ⟨s, d, -, -, rfl⟩ | ⟨c, t, form, rfl⟩⟩ := encode_cases h
  · rw [reads] at hp
    cases hp
  · rw [reads] at hp
    cases hp
  · cases hp
  · let other := { l with target := some (t.push 'A') }
    have made : other.encode = .ok (some (.jump c (t.push 'A'))) := by
      rw [encode_eq (l := other) hl, form]
      rfl
    have same := unread other rfl
    rw [made, h] at same
    have longer : (t.push 'A').length = t.length := by
      simp only [Except.ok.injEq, Option.some.injEq, Instruction.jump.injEq, true_and] at same
      rw [same]
    rw [String.length_push] at longer
    omega

theorem unread_iff (h : l.encode = .ok (some i)) : l.Unread p ↔ l.reads i p = false := by
  refine ⟨fun unread => ?_, fun hp l' hl' => ?_⟩
  · rw [← Bool.not_eq_true]
    intro hp
    by_cases ht : p = .target
    · subst ht
      exact not_unread_target h hp unread
    · obtain ⟨f, hf⟩ := encode_without_read h hp (absurd · ht)
      have same := unread (l.without [p]) without_without_self
      rw [hf, h] at same
      cases same
  · rw [h]
    apply encode_of_sameAt h (mnemonic_of_without_eq hl')
    intro q hq
    apply sameAt_of_without_eq hl'
    intro e
    rw [e, hp] at hq
    cases hq

/-! ## What is left over -/

theorem mem_surplus_iff : p ∈ l.surplus i ↔ (l.part? p).isSome ∧ l.reads i p = false := by
  cases p <;> simp [surplus, Place.all]

theorem warnings_eq (hm : l.mnemonic = some m) (h : l.encode = .ok (some i)) :
    l.warnings = ((l.surplus i).filterMap l.part?).map (Event.surplus · m) := by
  simp only [warnings, hm, h]

theorem reads_without_surplus : (l.without (l.surplus i)).reads i p = l.reads i p := by
  cases i with
  | jump c t =>
    have kept : (l.without (l.surplus (.jump c t))).target = l.target := by
      apply sameAt_without (p := .target)
      simp [mem_surplus_iff, reads]
    cases p with
    | first => simp only [reads, kept]
    | second | target => rfl
  | _ => cases p <;> rfl

theorem encode_without_surplus (h : l.encode = .ok (some i)) :
    (l.without (l.surplus i)).encode = .ok (some i) := by
  apply encode_of_sameAt h mnemonic_without
  intro p hp
  apply sameAt_without
  simp [mem_surplus_iff, hp]

theorem surplus_without_surplus : (l.without (l.surplus i)).surplus i = [] := by
  apply List.eq_nil_iff_forall_not_mem.mpr
  intro p hp
  obtain ⟨filled, unread⟩ := mem_surplus_iff.mp hp
  rw [reads_without_surplus] at unread
  rw [part?_without] at filled
  split at filled
  · cases filled
  · rename_i kept
    exact kept (mem_surplus_iff.mpr ⟨filled, unread⟩)

theorem encode_without_part (h : l.encode = .ok (some i)) (full : l.surplus i = []) (hp : (l.part? p).isSome) :
    ∃ f, (l.without [p]).encode = .error f := by
  have read : ∀ {q}, (l.part? q).isSome → l.reads i q := by
    intro q hq
    by_contra hr
    have mem : q ∈ l.surplus i := mem_surplus_iff.mpr ⟨hq, by simpa using hr⟩
    rw [full] at mem
    cases mem
  apply encode_without_read h (read hp)
  intro ht
  subst ht
  have jump := read hp
  by_contra hf
  have filled : (l.part? .first).isSome := by
    simpa [part?, Option.isSome_iff_ne_none] using hf
  -- with a target a jump does not read its first operand, and no other instruction reads a target
  have first := read filled
  cases i with
  | jump c t =>
    have hp : l.target.isSome := hp
    have first : l.target.isNone := first
    rw [Option.isNone_iff_eq_none.mp first] at hp
    cases hp
  | _ => cases jump

end

/-- **Warnings name what is not read.** An encoded line gives one warning for each of its parts that do not matter to
its instruction, in the order of writing. Without these parts it is encoded to the same instruction with no warning,
and then leaving out any other part is a fault. A line that is not encoded gives no warnings. -/
theorem warnings_name_unread (l : Line) :
    (∀ i, l.encode = .ok (some i) → ∃ m W, l.mnemonic = some m ∧ W.Sublist Place.all ∧
      (∀ p, p ∈ W ↔ (l.part? p).isSome ∧ l.Unread p) ∧
      l.warnings.map some = W.map (fun p => (l.part? p).map (Event.surplus · m)) ∧
      (l.without W).encode = .ok (some i) ∧ (l.without W).warnings = [] ∧
      ∀ p, ((l.without W).part? p).isSome → ∃ f, ((l.without W).without [p]).encode = .error f) ∧
    ((∀ i, l.encode ≠ .ok (some i)) → l.warnings = []) := by
  refine ⟨fun i h => ?_, fun h => ?_⟩
  · obtain ⟨m, hm, -⟩ := encode_cases h
    have reduced := encode_without_surplus h
    refine ⟨m, l.surplus i, hm, List.filter_sublist, ?_, ?_, reduced, ?_, ?_⟩
    · intro p
      rw [unread_iff h, mem_surplus_iff]
    · rw [warnings_eq hm h, List.map_filterMap, List.map_filterMap_some_eq_filter_map_isSome, List.filter_eq_self]
      intro e he
      obtain ⟨p, hp, rfl⟩ := List.mem_map.mp he
      rw [Option.isSome_map, (mem_surplus_iff.mp hp).1]
    · rw [warnings_eq (mnemonic_without.trans hm) reduced, surplus_without_surplus]
      rfl
    · intro p hp
      exact encode_without_part reduced surplus_without_surplus hp
  · unfold warnings
    split
    · rename_i i _ hi
      exact absurd hi (h i)
    · rfl

-- the trailing name is the target, also where the first operand says the same
example : (⟨none, some .jmp, some (.name "LOOP"), some (.literal 3), some "LOOP", none⟩ : Line).warnings =
    [.surplus "LOOP" .jmp, .surplus "3" .jmp] := by decide

end T21.Line
