import T21.Cli.Workspace
import T21.Proofs.Except

/-!
# Files in a workspace

A name leads to one place, or nowhere. A file can be read if there is one at that place, and created if there is no
folder and the name does not end in a slash. Creating a file changes what is found at its own place, and does not
change where other names lead to.
-/

namespace T21.Cli.Workspace

def locate? (w : Workspace) (name : String) : Option Path :=
  (checked name).toOption.bind fun ps => (w.walk ps).toOption

def read? (w : Workspace) (name : String) : Option (List UInt8) :=
  (w.locate? name).bind w.content?

/-- Where a file of the name can be created. -/
def place? (w : Workspace) (name : String) : Option Path :=
  (w.locate? name).filter fun p => chopSlashes (parts name) = parts name ∧ w.isFolder p = false

def target? (w : Workspace) (name : Option String) : Option Path :=
  name.bind w.place?

/-- A file is asked for that cannot be created. -/
def Refuses (w : Workspace) (name : Option String) : Prop :=
  name.isSome ∧ w.target? name = none

instance (w : Workspace) (name : Option String) : Decidable (w.Refuses name) :=
  inferInstanceAs (Decidable (_ ∧ _))

def store? (w : Workspace) (name : Option String) (data : List UInt8) : Option Workspace :=
  name.elim (some w) fun name => (w.place? name).map (w.put · data)

theorem isSome_of_target? {w : Workspace} {name : Option String} {p : Path} (h : w.target? name = some p) :
    name.isSome := by
  cases name with
  | none => cases h
  | some name => rfl

/-! ## Reading and creating -/

theorem checked_eq_ok {name : String} {ps : Path} (h : checked name = .ok ps) : ps = parts name := by
  unfold checked at h
  split at h
  · cases h
  · split at h <;> cases h
    rfl

theorem openFile_cases (w : Workspace) (name : String) :
    (∃ data, w.read? name = some data ∧ w.openFile name = .ok { data }) ∨
    w.read? name = none ∧
      ((∃ e, w.openFile name = .error e) ∨ ∃ reason, w.openFile name = .ok ⟨[], some reason⟩) := by
  unfold openFile read? locate?
  cases checked name with
  | error e => exact .inr ⟨rfl, .inl ⟨e, rfl⟩⟩
  | ok ps =>
    cases hw : w.walk ps with
    | error e => simp [hw]
    | ok p =>
      cases hc : w.content? p with
      | some data => simp [hw, hc, pure_eq_ok]
      | none => by_cases hf : w.isFolder p <;> simp [hw, hc, hf, pure_eq_ok, throw_eq_error]

theorem newFile_cases (w : Workspace) (name : String) :
    (∃ p, w.place? name = some p ∧ w.newFile name = .ok p) ∨
    w.place? name = none ∧ ∃ e, w.newFile name = .error e := by
  unfold newFile place? locate?
  cases hk : checked name with
  | error e => exact .inr ⟨rfl, e, rfl⟩
  | ok ps =>
    obtain rfl := checked_eq_ok hk
    by_cases hs : chopSlashes (parts name) = parts name
    · cases hw : w.walk (parts name) with
      | error e => simp [hw, hs]
      | ok p => by_cases hf : w.isFolder p <;> simp [hw, hs, hf, Option.filter_some, pure_eq_ok, throw_eq_error]
    · cases hw : w.walk ((chopSlashes (parts name)).dropLast ++ ["."]) <;> simp [hw, hs, throw_eq_error]

/-! ## What a new file changes -/

theorem lookup_filter_ne {p q : Path} (h : q ≠ p) : ∀ files : List (Path × List UInt8),
    (files.filter (·.1 ≠ p)).lookup q = files.lookup q
  | [] => rfl
  | (r, data) :: files => by
    by_cases hr : r = p
    · subst hr
      rw [List.filter_cons_of_neg (by simp), List.lookup_cons, beq_false_of_ne h]
      exact lookup_filter_ne h files
    · rw [List.filter_cons_of_pos (by simpa using hr), List.lookup_cons, List.lookup_cons, lookup_filter_ne h files]

theorem put_put (w : Workspace) (p : Path) (first last : List UInt8) : (w.put p first).put p last = w.put p last := by
  simp [put]

theorem content?_put (w : Workspace) (p q : Path) (data : List UInt8) :
    (w.put p data).content? q = if q = p then some data else w.content? q := by
  unfold content? put
  by_cases h : q = p
  · subst h
    simp
  · rw [if_neg h, List.lookup_cons, beq_false_of_ne h]
    exact lookup_filter_ne h w.files

section
variable {w : Workspace} {p : Path} (data : List UInt8) (h : w.isFolder p = false)
include h

/-- The way never goes on from the new file, where there was no folder before. -/
theorem descend_put (here : Path) (part : String) :
    ((w.put p data).descend here part).toOption = (w.descend here part).toOption := by
  unfold descend
  rw [content?_put]
  by_cases hp : here = p
  · subst hp
    rw [if_pos (by simp), h]
    cases w.content? here <;> rfl
  · rw [if_neg hp]
    rfl

theorem foldlM_descend_put : ∀ (ps : Path) (here : Path),
    (ps.foldlM (w.put p data).descend here).toOption = (ps.foldlM w.descend here).toOption
  | [], _ => rfl
  | part :: ps, here => by
    rw [List.foldlM_cons, List.foldlM_cons, toOption_bind, toOption_bind, descend_put data h]
    simp only [foldlM_descend_put ps]

theorem locate?_put (name : String) : (w.put p data).locate? name = w.locate? name := by
  unfold locate? walk
  cases checked name with
  | error e => rfl
  | ok ps => exact foldlM_descend_put data h ps _

theorem place?_put (name : String) : (w.put p data).place? name = w.place? name := by
  unfold place?
  rw [locate?_put data h]
  rfl

end

section
variable {w v : Workspace} {name : Option String} {data : List UInt8}

theorem store?_eq_none_iff : w.store? name data = none ↔ w.Refuses name := by
  unfold store? Refuses target?
  cases name with
  | none => simp
  | some name => simp

theorem store?_cases (h : w.store? name data = some v) :
    name = none ∧ v = w ∨
    ∃ p, w.target? name = some p ∧ w.isFolder p = false ∧ v = w.put p data := by
  unfold store? at h
  cases name with
  | none => exact .inl ⟨rfl, (Option.some.inj h).symm⟩
  | some name =>
    obtain ⟨p, hp, rfl⟩ := Option.map_eq_some_iff.mp h
    have free := (Option.filter_eq_some_iff.mp hp).2
    exact .inr ⟨p, hp, (of_decide_eq_true free).2, rfl⟩

theorem content?_store? (h : w.store? name data = some v) (p : Path) :
    v.content? p = if w.target? name = some p then some data else w.content? p := by
  obtain ⟨rfl, rfl⟩ | ⟨q, hq, -, rfl⟩ := store?_cases h
  · rfl
  · rw [content?_put, hq]
    simp [eq_comm]

theorem target?_store? (h : w.store? name data = some v) (other : Option String) : v.target? other = w.target? other := by
  obtain ⟨rfl, rfl⟩ | ⟨q, -, free, rfl⟩ := store?_cases h
  · rfl
  · have same : (w.put q data).place? = w.place? := funext (place?_put data free)
    rw [target?, same, target?]

theorem refuses_store? (h : w.store? name data = some v) (other : Option String) : v.Refuses other ↔ w.Refuses other := by
  rw [Refuses, target?_store? h, Refuses]

theorem not_refuses_of_store? (h : w.store? name data = some v) : ¬ w.Refuses name := by
  rw [← store?_eq_none_iff, h]
  simp

theorem output_store? (h : w.store? name data = some v) : v.output = w.output := by
  obtain ⟨rfl, rfl⟩ | ⟨q, -, -, rfl⟩ := store?_cases h <;> rfl

end

end T21.Cli.Workspace
