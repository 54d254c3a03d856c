import Mathlib.Data.List.Basic
import TermStats.Result
import TermStats.Storage.FileTree

/-!
What is written to a path is found there. A file that is put in place stands in no other's way: a
path that could be followed still can. No file comes to stand where there is a directory.
-/

namespace TermStats

open Result

theorem lookup_filter_ne {α β : Type} [BEq α] [LawfulBEq α] [DecidableEq α] {key other : α}
    (h : other ≠ key) (entries : List (α × β)) :
    (entries.filter (·.1 ≠ key)).lookup other = entries.lookup other := by
  induction entries with
  | nil => rfl
  | cons e rest ih =>
      by_cases he : e.1 = key
      · have differs := beq_eq_false_iff_ne.mpr (he ▸ h)
        rw [List.filter_cons_of_neg (by simpa using he), ih, List.lookup_cons, differs]
      · rw [List.filter_cons_of_pos (by simpa using he), List.lookup_cons, List.lookup_cons, ih]

namespace FileTree

variable {t t' : FileTree} {p q r : Place} {bytes : Bytes} {names : List (List Char)}

theorem contents?_put_self (t : FileTree) (p : Place) (bytes : Bytes) :
    (t.put p bytes).contents? p = some bytes :=
  List.lookup_cons_self

theorem contents?_put_of_ne (h : q ≠ p) : (t.put p bytes).contents? q = t.contents? q := by
  have differs := beq_eq_false_iff_ne.mpr h
  simp only [contents?, put, List.lookup_cons, differs]
  exact lookup_filter_ne h t.files

theorem isSome_contents?_put (h : (t.contents? q).isSome = true) :
    ((t.put p bytes).contents? q).isSome = true := by
  by_cases same : q = p
  · rw [same, contents?_put_self]
    rfl
  · rwa [contents?_put_of_ne same]

/-- Where a name leads from a directory. -/
inductive Leads (t : FileTree) (p : Place) : List Char → Place → Prop where
  | here {name : List Char} : stays name = true → Leads t p name p
  | up {name : List Char} : stays name = false → leadsUp name = true → Leads t p name p.dropLast
  | entry {name : List Char} : stays name = false → leadsUp name = false →
      (String.ofList name).utf8ByteSize ≤ nameLimit →
      (t.hasDirectory (p ++ [String.ofList name]) ||
        (t.contents? (p ++ [String.ofList name])).isSome) = true →
      Leads t p name (p ++ [String.ofList name])

/-- A path is followed name by name. -/
theorem walk_cons_iff {name : List Char} :
    t.walk p (name :: names) = .ok r ↔
      t.hasDirectory p = true ∧ ∃ q, t.Leads p name q ∧ t.walk q names = .ok r := by
  rw [walk]
  refine ⟨fun h => ?_, ?_⟩
  · split at h
    · cases h
    · rename_i inside
      refine ⟨by simpa using inside, ?_⟩
      split at h
      · rename_i here
        exact ⟨p, .here here, h⟩
      · rename_i away
        have away : stays name = false := eq_false_of_ne_true away
        split at h
        · rename_i up
          exact ⟨_, .up away up, h⟩
        · rename_i notUp
          dsimp only at h
          split at h
          · cases h
          · rename_i short
            split at h
            · rename_i there
              exact ⟨_, .entry away (eq_false_of_ne_true notUp)
                (Nat.le_of_not_lt short) there, h⟩
            · cases h
  · rintro ⟨inside, q, leads, h⟩
    rw [inside]
    cases leads with
    | here here => simp only [here, h, Bool.not_true, Bool.false_eq_true, if_false, if_true]
    | up away up =>
        simp only [away, up, h, Bool.not_true, Bool.false_eq_true, if_false, if_true]
    | entry away notUp short there =>
        simp only [away, notUp, Bool.not_true, Bool.false_eq_true, if_false,
          if_neg (Nat.not_lt.mpr short), if_pos there, h]

/-- Whatever could be followed still can when a file is put in place. -/
theorem walk_put (h : t.walk q names = .ok r) : (t.put p bytes).walk q names = .ok r := by
  induction names generalizing q with
  | nil => exact h
  | cons name rest ih =>
      obtain ⟨inside, place, leads, h⟩ := walk_cons_iff.mp h
      refine walk_cons_iff.mpr ⟨inside, place, ?_, ih h⟩
      cases leads with
      | here here => exact .here here
      | up away up => exact .up away up
      | entry away notUp short there =>
          refine .entry away notUp short ?_
          rcases Bool.or_eq_true_iff.mp there with there | there
          · exact Bool.or_eq_true_iff.mpr (.inl there)
          · exact Bool.or_eq_true_iff.mpr (.inr (isSome_contents?_put there))

theorem walk_append {more : List (List Char)} (h : t.walk p names = .ok q)
    (later : t.walk q more = .ok r) : t.walk p (names ++ more) = .ok r := by
  induction names generalizing p with
  | nil =>
      cases h
      exact later
  | cons name rest ih =>
      obtain ⟨inside, place, leads, h⟩ := walk_cons_iff.mp h
      exact walk_cons_iff.mpr ⟨inside, place, leads, ih h⟩

/-- The place of a new file is where its name leads once the file is there. -/
theorem walk_of_placeIn {name : List Char} (h : t.placeIn p name = .ok q) (bytes : Bytes) :
    stays name = false ∧ t.hasDirectory q = false ∧ (t.put q bytes).walk p [name] = .ok q := by
  simp only [placeIn] at h
  split at h
  · cases h
  · rename_i inside
    split at h
    · cases h
    · rename_i named
      split at h
      · cases h
      · rename_i short
        split at h
        · cases h
        · rename_i free
          cases h
          have inside : t.hasDirectory p = true := by simpa using inside
          obtain ⟨away, notUp⟩ : stays name = false ∧ leadsUp name = false := by
            simpa using named
          refine ⟨away, eq_false_of_ne_true free, walk_cons_iff.mpr
            ⟨inside, _, .entry away notUp (Nat.le_of_not_lt short) ?_, rfl⟩⟩
          rw [contents?_put_self, Option.isSome_some, Bool.or_true]

theorem read_eq_ok_iff {path : Path} :
    t.read path = .ok bytes ↔ ∃ p, t.find path = .ok p ∧ t.contents? p = some bytes := by
  simp only [read, bind_eq_ok]
  refine exists_congr fun p => and_congr_right fun _ => ?_
  cases t.contents? p with
  | some _ => rw [pure_eq_ok, Option.some_inj]
  | none => exact ⟨fun h => absurd h throw_ne_ok, nofun⟩

theorem read_of_write {path : Path} (h : t.write path bytes = .ok t') :
    t'.read path = .ok bytes := by
  simp only [write, bind_eq_ok, pure_eq_ok] at h
  obtain ⟨names, hnames, p, hwalk, place, hplace, rfl⟩ := h
  obtain ⟨named, -, last⟩ := walk_of_placeIn hplace bytes
  have whole : names.dropLast ++ [names.getLast?.getD []] = names := by
    cases hlast : names.getLast? with
    | none =>
        rw [hlast] at named
        cases named
    | some name => exact List.dropLast_append_getLast? name hlast
  have there := walk_append (walk_put hwalk) last
  rw [whole] at there
  have found : (t.put place bytes).find path = .ok place := by
    rw [find, hnames]
    exact there
  exact read_eq_ok_iff.mpr ⟨place, found, contents?_put_self ..⟩

/-- No file stands where there is a directory. -/
def Apart (t : FileTree) : Prop :=
  ∀ p, t.hasDirectory p = true → t.contents? p = none

theorem apart_empty : empty.Apart := fun _ _ => rfl

theorem Apart.write {path : Path} (apart : t.Apart) (h : t.write path bytes = .ok t') :
    t'.Apart := by
  simp only [FileTree.write, bind_eq_ok, pure_eq_ok] at h
  obtain ⟨names, _, p, _, place, hplace, rfl⟩ := h
  have free := (walk_of_placeIn hplace bytes).2.1
  intro q inside
  have other : q ≠ place := by
    rintro rfl
    exact Bool.false_ne_true (free.symm.trans inside)
  exact (contents?_put_of_ne other).trans (apart q inside)

theorem Apart.makeDirectories (apart : t.Apart) (p : Place) (names : List (List Char)) :
    (t.makeDirectories p names).Apart := by
  induction names generalizing t p with
  | nil => exact apart
  | cons name rest ih =>
      rw [FileTree.makeDirectories]
      split
      · exact ih apart _
      · split
        · exact ih apart _
        · dsimp only
          split
          · exact ih apart _
          · split
            · exact apart
            · rename_i unmade
              refine ih (fun q inside => ?_) _
              by_cases made : q = p ++ [String.ofList name]
              · rw [made]
                exact Option.not_isSome_iff_eq_none.mp
                  (not_or.mp (mt Bool.or_eq_true_iff.mpr unmade)).2
              · refine apart q ?_
                simpa [hasDirectory, made] using inside

theorem Apart.addDirectory (apart : t.Apart) (path : Path) : (t.addDirectory path).Apart := by
  rw [FileTree.addDirectory]
  split
  · exact apart.makeDirectories (t.start path) _
  · exact apart

theorem Apart.provide (apart : t.Apart) (path : Path) (bytes : Bytes) :
    (t.provide path bytes).Apart := by
  rw [FileTree.provide]
  split
  · rename_i names _
    have apart := apart.makeDirectories (t.start path) (names.filter (!stays ·)).dropLast
    cases h : (t.makeDirectories (t.start path) (names.filter (!stays ·)).dropLast).write path
      bytes with
    | ok t' =>
        simp only [h]
        exact apart.write h
    | error f =>
        simp only [h]
        exact apart
  · exact apart

theorem Apart.remove (apart : t.Apart) (path : Path) : (t.remove path).Apart := by
  rw [FileTree.remove]
  split
  · rename_i p _
    intro q inside
    have absent := apart q inside
    by_cases gone : q = p
    · refine List.lookup_eq_none_iff.mpr fun e mem => ?_
      have kept := of_decide_eq_true (List.mem_filter.mp mem).2
      exact bne_iff_ne.mpr (gone ▸ Ne.symm kept)
    · exact (lookup_filter_ne gone t.files).trans absent
  · exact apart

end FileTree
end TermStats
