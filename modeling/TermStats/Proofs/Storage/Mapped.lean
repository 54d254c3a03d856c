import Mathlib.Algebra.Group.Int.Defs
import Mathlib.Algebra.GroupWithZero.Nat
import TermStats.Proofs.Storage.Written
import TermStats.Storage.MapCache

/-!
What is mapped for a path. It stays the same whatever other paths are mapped before it, also those
that name its file in another spelling: all spellings of a path lead to one file.
-/

namespace TermStats

open Result

namespace FileTree

variable {t : FileTree}

/-- A name that leads somewhere else. -/
def moves (name : List Char) : Bool :=
  name ≠ [] ∧ name ≠ ['.']

theorem moves_of_not_stays {name : List Char} (h : stays name = false) : moves name = true := by
  simpa [moves, stays] using h

theorem walk_filter {names : List (List Char)} {p q : Place} (h : t.walk p names = .ok q) :
    t.walk p (names.filter moves) = .ok q := by
  induction names generalizing p with
  | nil => exact h
  | cons name rest ih =>
      obtain ⟨inside, place, leads, h⟩ := walk_cons_iff.mp h
      by_cases goes : moves name = true
      · rw [List.filter_cons_of_pos goes]
        exact walk_cons_iff.mpr ⟨inside, place, leads, ih h⟩
      · rw [List.filter_cons_of_neg goes]
        cases leads with
        | here _ => exact ih h
        | up away _ => exact absurd (moves_of_not_stays away) goes
        | entry away _ _ _ => exact absurd (moves_of_not_stays away) goes

theorem walk_of_find {path : Path} {p : Place} (h : t.find path = .ok p) :
    t.walk (t.start path) (Path.segments path.toList) = .ok p := by
  simp only [find, bind_eq_ok] at h
  obtain ⟨names, hnames, h⟩ := h
  simp only [namesOf] at hnames
  split at hnames <;> try cases hnames
  split at hnames <;> try cases hnames
  split at hnames <;> cases hnames
  exact h

end FileTree

theorem Path.components_filter (path : Path) : (Path.key path).components.filter (· ≠ ".") =
    ((Path.segments path.toList).filter FileTree.moves).map String.ofList := by
  have kept : (((Path.segments path.toList).filter FileTree.moves).map String.ofList).filter
      (· ≠ ".") = ((Path.segments path.toList).filter FileTree.moves).map String.ofList := by
    rw [List.filter_eq_self]
    intro name h
    obtain ⟨letters, hletters, rfl⟩ := List.mem_map.mp h
    have goes := of_decide_eq_true (List.mem_filter.mp hletters).2
    refine decide_eq_true fun dot => goes.2 ?_
    exact String.ofList_injective (dot.trans (show "." = String.ofList ['.'] from rfl))
  -- A leading dot stands in front of the others, and is filtered out again.
  simp only [key]
  split
  · split
    · exact (List.filter_cons_of_neg (by decide)).trans kept
    · exact kept
  · exact kept

/-- All spellings of a path begin in one place. -/
theorem FileTree.start_eq_of_key {p q : Path} (same : Path.key p = Path.key q) (t : FileTree) :
    t.start p = t.start q := by
  have absolute : p.startsWith "/" = q.startsWith "/" := congrArg Path.Key.absolute same
  rw [start, start, absolute]

/-- Two spellings of one path lead to the same file. -/
theorem FileTree.read_eq_of_key {t : FileTree} {p q : Path} {a b : Bytes}
    (same : Path.key p = Path.key q) (hp : t.read p = .ok a) (hq : t.read q = .ok b) : a = b := by
  have names : (Path.segments p.toList).filter moves = (Path.segments q.toList).filter moves := by
    refine (List.map_inj_right fun _ _ => String.ofList_injective).mp ?_
    rw [← Path.components_filter, ← Path.components_filter, same]
  obtain ⟨place, found, contents⟩ := read_eq_ok_iff.mp hp
  obtain ⟨place', found', contents'⟩ := read_eq_ok_iff.mp hq
  have walked := walk_filter (walk_of_find found)
  rw [names, start_eq_of_key same, walk_filter (walk_of_find found')] at walked
  cases walked
  rw [contents] at contents'
  exact Option.some.inj contents'

namespace MapCache

variable {cache cache' : MapCache} {files : FileTree} {read : Reading} {path : Path} {bytes : Bytes}

/-- The bytes that are mapped for a path: those in the cache, or else those of the file. -/
def Maps (cache : MapCache) (files : FileTree) (path : Path) (bytes : Bytes) : Prop :=
  (cache.getOrMap files.read path).1.toOption.map (·.bytes) = some bytes

instance : Decidable (cache.Maps files path bytes) :=
  inferInstanceAs (Decidable (_ = _))

theorem lookup_insertHost (cache : MapCache) (path : Path) (bytes : Bytes) (key : Path.Key) :
    (cache.insertHost path bytes).entries.lookup key =
      if Path.key path = key then some (.ofHost bytes) else cache.entries.lookup key := by
  rw [insertHost]
  split
  · rename_i same
    rw [same, List.lookup_cons_self]
  · rename_i other
    have differs : (key == Path.key path) = false := beq_eq_false_iff_ne.mpr (Ne.symm other)
    rw [List.lookup_cons, differs]
    exact lookup_filter_ne (Ne.symm other) cache.entries

/-- Mapping a path keeps every entry, and may add that of the path. -/
theorem lookup_getOrMap (cache : MapCache) (read : Reading) (path : Path) (key : Path.Key) :
    (cache.getOrMap read path).2.entries.lookup key = (cache.entries.lookup key).or
      (if Path.key path = key then (read path).toOption.map .ofFile else none) := by
  rw [getOrMap, get?]
  split
  · rename_i m found
    split
    · rename_i same
      rw [← same, found]
      rfl
    · exact Option.or_none.symm
  · rename_i absent
    split
    · rename_i f unread
      rw [unread]
      split <;> exact Option.or_none.symm
    · rename_i bytes found
      split
      · rename_i same
        rw [← same, absent, found, List.lookup_cons_self]
        rfl
      · rename_i other
        have differs : (key == Path.key path) = false := beq_eq_false_iff_ne.mpr (Ne.symm other)
        rw [List.lookup_cons, differs, Option.or_none]

theorem get?_of_getOrMap {m : Mapping} (h : cache.getOrMap read path = (.ok m, cache')) :
    cache'.get? path = some m := by
  simp only [getOrMap] at h
  split at h
  · rename_i found
    cases h
    exact found
  · split at h
    · cases h
    · cases h
      rw [get?, List.lookup_cons_self]

/-- A path that is mapped stays mapped to the same bytes. -/
theorem get?_after {m : Mapping} {x : Except Error Mapping} {other : Path}
    (found : cache.get? path = some m) (h : cache.getOrMap read other = (x, cache')) :
    cache'.get? path = some m := by
  have kept := lookup_getOrMap cache read other (Path.key path)
  rw [get?] at found ⊢
  rwa [h, found, Option.some_or] at kept

theorem getOrMap_of_get? {m : Mapping} (found : cache.get? path = some m) (read : Reading) :
    cache.getOrMap read path = (.ok m, cache) := by
  rw [getOrMap, found]

theorem Maps.bytes_of_get? {m : Mapping} (maps : cache.Maps files path bytes)
    (found : cache.get? path = some m) : m.bytes = bytes := by
  rw [Maps, getOrMap_of_get? found] at maps
  exact Option.some.inj maps

theorem maps_of_get? {m : Mapping} (found : cache.get? path = some m) (files : FileTree) :
    cache.Maps files path m.bytes := by
  rw [Maps, getOrMap_of_get? found]
  rfl

theorem maps_of_absent (absent : cache.get? path = none) :
    cache.Maps files path bytes ↔ files.read path = .ok bytes := by
  rw [Maps, getOrMap, absent]
  cases files.read path with
  | error f => simp [Except.toOption]
  | ok bytes' => simp [Except.toOption, Mapping.bytes_ofFile]

/-- What is mapped for a path does not change when another is mapped. -/
theorem Maps.after {x : Except Error Mapping} {other : Path} (maps : cache.Maps files path bytes)
    (h : cache.getOrMap files.read other = (x, cache')) : cache'.Maps files path bytes := by
  cases found : cache.get? path with
  | some m =>
      rw [← maps.bytes_of_get? found]
      exact maps_of_get? (get?_after found h) files
  | none =>
      have read := (maps_of_absent found).mp maps
      have kept := lookup_getOrMap cache files.read other (Path.key path)
      rw [get?] at found
      rw [h, found, Option.none_or] at kept
      split at kept
      · rename_i same
        cases read' : files.read other with
        | ok bytes' =>
            rw [read'] at kept
            have maps := maps_of_get? kept files
            obtain rfl := FileTree.read_eq_of_key same.symm read read'
            rwa [Mapping.bytes_ofFile] at maps
        | error f =>
            rw [read'] at kept
            exact (maps_of_absent kept).mpr read
      · exact (maps_of_absent kept).mpr read

end MapCache
end TermStats
