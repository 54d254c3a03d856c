import Mathlib.Data.List.Dedup
import Mathlib.Data.List.Induction
import TermStats.Proofs.Storage.Mapped

/-!
The cache after any calls, with files that come and go meanwhile, in any file system. What it has
for a key can be told from the calls alone: the region that the host supplied last, or else the
contents of the file when it was first mapped. Contents are never overwritten while they are
mapped, so a mapping is the bytes that were there.
-/

namespace TermStats

/-- Files that are created, removed and read, with no law that ties one to the other. -/
structure FileSystem (σ : Type) where
  create : σ → Path → Bytes → σ
  remove : σ → Path → σ
  read : σ → Reading

def FileTree.system : FileSystem FileTree :=
  ⟨provide, FileTree.remove, FileTree.read⟩

/-- What is asked of the cache, or befalls the files. -/
inductive CacheCall where
  | create (path : Path) (bytes : Bytes)
  | remove (path : Path)
  | host (path : Path) (bytes : Bytes)
  | map (path : Path)
  | get (path : Path)
  deriving Repr, DecidableEq

namespace CacheCall

variable {σ : Type}

def path : CacheCall → Path
  | create p _ | remove p | host p _ | map p | get p => p

def files (fs : FileSystem σ) (t : σ) : CacheCall → σ
  | create p bytes => fs.create t p bytes
  | remove p => fs.remove t p
  | host _ _ | map _ | get _ => t

def cache (read : Reading) (cache : MapCache) : CacheCall → MapCache
  | host p bytes => cache.insertHost p bytes
  | map p => (cache.getOrMap read p).2
  | create _ _ | remove _ | get _ => cache

/-- The region that a call supplies for a key. -/
def supplies? (key : Path.Key) : CacheCall → Option Bytes
  | host p bytes => if Path.key p = key then some bytes else none
  | create _ _ | remove _ | map _ | get _ => none

/-- The contents of the file that a call would map for a key. -/
def reads? (read : Reading) (key : Path.Key) : CacheCall → Option Bytes
  | map p => if Path.key p = key then (read p).toOption else none
  | create _ _ | remove _ | host _ _ | get _ => none

end CacheCall

structure CachedFiles (σ : Type) where
  files : σ
  cache : MapCache
  deriving Repr, DecidableEq

namespace CachedFiles

variable {σ : Type} {fs : FileSystem σ}

def call (fs : FileSystem σ) (s : CachedFiles σ) (c : CacheCall) : CachedFiles σ :=
  ⟨c.files fs s.files, c.cache (fs.read s.files) s.cache⟩

/-- The files and the cache after some calls, which begin without a cache. -/
def after (fs : FileSystem σ) (files : σ) (calls : List CacheCall) : CachedFiles σ :=
  calls.foldl (call fs) ⟨files, .empty⟩

/-- The region that the host supplied last. -/
def supplied? (calls : List CacheCall) (key : Path.Key) : Option Bytes :=
  calls.reverse.findSome? (·.supplies? key)

/-- The contents of the file when first it was there to be mapped. -/
def firstRead? (fs : FileSystem σ) : σ → List CacheCall → Path.Key → Option Bytes
  | _, [], _ => none
  | t, c :: rest, key =>
      (c.reads? (fs.read t) key).or (firstRead? fs (c.files fs t) rest key)

def bytes? (fs : FileSystem σ) (files : σ) (calls : List CacheCall) (key : Path.Key) :
    Option Bytes :=
  (supplied? calls key).or (firstRead? fs files calls key)

/-- The keys that some calls name. -/
def keys (calls : List CacheCall) : List Path.Key :=
  (calls.map fun c => Path.key c.path).dedup

/-- The cache mapped a file for a key, which is not empty, and the host has not replaced it. -/
def ownsFile (fs : FileSystem σ) (files : σ) (calls : List CacheCall) (key : Path.Key) : Bool :=
  (supplied? calls key).isNone && (firstRead? fs files calls key).any (!·.isEmpty)

section Calls

variable {files : σ} {read : Reading} {calls : List CacheCall} {c : CacheCall} {key : Path.Key}

theorem supplies?_of_ne (h : Path.key c.path ≠ key) : c.supplies? key = none := by
  cases c with
  | host p bytes => exact if_neg h
  | create _ _ | remove _ | map _ | get _ => rfl

theorem reads?_of_ne (h : Path.key c.path ≠ key) : c.reads? read key = none := by
  cases c with
  | map p => exact if_neg h
  | create _ _ | remove _ | host _ _ | get _ => rfl

theorem after_concat (files : σ) (calls : List CacheCall) (c : CacheCall) :
    after fs files (calls ++ [c]) = (after fs files calls).call fs c :=
  List.foldl_concat ..

theorem files_after (files : σ) (calls : List CacheCall) :
    (after fs files calls).files = calls.foldl (CacheCall.files fs) files := by
  induction calls using List.reverseRecOn with
  | nil => rfl
  | append_singleton calls c ih => rw [after_concat, List.foldl_concat, ← ih, call]

theorem supplied?_concat (calls : List CacheCall) (c : CacheCall) (key : Path.Key) :
    supplied? (calls ++ [c]) key = (c.supplies? key).or (supplied? calls key) := by
  rw [supplied?, List.reverse_concat, List.findSome?_cons, ← supplied?]
  cases c.supplies? key <;> rfl

theorem firstRead?_concat (files : σ) (calls : List CacheCall) (c : CacheCall)
    (key : Path.Key) : firstRead? fs files (calls ++ [c]) key =
      (firstRead? fs files calls key).or
        (c.reads? (fs.read (calls.foldl (CacheCall.files fs) files)) key) := by
  induction calls generalizing files with
  | nil => exact Option.or_none
  | cons first rest ih =>
      rw [List.cons_append, firstRead?, ih, ← Option.or_assoc, ← firstRead?, List.foldl_cons]

theorem mem_keys_of_bytes? (h : (bytes? fs files calls key).isSome = true) : key ∈ keys calls := by
  by_contra unnamed
  have other : ∀ c ∈ calls, Path.key c.path ≠ key := by
    simpa [keys] using unnamed
  have unsupplied : supplied? calls key = none := by
    rw [supplied?, List.findSome?_eq_none_iff]
    exact fun c mem => supplies?_of_ne (other c (List.mem_reverse.mp mem))
  have unread : firstRead? fs files calls key = none := by
    clear h unnamed unsupplied
    induction calls generalizing files with
    | nil => rfl
    | cons c rest ih =>
        rw [firstRead?, reads?_of_ne (other c List.mem_cons_self), Option.none_or]
        exact ih fun c mem => other c (List.mem_cons_of_mem _ mem)
  rw [bytes?, unsupplied, unread] at h
  cases h

end Calls
end CachedFiles

namespace MapCache

variable {cache : MapCache} {key : Path.Key} {c : CacheCall}

/-- All that a call does to the mapping of a key: a region replaces it, a file that is read does
not. -/
theorem lookup_call (read : Reading) (cache : MapCache) (c : CacheCall) (key : Path.Key) :
    (c.cache read cache).entries.lookup key = ((c.supplies? key).map .ofHost).or
      ((cache.entries.lookup key).or ((c.reads? read key).map .ofFile)) := by
  cases c with
  | host p bytes =>
      rw [CacheCall.cache, lookup_insertHost, CacheCall.supplies?, CacheCall.reads?]
      split
      · rfl
      · exact Option.or_none.symm
  | map p =>
      rw [CacheCall.cache, lookup_getOrMap, CacheCall.supplies?, CacheCall.reads?]
      split <;> rfl
  | create _ _ | remove _ | get _ => exact Option.or_none.symm

theorem mem_keys_iff {entries : List (Path.Key × Mapping)} :
    key ∈ entries.map (·.1) ↔ (entries.lookup key).isSome = true := by
  simp only [List.mem_map, List.lookup_isSome_iff, beq_iff_eq, @eq_comm _ key]

theorem lookup_of_mem {entries : List (Path.Key × Mapping)} {m : Mapping}
    (once : (entries.map (·.1)).Nodup) (mem : (key, m) ∈ entries) :
    entries.lookup key = some m := by
  obtain ⟨front, back, rfl⟩ := List.append_of_mem mem
  refine List.lookup_eq_some_iff.mpr ⟨front, back, rfl, fun e he => ?_⟩
  rw [List.map_append, List.map_cons] at once
  have apart := List.disjoint_of_nodup_append once (List.mem_map_of_mem he)
  simp only [bne_iff_ne, ne_eq]
  exact fun same => apart (same ▸ List.mem_cons_self)

theorem nodup_call (once : (cache.entries.map (·.1)).Nodup) (read : Reading) (c : CacheCall) :
    ((c.cache read cache).entries.map (·.1)).Nodup := by
  cases c with
  | host p bytes =>
      refine List.nodup_cons.mpr ⟨?_, once.sublist (List.filter_sublist.map _)⟩
      simp
  | map p =>
      rw [CacheCall.cache, getOrMap]
      split
      · exact once
      · rename_i absent
        split
        · exact once
        · refine List.nodup_cons.mpr ⟨fun mem => ?_, once⟩
          rw [get?] at absent
          rw [mem_keys_iff, absent] at mem
          cases mem
  | create _ _ | remove _ | get _ => exact once

end MapCache

namespace CachedFiles

variable {σ : Type} {fs : FileSystem σ} {files : σ} {calls : List CacheCall} {s : CachedFiles σ}

/-- The mapping that the calls leave for a key. -/
def mapping? (fs : FileSystem σ) (files : σ) (calls : List CacheCall) (key : Path.Key) :
    Option Mapping :=
  ((supplied? calls key).map .ofHost).or ((firstRead? fs files calls key).map .ofFile)

theorem bytes_mapping? (files : σ) (calls : List CacheCall) (key : Path.Key) :
    (mapping? fs files calls key).map (·.bytes) = bytes? fs files calls key := by
  rw [mapping?, bytes?]
  cases supplied? calls key with
  | some bytes => simp [Mapping.bytes_ofHost]
  | none => cases firstRead? fs files calls key <;> simp [Mapping.bytes_ofFile]

theorem isOwned_mapping? (files : σ) (calls : List CacheCall) (key : Path.Key) :
    (mapping? fs files calls key).any (·.isOwned) = ownsFile fs files calls key := by
  rw [mapping?, ownsFile]
  cases supplied? calls key with
  | some bytes => cases bytes <;> rfl
  | none =>
      cases firstRead? fs files calls key with
      | none => rfl
      | some bytes => cases bytes <;> rfl

/-- The cache has what the calls leave, once for each key. -/
structure Agrees (fs : FileSystem σ) (files : σ) (calls : List CacheCall) (cache : MapCache) :
    Prop where
  entries : ∀ key, cache.entries.lookup key = mapping? fs files calls key
  once : (cache.entries.map (·.1)).Nodup

theorem Agrees.call {c : CacheCall} {cache : MapCache} (agrees : Agrees fs files calls cache) :
    Agrees fs files (calls ++ [c])
      (c.cache (fs.read (calls.foldl (CacheCall.files fs) files)) cache) := by
  -- A region comes before, and a file after, whatever the key had: the same on both sides.
  refine ⟨fun key => ?_, MapCache.nodup_call agrees.once _ c⟩
  rw [MapCache.lookup_call, agrees.entries, mapping?, mapping?, supplied?_concat,
    firstRead?_concat, Option.map_or, Option.map_or, Option.or_assoc, Option.or_assoc]

theorem agrees_after (fs : FileSystem σ) (files : σ) (calls : List CacheCall) :
    Agrees fs files calls (after fs files calls).cache := by
  induction calls using List.reverseRecOn with
  | nil => exact ⟨fun _ => rfl, List.nodup_nil⟩
  | append_singleton calls c ih =>
      rw [after_concat, CachedFiles.call, files_after]
      exact ih.call

/-- The keys of the entries are those that the calls leave something for. -/
theorem Agrees.keys_perm {cache : MapCache} (agrees : Agrees fs files calls cache) :
    (cache.entries.map (·.1)).Perm
      ((keys calls).filter fun key => (bytes? fs files calls key).isSome) := by
  refine (List.perm_ext_iff_of_nodup agrees.once ((List.nodup_dedup _).filter _)).mpr fun key => ?_
  rw [MapCache.mem_keys_iff, agrees.entries, List.mem_filter, ← bytes_mapping?, Option.isSome_map]
  refine ⟨fun some => ⟨?_, some⟩, fun h => h.2⟩
  rw [← Option.isSome_map (f := (·.bytes)), bytes_mapping?] at some
  exact mem_keys_of_bytes? some

theorem Agrees.size {cache : MapCache} (agrees : Agrees fs files calls cache) :
    cache.size = (keys calls).countP fun key => (bytes? fs files calls key).isSome := by
  rw [List.countP_eq_length_filter, ← agrees.keys_perm.length_eq, List.length_map, MapCache.size]

theorem Agrees.ownedCount {cache : MapCache} (agrees : Agrees fs files calls cache) :
    cache.ownedCount = (keys calls).countP (ownsFile fs files calls) := by
  have owned : cache.ownedCount = (cache.entries.map (·.1)).countP (ownsFile fs files calls) := by
    rw [MapCache.ownedCount, List.countP_map]
    refine List.countP_congr fun e mem => ?_
    have found := MapCache.lookup_of_mem agrees.once mem
    rw [agrees.entries] at found
    rw [Function.comp_apply, ← isOwned_mapping?, found, Option.any_some]
  rw [owned, agrees.keys_perm.countP_eq, List.countP_filter]
  refine List.countP_congr fun key _ => ?_
  rw [Bool.and_eq_true, and_iff_left_iff_imp, ← isOwned_mapping?, ← bytes_mapping?]
  cases mapping? fs files calls key <;> simp

/-- After any calls, the cache has for a path the region that the host supplied last for its key, or
else the contents of the file when the key was first mapped, whatever became of the file since; a
mapping that is made now is such, too. A path that cannot be mapped has nothing there and no file
that can be read, and leaves the cache as it was. A call changes nothing for other keys. Each key
that has something counts once, and those that have a file which is not empty are the cache's
own. -/
theorem first_mapping_wins (reached : after fs files calls = s) :
    (∀ path, (s.cache.get? path).map (·.bytes) = bytes? fs files calls (Path.key path)) ∧
    (∀ path m cache, s.cache.getOrMap (fs.read s.files) path = (.ok m, cache) →
      bytes? fs files (calls ++ [.map path]) (Path.key path) = some m.bytes) ∧
    (∀ path e cache, s.cache.getOrMap (fs.read s.files) path = (.error e, cache) →
      bytes? fs files calls (Path.key path) = none ∧ cache = s.cache ∧
        ∃ f, fs.read s.files path = .error f ∧ e = f.toError path) ∧
    (∀ c path, Path.key c.path ≠ Path.key path →
      (s.call fs c).cache.get? path = s.cache.get? path) ∧
    s.cache.size = (keys calls).countP (fun key => (bytes? fs files calls key).isSome) ∧
    s.cache.ownedCount = (keys calls).countP (ownsFile fs files calls) := by
  subst reached
  have agrees := agrees_after fs files calls
  have bytes_eq (path : Path) : ((after fs files calls).cache.get? path).map (·.bytes) =
      bytes? fs files calls (Path.key path) := by
    rw [← bytes_mapping?, ← agrees.entries]
    rfl
  refine ⟨bytes_eq, fun path m cache h => ?_, fun path e cache h => ?_, fun c path other => ?_,
    agrees.size, agrees.ownedCount⟩
  · have mapped := (agrees_after fs files (calls ++ [.map path])).entries (Path.key path)
    rw [after_concat, CachedFiles.call, CacheCall.cache, h] at mapped
    rw [← bytes_mapping?, ← mapped]
    exact congrArg _ (MapCache.get?_of_getOrMap h)
  · rw [← bytes_eq]
    simp only [MapCache.getOrMap] at h
    split at h
    · cases h
    · rename_i absent
      split at h
      · rename_i f unread
        cases h
        exact ⟨by rw [absent]; rfl, rfl, f, unread, rfl⟩
      · cases h
  · rw [MapCache.get?, CachedFiles.call, MapCache.lookup_call, supplies?_of_ne other,
      reads?_of_ne other]
    exact Option.or_none

/-- A file stays mapped in every spelling when it is gone, also at the root, and an empty one is
nobody's. -/
theorem first_mapping_wins_removed : ∃ files calls s, after FileTree.system files calls = s ∧
    files = { FileTree.empty with workingDirectory := ["w"] } ∧
    calls = [.create "d/a" [1, 2], .create "/t/e" [], .map "d//a", .map "/t/e", .map "/w/d/a",
      .remove "d/a", .host "b" [7], .host "b" [8, 9], .map "b"] ∧
    s.files.read "/w/d/a" = .error .notFound ∧
    (s.cache.get? "d/./a").map (·.bytes) = some [1, 2] ∧
    (s.cache.get? "//w/d/a/").map (·.bytes) = some [1, 2] ∧
    (s.cache.get? "b").map (·.bytes) = some [8, 9] ∧
    s.cache.size = 4 ∧ s.cache.ownedCount = 2 := by
  have reached : after FileTree.system { FileTree.empty with workingDirectory := ["w"] }
      [.create "d/a" [1, 2], .create "/t/e" [], .map "d//a", .map "/t/e", .map "/w/d/a",
        .remove "d/a", .host "b" [7], .host "b" [8, 9], .map "b"] = _ := rfl
  obtain ⟨bytes, -, -, -, size, owned⟩ := first_mapping_wins reached
  refine ⟨_, _, _, rfl, rfl, rfl, by decide +kernel, (bytes _).trans ?_, (bytes _).trans ?_,
    (bytes _).trans ?_, size.trans ?_, owned.trans ?_⟩ <;> decide +kernel

end CachedFiles
end TermStats
