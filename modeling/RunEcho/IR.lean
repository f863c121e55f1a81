import Mathlib.Data.Finmap
import RunEcho.Strings

/-!
# The intermediate representation

The tool's output is one record per repository: a schema version, the root hash, and a map from
each file's normalised path to what was found in it, its `FileIR`. This module holds the types of
`internal/ir/storage.go` and what the rest of the model needs to read a map.

A Go `map` has no order: ranging over it visits its keys in an order the runtime picks afresh on
every run. The model keeps a map as a `Finmap`, a finite map taken up to the order of its
entries, so no definition can depend on an order that Go does not fix. Where the code sorts the
keys it ranged over, `sortedKeys` lifts `sort.Strings` to the quotient, which is possible exactly
because sorting forgets the order it started from (`sortStrings_eq_of_perm`). A nil map and an
empty one behave alike in everything the core does with them, so one `∅` stands for both.
-/

/-- **`ir.FileIR`**: a file's content hash and the four lists its parse produced. -/
structure FileIR where
  /-- The SHA-256 of the file's bytes, in lowercase hex. -/
  hash : GoString
  /-- Import paths. -/
  imports : Slice GoString
  /-- Function names. -/
  functions : Slice GoString
  /-- Class names. -/
  classes : Slice GoString
  /-- Exported names. -/
  exports : Slice GoString
  deriving DecidableEq, Repr

/-- Go's zero `FileIR`: an empty hash and four nil slices. -/
instance : Inhabited FileIR := ⟨⟨[], none, none, none, none⟩⟩

/-- A Go `map[string]FileIR`. -/
abbrev FileMap := Finmap fun _ : GoString => FileIR

/-- A Go `int` on a 64-bit platform. -/
abbrev GoInt := { v : Int // -2 ^ 63 ≤ v ∧ v < 2 ^ 63 }

/-- **`ir.IR`**: the schema version, the root hash, and the files. -/
structure IR where
  /-- The schema version; `Generate` and `Update` write 1. -/
  version : GoInt
  /-- The root hash over the files' paths and hashes. -/
  rootHash : GoString
  /-- The files, by normalised path. -/
  files : FileMap
  deriving DecidableEq

namespace FileMap

/-- `files[path]`: the entry, or the zero `FileIR` when there is none. -/
def get (m : FileMap) (path : GoString) : FileIR := (m.lookup path).getD default

/-- The hash recorded at `path`, if there is an entry. -/
def hashAt (m : FileMap) (path : GoString) : Option GoString := (m.lookup path).map FileIR.hash

/-- **The keys, ranged over and sorted with `sort.Strings`.** Every order `range` can visit them
in sorts to the same list, so the function is well defined on the map. -/
def sortedKeys (m : FileMap) : List GoString :=
  Quotient.liftOn m.keys.val sortStrings fun _ _ h => sortStrings_eq_of_perm h

/-- **What `sortedKeys` lists**: each key once, as a multiset the keys of the map. -/
theorem coe_sortedKeys (m : FileMap) : (sortedKeys m : Multiset GoString) = m.keys.val := by
  unfold sortedKeys
  rcases m.keys with ⟨⟨l⟩, _⟩
  exact Multiset.coe_eq_coe.mpr (sortStrings_perm l)

@[simp] theorem mem_sortedKeys {m : FileMap} {k : GoString} : k ∈ sortedKeys m ↔ k ∈ m := by
  rw [← Multiset.mem_coe, coe_sortedKeys, Finset.mem_val, Finmap.mem_keys]

theorem sortedKeys_nodup (m : FileMap) : (sortedKeys m).Nodup :=
  Multiset.coe_nodup.mp ((coe_sortedKeys m).symm ▸ m.keys.nodup)

theorem sortedKeys_eq_nil {m : FileMap} : sortedKeys m = [] ↔ m.keys = ∅ := by
  rw [← Multiset.coe_eq_zero, coe_sortedKeys, Finset.val_eq_zero]

/-- **Maps with the same keys have the same sorted keys.** -/
theorem sortedKeys_congr {m₁ m₂ : FileMap} (h : ∀ k, k ∈ m₁ ↔ k ∈ m₂) :
    sortedKeys m₁ = sortedKeys m₂ := by
  have : m₁.keys = m₂.keys := Finset.ext fun k => by rw [Finmap.mem_keys, Finmap.mem_keys, h]
  unfold sortedKeys
  rw [this]

theorem mem_iff_hashAt {m : FileMap} {k : GoString} : k ∈ m ↔ (hashAt m k).isSome := by
  simp [hashAt, Finmap.lookup_isSome]

@[simp] theorem hashAt_insert {m : FileMap} {k k' : GoString} {e : FileIR} :
    hashAt (m.insert k e) k' = if k' = k then some e.hash else hashAt m k' := by
  by_cases h : k' = k
  · subst h
    simp [hashAt, Finmap.lookup_insert]
  · simp [hashAt, Finmap.lookup_insert_of_ne _ h, h]

theorem hashAt_eq_some {m : FileMap} {k h : GoString} (hk : k ∈ m) :
    hashAt m k = some h ↔ (get m k).hash = h := by
  obtain ⟨e, he⟩ := Finmap.mem_iff.mp hk
  simp [hashAt, get, he]

end FileMap
