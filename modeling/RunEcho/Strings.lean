import Mathlib.Data.List.Lex
import Mathlib.Data.List.Sort

/-!
# Go strings, and the `sort` and `strings` functions the core calls

A Go `string` is an immutable sequence of bytes, and nothing makes it valid UTF-8: a file name on
Linux is whatever bytes its directory entry holds, and the parser copies the names it reports out
of the raw bytes of a file. So a string is modelled as a list of bytes, `GoString`, and never as a
Lean `String`, which could not hold the sequences on which the JSON encoder and the normalizer
treat names differently.

Go compares strings bytewise, a string before its proper extensions: the lexicographic order on
lists of bytes. Mathlib orders a list by its elements' `LinearOrder`, and has none on `UInt8`, so
the module starts by giving one, built on core's own `≤` and `<`.

The rest are the library functions the core calls, each under its Go name: `sort.Strings`,
`strings.Index`, `strings.TrimPrefix`, `strings.Split` and `strings.Join` on a one-byte separator,
and `strings.TrimSpace`. A slice of strings is `Slice GoString`, where the nil slice and the empty
one stay apart, since `encoding/json` prints them differently.
-/

/-- Bytes in their numeric order, with core's `≤` and `<` on `UInt8`. -/
instance UInt8.linearOrder : LinearOrder UInt8 where
  le_refl := UInt8.le_refl
  le_trans _ _ _ := UInt8.le_trans
  le_antisymm _ _ h₁ h₂ := UInt8.eq_of_toBitVec_eq (BitVec.le_antisymm h₁ h₂)
  le_total := UInt8.le_total
  lt_iff_le_not_le _ _ := by
    rw [UInt8.not_le]
    exact ⟨fun h => ⟨UInt8.not_lt.mp (UInt8.lt_asymm h), h⟩, And.right⟩
  decidableLE := inferInstance

/-- A Go `string`: a sequence of bytes, not necessarily UTF-8. -/
abbrev GoString := List UInt8

/-- The bytes of a Lean string literal, its UTF-8 encoding: `[]byte("...")`. -/
def bytes (s : String) : GoString := s.toUTF8.data.toList

/-- A Go slice: `none` is the nil slice and `some l` a non-nil one, possibly empty. -/
abbrev Slice (α : Type) := Option (List α)

/-! ## `sort.Strings` -/

/-- **`sort.Strings`.** Go sorts in place with pattern-defeating quicksort. The order is total, so
a list has one sorted permutation (`sortStrings_eq_of_perm`), and insertion sort computes it. -/
def sortStrings (l : List GoString) : List GoString := l.insertionSort (· ≤ ·)

/-- `sort.Strings` on a slice: a nil slice stays nil. -/
def sortSlice (s : Slice GoString) : Slice GoString := s.map sortStrings

theorem sortStrings_sorted (l : List GoString) : (sortStrings l).Sorted (· ≤ ·) :=
  List.sorted_insertionSort _ _

theorem sortStrings_perm (l : List GoString) : (sortStrings l).Perm l :=
  List.perm_insertionSort _ _

@[simp] theorem mem_sortStrings {l : List GoString} {x : GoString} :
    x ∈ sortStrings l ↔ x ∈ l :=
  List.mem_insertionSort _

theorem sortStrings_eq_of_sorted {l : List GoString} (h : l.Sorted (· ≤ ·)) :
    sortStrings l = l :=
  List.Sorted.insertionSort_eq h

/-- **Sorting forgets the order it started from**: what `sort.Strings` returns depends only on
the elements, which is why the keys of a Go map, ranged over in any order, sort to one list. -/
theorem sortStrings_eq_of_perm {l₁ l₂ : List GoString} (h : l₁.Perm l₂) :
    sortStrings l₁ = sortStrings l₂ :=
  List.eq_of_perm_of_sorted ((sortStrings_perm l₁).trans (h.trans (sortStrings_perm l₂).symm))
    (sortStrings_sorted l₁) (sortStrings_sorted l₂)

/-! ## The `strings` package -/

namespace GoString

/-- **`strings.Index`**: where the first occurrence of `sub` in `s` starts. Go's `-1` for no
occurrence is `none`. -/
def index (sub : GoString) (s : GoString) : Option Nat :=
  if sub.isPrefixOf s then some 0
  else match s with
    | [] => none
    | _ :: t => (index sub t).map (· + 1)

/-- **`strings.TrimPrefix`**. -/
def trimPrefix (s pre : GoString) : GoString :=
  if pre.isPrefixOf s then s.drop pre.length else s

/-- **`strings.Split`** on a one-byte separator: every occurrence cuts, and a string without one
is a single piece, the empty string included. -/
def split (s : GoString) (sep : UInt8) : List GoString := s.splitOn sep

/-- **`strings.Join`** with a one-byte separator. -/
def join (parts : List GoString) (sep : UInt8) : GoString := [sep].intercalate parts

theorem join_cons_cons (a b : GoString) (l : List GoString) (sep : UInt8) :
    join (a :: b :: l) sep = a ++ sep :: join (b :: l) sep := by
  simp [join, List.intercalate, List.intersperse_cons_cons]

theorem join_cons_ne_nil {a : GoString} (l : List GoString) (sep : UInt8) (ha : a ≠ []) :
    join (a :: l) sep ≠ [] := by
  cases l <;> simp [join, List.intercalate, List.intersperse, ha]

/-- The UTF-8 encodings of the runes `unicode.IsSpace` reports: the ASCII `\t \n \v \f \r` and
space, U+0085 and U+00A0, and the other `White_Space` runes U+1680, U+2000 to U+200A, U+2028,
U+2029, U+202F, U+205F and U+3000. -/
def spaceEncodings : List GoString :=
  [[9], [10], [11], [12], [13], [32], [0xC2, 0x85], [0xC2, 0xA0], [0xE1, 0x9A, 0x80]] ++
    (List.range 11).map (fun i => [0xE2, 0x80, UInt8.ofNat (0x80 + i)]) ++
    [[0xE2, 0x80, 0xA8], [0xE2, 0x80, 0xA9], [0xE2, 0x80, 0xAF], [0xE2, 0x81, 0x9F],
      [0xE3, 0x80, 0x80]]

/-- `strings.TrimLeftFunc(s, unicode.IsSpace)`, with at most `fuel` runes removed. A space rune's
encoding is valid UTF-8, so the first rune of `s` decodes to a space exactly when `s` starts with
one of `spaceEncodings`. -/
def trimLeftSpace : Nat → GoString → GoString
  | 0, s => s
  | fuel + 1, s =>
    match spaceEncodings.find? (·.isPrefixOf s) with
    | some e => trimLeftSpace fuel (s.drop e.length)
    | none => s

/-- `strings.TrimRightFunc(s, unicode.IsSpace)`, with at most `fuel` runes removed: as on the
left, `utf8.DecodeLastRune` finds a space exactly when `s` ends with one of `spaceEncodings`. -/
def trimRightSpace : Nat → GoString → GoString
  | 0, s => s
  | fuel + 1, s =>
    match spaceEncodings.find? (·.isSuffixOf s) with
    | some e => trimRightSpace fuel (s.take (s.length - e.length))
    | none => s

/-- **`strings.TrimSpace`**: leading, then trailing, Unicode white space removed. Each rune removed
takes at least one byte with it, so `s.length` runes are enough on either side. -/
def trimSpace (s : GoString) : GoString :=
  let t := trimLeftSpace s.length s
  trimRightSpace t.length t

end GoString
