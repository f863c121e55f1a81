import RunEcho.IR

/-!
# Hashing and the root hash

Every file's `Hash` is the SHA-256 of its bytes in lowercase hex, and the root hash is the SHA-256
of one string built from the files: each file's `path:hash`, in sorted path order, joined with
line breaks. SHA-256 itself comes from `crypto/sha256` and is a parameter of the model, as are the
NFC normalizer of `golang.org/x/text` and the Unicode case tables `encoding/json` folds field
names with; they travel together as a `Lib`. Results that need
something of SHA-256 say so in a hypothesis on the inputs at hand, never of the function at
large: no function into 32 bytes is injective.

The root hash reads a map through its sorted keys and the hash at each, so maps that agree on
their `(path, hash)` pairs get the same root hash, whatever else their entries hold
(`computeRootHash_congr`). The converse is a property of the preimage encoding. A `path:hash`
line can be split back at its last `:` because a hash holds none, and the lines split back at the
line breaks as long as no path holds one. A Linux file name may hold one, and then two different
file sets can share a preimage (`computeRootHash_newline_collision`); without one, the preimage
determines the pairs (`rootPreimage_injective`).
-/

/-- A SHA-256 digest: 32 bytes. -/
abbrev Digest := { d : List UInt8 // d.length = 32 }

/-- **The library functions the core calls and the repository does not define**: `sha256.Sum256`
of `crypto/sha256`, `norm.NFC.String` of `golang.org/x/text/unicode/norm`, and the rune case
mapping of the `unicode` tables. -/
structure Lib where
  /-- `sha256.Sum256`. -/
  sha256 : GoString → Digest
  /-- `norm.NFC.String`. -/
  nfc : GoString → GoString
  /-- `unicode.ToUpper(unicode.ToLower(r))`, with which `encoding/json` folds a rune of a field
  name. -/
  caseFold : Nat → Nat

/-- One lowercase hex digit, `0`–`9` then `a`–`f`. -/
def hexDigit (n : Nat) : UInt8 := if n < 10 then UInt8.ofNat (48 + n) else UInt8.ofNat (87 + n)

/-- **`fmt.Sprintf("%x", b)`** of a byte slice: two lowercase hex digits per byte. -/
def hexEncode (b : List UInt8) : GoString :=
  b.flatMap fun x => [hexDigit (x.toNat / 16), hexDigit (x.toNat % 16)]

/-- **`HashBytes`**. -/
def hashBytes (lib : Lib) (data : GoString) : GoString := hexEncode (lib.sha256 data).val

/-- **`HashFile`**: the hash of the file's bytes. `content` is what reading the file returned,
`none` when it could not be opened or read. -/
def hashFile (lib : Lib) (content : Option GoString) : Except String GoString :=
  match content with
  | some data => .ok (hashBytes lib data)
  | none => .error "failed to open file"

/-- A lowercase hex digit. -/
def isLowerHex (b : UInt8) : Bool := (48 ≤ b && b ≤ 57) || (97 ≤ b && b ≤ 102)

/-- **A well-formed hash**: 64 lowercase hex digits. -/
def IsHexDigest (h : GoString) : Prop := h.length = 64 ∧ ∀ b ∈ h, isLowerHex b = true

instance (h : GoString) : Decidable (IsHexDigest h) := inferInstanceAs (Decidable (_ ∧ _))

theorem isLowerHex_hexDigit : ∀ n, n < 16 → isLowerHex (hexDigit n) = true := by decide

/-- **`HashBytes` returns a well-formed hash**, whatever SHA-256 computes. -/
theorem hashBytes_isHexDigest (lib : Lib) (data : GoString) : IsHexDigest (hashBytes lib data) := by
  have hlen : ∀ l : List UInt8, (hexEncode l).length = 2 * l.length := by
    intro l
    induction l with
    | nil => rfl
    | cons x l ih => simp [hexEncode, List.flatMap_cons] at ih ⊢; omega
  refine ⟨by rw [hashBytes, hlen, (lib.sha256 data).2], fun b hb => ?_⟩
  obtain ⟨x, -, hx⟩ := List.mem_flatMap.mp hb
  rcases List.mem_pair.mp hx with rfl | rfl
  · exact isLowerHex_hexDigit _ (Nat.div_lt_of_lt_mul (by have : x.toNat < 256 := x.toNat_lt_size; omega))
  · exact isLowerHex_hexDigit _ (Nat.mod_lt _ (by decide))

theorem colon_not_mem_of_isHexDigest {h : GoString} (hh : IsHexDigest h) : 58 ∉ h :=
  fun hm => absurd (hh.2 58 hm) (by decide)

theorem newline_not_mem_of_isHexDigest {h : GoString} (hh : IsHexDigest h) : 10 ∉ h :=
  fun hm => absurd (hh.2 10 hm) (by decide)

/-! ## The root hash -/

/-- A file's line in the root hash's preimage: `path:hash`. -/
def entryLine (path hash : GoString) : GoString := path ++ 58 :: hash

/-- **The preimage of the root hash**: each file's `path:hash`, in `sort.Strings` order of the
paths, joined with line breaks and with none after the last. -/
def rootPreimage (files : FileMap) : GoString :=
  GoString.join ((FileMap.sortedKeys files).map fun path => entryLine path (files.get path).hash) 10

/-- **`ComputeRootHash`**: the hash of the empty string for no files, the hash of the preimage
otherwise. -/
def computeRootHash (lib : Lib) (files : FileMap) : GoString :=
  if files.keys.card = 0 then hashBytes lib [] else hashBytes lib (rootPreimage files)

/-- The preimage is empty exactly when there are no files: every line holds a `:`. -/
theorem rootPreimage_eq_nil {files : FileMap} :
    rootPreimage files = [] ↔ FileMap.sortedKeys files = [] := by
  unfold rootPreimage
  cases h : FileMap.sortedKeys files with
  | nil => simp [GoString.join, List.intercalate]
  | cons p ps =>
    simp only [List.map_cons, reduceCtorEq, iff_false]
    exact GoString.join_cons_ne_nil _ _ (by simp [entryLine])

/-- The special case is the general one: with no files the preimage is empty. -/
theorem computeRootHash_eq (lib : Lib) (files : FileMap) :
    computeRootHash lib files = hashBytes lib (rootPreimage files) := by
  unfold computeRootHash
  split
  · next h =>
    rw [Finset.card_eq_zero, ← FileMap.sortedKeys_eq_nil, ← rootPreimage_eq_nil] at h
    rw [h]
  · rfl

/-- **The preimage reads only paths and hashes.** -/
theorem rootPreimage_congr {m₁ m₂ : FileMap} (h : ∀ k, FileMap.hashAt m₁ k = FileMap.hashAt m₂ k) :
    rootPreimage m₁ = rootPreimage m₂ := by
  have hkeys : ∀ k, k ∈ m₁ ↔ k ∈ m₂ := fun k => by
    rw [FileMap.mem_iff_hashAt, FileMap.mem_iff_hashAt, h]
  unfold rootPreimage
  rw [FileMap.sortedKeys_congr hkeys]
  congr 1
  refine List.map_congr_left fun p hp => ?_
  have hp₂ := FileMap.mem_sortedKeys.mp hp
  have hp₁ := (hkeys p).mpr hp₂
  have e₁ := (FileMap.hashAt_eq_some hp₁).mpr rfl
  rw [h, FileMap.hashAt_eq_some hp₂] at e₁
  rw [e₁]

/-- **Maps with the same `(path, hash)` pairs have the same root hash**, whatever order Go
ranges over them in and whatever else their entries hold. -/
theorem computeRootHash_congr (lib : Lib) {m₁ m₂ : FileMap}
    (h : ∀ k, FileMap.hashAt m₁ k = FileMap.hashAt m₂ k) :
    computeRootHash lib m₁ = computeRootHash lib m₂ := by
  rw [computeRootHash_eq, computeRootHash_eq, rootPreimage_congr h]

/-! ## When the preimage determines the files -/

/-- **The maps the preimage can tell apart**: no key holds a line break, and every hash is
well formed. -/
def Framed (m : FileMap) : Prop :=
  (∀ k ∈ m, 10 ∉ k) ∧ ∀ k e, m.lookup k = some e → IsHexDigest e.hash

/-- A line splits back at its last `:`, because what follows holds none. -/
theorem append_cons_inj_of_not_mem {c : UInt8} {a b a' b' : GoString} (hb : c ∉ b) (hb' : c ∉ b')
    (h : a ++ c :: b = a' ++ c :: b') : a = a' ∧ b = b' := by
  induction a generalizing a' with
  | nil =>
    cases a' with
    | nil => exact ⟨rfl, (List.cons.inj h).2⟩
    | cons x a' =>
      simp only [List.nil_append, List.cons_append, List.cons.injEq] at h
      obtain ⟨rfl, rfl⟩ := h
      exact absurd (List.mem_append_right _ (List.mem_cons_self _ _)) hb
  | cons x a ih =>
    cases a' with
    | nil =>
      simp only [List.nil_append, List.cons_append, List.cons.injEq] at h
      obtain ⟨rfl, rfl⟩ := h
      exact absurd (List.mem_append_right _ (List.mem_cons_self _ _)) hb'
    | cons y a' =>
      simp only [List.cons_append, List.cons.injEq] at h
      obtain ⟨rfl, h⟩ := h
      exact (ih h).imp_left (congrArg _)

/-- Lists mapped by two functions that agree only where their arguments and a second reading
agree are equal lists, read alike. -/
theorem eq_of_map_eq_map {α β γ : Type} {f₁ f₂ : α → β} (g₁ g₂ : α → γ) {l₁ l₂ : List α}
    (hf : ∀ x ∈ l₁, ∀ y ∈ l₂, f₁ x = f₂ y → x = y ∧ g₁ x = g₂ y) (h : l₁.map f₁ = l₂.map f₂) :
    l₁ = l₂ ∧ ∀ x ∈ l₁, g₁ x = g₂ x := by
  induction l₁ generalizing l₂ with
  | nil => exact ⟨(List.map_eq_nil_iff.mp h.symm).symm, by simp⟩
  | cons x l₁ ih =>
    cases l₂ with
    | nil => simp at h
    | cons y l₂ =>
    obtain ⟨hxy, hl⟩ := List.cons.inj h
    obtain ⟨rfl, hg⟩ := hf x (List.mem_cons_self _ _) y (List.mem_cons_self _ _) hxy
    obtain ⟨rfl, hgs⟩ := ih (fun a ha b hb => hf a (List.mem_cons_of_mem _ ha) b
      (List.mem_cons_of_mem _ hb)) hl
    exact ⟨rfl, List.forall_mem_cons.mpr ⟨hg, hgs⟩⟩

/-- **Without line breaks in the paths, the preimage determines the `(path, hash)` pairs.** -/
theorem rootPreimage_injective {m₁ m₂ : FileMap} (hm₁ : Framed m₁) (hm₂ : Framed m₂)
    (h : rootPreimage m₁ = rootPreimage m₂) : ∀ k, FileMap.hashAt m₁ k = FileMap.hashAt m₂ k := by
  -- the lines hold no line break, and no line is empty
  have hline : ∀ {m : FileMap}, Framed m → ∀ l ∈ (FileMap.sortedKeys m).map
      (fun p => entryLine p (m.get p).hash), 10 ∉ l := by
    intro m hm l hl
    obtain ⟨p, hp, rfl⟩ := List.mem_map.mp hl
    have hpm := FileMap.mem_sortedKeys.mp hp
    obtain ⟨e, he⟩ := Finmap.mem_iff.mp hpm
    simp only [entryLine, FileMap.get, he, Option.getD_some, List.mem_append, List.mem_cons,
      not_or]
    exact ⟨hm.1 p hpm, by decide, newline_not_mem_of_isHexDigest (hm.2 p e he)⟩
  have hlines : (FileMap.sortedKeys m₁).map (fun p => entryLine p (m₁.get p).hash) =
      (FileMap.sortedKeys m₂).map (fun p => entryLine p (m₂.get p).hash) := by
    by_cases h₁ : FileMap.sortedKeys m₁ = []
    · rw [h₁, (rootPreimage_eq_nil.mp (h ▸ rootPreimage_eq_nil.mpr h₁))]
      rfl
    · have h₂ : FileMap.sortedKeys m₂ ≠ [] := fun h₂ =>
        h₁ (rootPreimage_eq_nil.mp (h.trans (rootPreimage_eq_nil.mpr h₂)))
      unfold rootPreimage GoString.join at h
      rw [← List.splitOn_intercalate _ 10 (hline hm₁) (by simpa using h₁), h,
        List.splitOn_intercalate _ 10 (hline hm₂) (by simpa using h₂)]
  obtain ⟨hkeys, hhash⟩ := eq_of_map_eq_map (fun p => (m₁.get p).hash)
    (fun p => (m₂.get p).hash) (fun x hx y hy hxy => by
      obtain ⟨e₁, he₁⟩ := Finmap.mem_iff.mp (FileMap.mem_sortedKeys.mp hx)
      obtain ⟨e₂, he₂⟩ := Finmap.mem_iff.mp (FileMap.mem_sortedKeys.mp hy)
      simp only [FileMap.get, he₁, he₂, Option.getD_some] at hxy ⊢
      exact append_cons_inj_of_not_mem (colon_not_mem_of_isHexDigest (hm₁.2 x e₁ he₁))
        (colon_not_mem_of_isHexDigest (hm₂.2 y e₂ he₂)) hxy) hlines
  intro k
  by_cases hk : k ∈ m₁
  · have hk₂ : k ∈ m₂ := FileMap.mem_sortedKeys.mp (hkeys ▸ FileMap.mem_sortedKeys.mpr hk)
    rw [(FileMap.hashAt_eq_some hk).mpr rfl, hhash k (FileMap.mem_sortedKeys.mpr hk),
      (FileMap.hashAt_eq_some hk₂).mpr rfl]
  · have hk₂ : k ∉ m₂ := fun hk₂ => hk (FileMap.mem_sortedKeys.mp (hkeys ▸ FileMap.mem_sortedKeys.mpr hk₂))
    simp [FileMap.hashAt, Finmap.lookup_eq_none.mpr hk, Finmap.lookup_eq_none.mpr hk₂]

theorem framed_empty : Framed ∅ :=
  ⟨fun _ hk => absurd hk (Finmap.not_mem_empty), fun _ _ h => by simp at h⟩

/-- An entry whose key has no line break and whose hash is well formed keeps a map framed. -/
theorem Framed.insert {m : FileMap} (hm : Framed m) {k : GoString} {e : FileIR} (hk : 10 ∉ k)
    (he : IsHexDigest e.hash) : Framed (m.insert k e) := by
  refine ⟨fun k' hk' => ?_, fun k' e' h => ?_⟩
  · rcases Finmap.mem_insert.mp hk' with rfl | hk'
    exacts [hk, hm.1 k' hk']
  · by_cases hkk : k' = k
    · subst hkk
      rw [Finmap.lookup_insert, Option.some.injEq] at h
      exact h ▸ he
    · rw [Finmap.lookup_insert_of_ne _ hkk] at h
      exact hm.2 k' e' h

/-- **What the root hash tells apart.** For framed maps, and when SHA-256 does not collide on
their two preimages, two maps have the same root hash exactly when they hold the same
`(path, hash)` pairs. -/
theorem computeRootHash_eq_iff_hashAt (lib : Lib) {m₁ m₂ : FileMap} (hm₁ : Framed m₁)
    (hm₂ : Framed m₂) (hcoll : hashBytes lib (rootPreimage m₁) = hashBytes lib (rootPreimage m₂) →
      rootPreimage m₁ = rootPreimage m₂) :
    computeRootHash lib m₁ = computeRootHash lib m₂ ↔
      ∀ k, FileMap.hashAt m₁ k = FileMap.hashAt m₂ k := by
  refine ⟨fun h => rootPreimage_injective hm₁ hm₂ (hcoll ?_), computeRootHash_congr lib⟩
  rwa [computeRootHash_eq, computeRootHash_eq] at h

/-- A stand-in for SHA-256 that keeps the first 32 bytes of its input, padded with zeros, with an
NFC and a case folding that change nothing. -/
def prefixLib : Lib := ⟨fun d => ⟨(d ++ List.replicate 32 0).take 32, by simp⟩, id, id⟩

/-- A well-formed hash: sixty-four `0`s. -/
def zeroHash : GoString := List.replicate 64 48

/-- An entry with hash `zeroHash` and four empty lists. -/
def zeroEntry : FileIR := ⟨zeroHash, some [], some [], some [], some []⟩

/-- `a.js` alone. -/
def fileA : FileMap := (∅ : FileMap).insert (bytes "a.js") zeroEntry

/-- `b.js` alone. -/
def fileB : FileMap := (∅ : FileMap).insert (bytes "b.js") zeroEntry

theorem computeRootHash_eq_iff_hashAt_fileA_fileB :
    Framed fileA ∧ Framed fileB ∧
      (hashBytes prefixLib (rootPreimage fileA) = hashBytes prefixLib (rootPreimage fileB) →
        rootPreimage fileA = rootPreimage fileB) ∧
      (computeRootHash prefixLib fileA = computeRootHash prefixLib fileB ↔
        ∀ k, FileMap.hashAt fileA k = FileMap.hashAt fileB k) :=
  have hA : Framed fileA := framed_empty.insert (by decide) (by decide)
  have hB : Framed fileB := framed_empty.insert (by decide) (by decide)
  have hcoll : hashBytes prefixLib (rootPreimage fileA) = hashBytes prefixLib (rootPreimage fileB) →
      rootPreimage fileA = rootPreimage fileB := fun h => absurd h (by decide)
  ⟨hA, hB, hcoll, computeRootHash_eq_iff_hashAt prefixLib hA hB hcoll⟩

/-- `a.js` and `b.js`, both with hash `zeroHash`. -/
def twoFiles : FileMap := fileA.insert (bytes "b.js") zeroEntry

/-- One file whose name is `a.js:`, `zeroHash`, a line break and `b.js`: a legal Linux file
name, and a `.js` file. -/
def oneFile : FileMap := (∅ : FileMap).insert (bytes "a.js:" ++ zeroHash ++ 10 :: bytes "b.js") zeroEntry

/-- **Two file sets, one root hash.** The line `a.js:` and the hash, then `b.js:` and the hash, is
also the one line of a file whose name holds the first line and a line break: the preimages are
equal, so the root hashes are, whatever SHA-256 computes. -/
theorem computeRootHash_newline_collision :
    IsHexDigest zeroHash ∧ (∀ lib, computeRootHash lib twoFiles = computeRootHash lib oneFile) ∧
      twoFiles.keys ≠ oneFile.keys :=
  ⟨by decide, fun lib => by
    rw [computeRootHash_eq, computeRootHash_eq, show rootPreimage twoFiles = rootPreimage oneFile by decide],
    by decide⟩
