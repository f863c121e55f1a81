import RunEcho.Json.Errors
import RunEcho.Json.Unmarshal

/-!
# Saving and loading the IR

`Save` and `Load` in `internal/ir/storage.go` put the IR through `encoding/json`, by way of the
IR's own `MarshalJSON` and `UnmarshalJSON`.

**Saving.** `MarshalJSON` copies the files into a new map and indents an anonymous struct of the
version, the root hash and that map, under the tags `version`, `root_hash` and `files`. `Save`
calls `json.Marshal`, which compacts what `MarshalJSON` returned: the indentation is spaces and
line breaks between tokens, `Marshal` had escaped the strings the same way before indenting, and
compacting drops exactly those spaces again. So the bytes `Save` writes are the compact encoding
of the struct, `encode` of `IR.toValue`. Neither `MarshalJSON` nor `Marshal` can fail on these
types, and the copy of the map is never nil, so `files` is always an object.

**Loading.** `json.Unmarshal` checks the whole document, then hands the bytes of its one value to
`UnmarshalJSON`, which decodes them into a zero `aux` struct with the same three fields, and on
success copies them into the IR. The value is parsed once here (`unmarshal`). `aux` takes its
fields from the members of an object; `null` leaves it zero; any other value is a type error.

Two results say what the pair does. **What `Save` writes, `Load` reads back, with its strings
made well formed** (`load_save_coerce`): the encoder writes a byte that starts no rune as U+FFFD,
so every string comes back as Go's `string([]rune(s))` of it (`IR.coerce`), and two paths that
differ only there come back as one, the later in sorted order. So an IR comes back as it was
exactly when its strings are well-formed UTF-8. **What `Load` returns has well-formed strings**,
and nothing more: none of the invariants `Generate` establishes is checked, so an empty object
loads as an IR of version 0 with no files and an empty root hash. Together they make `Load` after
`Save` the identity on every IR that `Load` returns.

A nil and an empty `files` map are one `∅` in the model (see `RunEcho.IR`); a Go IR with a nil
map comes back with an empty one.
-/

open Json

/-- **`DefaultIRPath`**, where `Save` writes when it is given no path. -/
def defaultIRPath : GoString := bytes ".ai/ir.json"

/-- A `[]string` as the encoder writes it: `null` when nil, an array of strings otherwise. -/
def sliceValue : Slice GoString → Value
  | none => .null
  | some l => .array (l.map .string)

namespace FileIR

/-- **A `FileIR` as the encoder writes it**: its fields in declaration order, under their tags. -/
def toValue (f : FileIR) : Value :=
  .object [(bytes "hash", .string f.hash), (bytes "imports", sliceValue f.imports),
    (bytes "functions", sliceValue f.functions), (bytes "classes", sliceValue f.classes),
    (bytes "exports", sliceValue f.exports)]

/-- The strings of a file's entry: its hash and the names in its four lists. -/
def strings (f : FileIR) : List GoString :=
  f.hash :: (f.imports.getD [] ++ f.functions.getD [] ++ f.classes.getD [] ++ f.exports.getD [])

/-- **Every string of a file's entry is well-formed UTF-8.** -/
def ValidUTF8 (f : FileIR) : Prop := ∀ s ∈ f.strings, Utf8.Valid s

/-- **A `FileIR` being decoded into**: its hash, and its four slices with their backing arrays. -/
structure DecodeState where
  /-- `Hash`. -/
  hash : GoString
  /-- `Imports`. -/
  imports : SliceState
  /-- `Functions`. -/
  functions : SliceState
  /-- `Classes`. -/
  classes : SliceState
  /-- `Exports`. -/
  exports : SliceState

/-- The zero `FileIR`, from which each entry of the map is decoded. -/
def DecodeState.zero : DecodeState := ⟨[], .nil, .nil, .nil, .nil⟩

/-- The `FileIR` a decode state holds. -/
def DecodeState.toFileIR (st : DecodeState) : FileIR :=
  ⟨st.hash, st.imports.slice, st.functions.slice, st.classes.slice, st.exports.slice⟩

/-- The context of a type error in the field `name` of an entry of the map: the struct `FileIR`,
reached through the field `files` of `aux`. -/
def fieldContext (name : String) : ErrorContext := ⟨"FileIR", "files." ++ name⟩

/-- The field `Hash`. -/
def hashField : StructField DecodeState :=
  ⟨bytes "hash", fun st v => (fun h => { st with hash := h }) <$> decodeString (fieldContext "hash") st.hash v⟩

/-- **A `[]string` field of `FileIR`**, read and written through `get` and `set`. -/
def sliceField (name : String) (get : DecodeState → SliceState)
    (set : DecodeState → SliceState → DecodeState) : StructField DecodeState :=
  ⟨bytes name, fun st v => set st <$> decodeStrings (fieldContext name) (get st) v⟩

/-- The field `Imports`. -/
def importsField : StructField DecodeState :=
  sliceField "imports" DecodeState.imports fun st s => { st with imports := s }

/-- The field `Functions`. -/
def functionsField : StructField DecodeState :=
  sliceField "functions" DecodeState.functions fun st s => { st with functions := s }

/-- The field `Classes`. -/
def classesField : StructField DecodeState :=
  sliceField "classes" DecodeState.classes fun st s => { st with classes := s }

/-- The field `Exports`. -/
def exportsField : StructField DecodeState :=
  sliceField "exports" DecodeState.exports fun st s => { st with exports := s }

/-- **`FileIR`'s fields**, in declaration order. -/
def fields : List (StructField DecodeState) :=
  [hashField, importsField, functionsField, classesField, exportsField]

/-- **An entry of the `files` map**, decoded from the zero `FileIR`: `null` leaves it zero. -/
def decode (lib : Lib) : Value → Except String FileIR
  | .null => .ok default
  | .object ms => DecodeState.toFileIR <$> decodeStruct lib fields .zero ms
  | v => .error (typeError v.kindName "ir.FileIR" ⟨"", "files"⟩)

end FileIR

/-- **Every path of the map and every string of its entries is well-formed UTF-8.** -/
def FileMap.ValidUTF8 (m : FileMap) : Prop :=
  ∀ k f, m.lookup k = some f → Utf8.Valid k ∧ f.ValidUTF8

namespace IR

/-- **The anonymous struct `MarshalJSON` builds**, as the value it encodes as: the files' map
encodes with its keys sorted. -/
def toValue (ir : IR) : Value :=
  .object [(bytes "version", .number (appendInt ir.version)), (bytes "root_hash", .string ir.rootHash),
    (bytes "files", .object ((FileMap.sortedKeys ir.files).map fun k => (k, (ir.files.get k).toValue)))]

/-- **`json.Marshal(ir)`**: the compact encoding of what `MarshalJSON` indents. -/
def marshal (ir : IR) : GoString := encode ir.toValue

/-- **`Save`**: the file it asks `os.WriteFile` to write, `DefaultIRPath` for an empty path, and
the bytes it writes there. -/
def save (ir : IR) (path : GoString) : GoString × GoString :=
  (if path = [] then defaultIRPath else path, ir.marshal)

@[simp] theorem save_snd (ir : IR) (path : GoString) : (ir.save path).2 = ir.marshal := rfl

/-- **Every string of the IR is well-formed UTF-8**: the root hash, the paths, and every entry. -/
def ValidUTF8 (ir : IR) : Prop := Utf8.Valid ir.rootHash ∧ FileMap.ValidUTF8 ir.files

/-- The type of `UnmarshalJSON`'s `aux` struct, as `reflect` prints it. -/
def auxType : String :=
  "struct \x7b Version int \"json:\\\"version\\\"\"; RootHash string \"json:\\\"root_hash\\\"\"; " ++
    "Files map[string]ir.FileIR \"json:\\\"files\\\"\" \x7d"

/-- **The members of an object decoded into the `files` map**: each entry from a zero `FileIR`,
stored under its key over what the map held. -/
def decodeEntries (lib : Lib) : FileMap → List (GoString × Value) → Except String FileMap
  | m, [] => .ok m
  | m, (k, v) :: ms => FileIR.decode lib v >>= fun f => decodeEntries lib (m.insert k f) ms

/-- **`decodeState.object` into `map[string]FileIR`**, with `literalStore` of `null`, which makes
the map nil. -/
def decodeFiles (lib : Lib) (m : FileMap) : Value → Except String FileMap
  | .null => .ok ∅
  | .object ms => decodeEntries lib m ms
  | v => .error (typeError v.kindName "map[string]ir.FileIR" ⟨"", "files"⟩)

/-- The field `Version` of `aux`. -/
def versionField : StructField IR :=
  ⟨bytes "version", fun ir v => (fun n => { ir with version := n }) <$> decodeInt ⟨"", "version"⟩ ir.version v⟩

/-- The field `RootHash` of `aux`. -/
def rootHashField : StructField IR :=
  ⟨bytes "root_hash", fun ir v =>
    (fun h => { ir with rootHash := h }) <$> decodeString ⟨"", "root_hash"⟩ ir.rootHash v⟩

/-- The field `Files` of `aux`. -/
def filesField (lib : Lib) : StructField IR :=
  ⟨bytes "files", fun ir v => (fun m => { ir with files := m }) <$> decodeFiles lib ir.files v⟩

/-- **`aux`'s fields**, in declaration order. -/
def fields (lib : Lib) : List (StructField IR) := [versionField, rootHashField, filesField lib]

/-- The zero `aux`: version 0, an empty root hash and a nil map. -/
def zero : IR := ⟨⟨0, by decide⟩, [], ∅⟩

/-- **`UnmarshalJSON`** on the value `json.Unmarshal` checked. -/
def decodeAux (lib : Lib) : Value → Except String IR
  | .null => .ok zero
  | .object ms => decodeStruct lib (fields lib) zero ms
  | v => .error (typeError v.kindName auxType .top)

/-- **`json.Unmarshal(data, &ir)`**. -/
def unmarshal (lib : Lib) (data : GoString) : Except String IR := parseDocument data >>= decodeAux lib

/-- **`Load`**, given what `os.ReadFile` returned for the path. -/
def load (lib : Lib) (read : Except String GoString) : Except String IR :=
  match read with
  | .error e => .error ("failed to read IR file: " ++ e)
  | .ok data => (unmarshal lib data).mapError ("failed to unmarshal IR: " ++ ·)

theorem load_ok {lib : Lib} {data : GoString} {ir : IR} :
    load lib (.ok data) = .ok ir ↔ unmarshal lib data = .ok ir := by
  rw [load]
  cases unmarshal lib data <;> simp [Except.mapError]

end IR

/-! ## What `Save` writes, `Load` reads back -/

/-- **An entry as `Load` reads back what `Save` wrote**: its hash and every name as Go's
`string([]rune(s))`, each byte that starts no valid encoding made U+FFFD. -/
def FileIR.coerce (f : FileIR) : FileIR :=
  ⟨Utf8.coerce f.hash, f.imports.map (List.map Utf8.coerce), f.functions.map (List.map Utf8.coerce),
    f.classes.map (List.map Utf8.coerce), f.exports.map (List.map Utf8.coerce)⟩

/-- **An IR as `Load` reads back what `Save` wrote**: the root hash, every path and every entry
coerced, and the map rebuilt by storing the entries in the order `Save` wrote them, the paths'
sorted order, so that of two paths that coerce to one path the later wins. -/
def IR.coerce (ir : IR) : IR :=
  ⟨ir.version, Utf8.coerce ir.rootHash, (FileMap.sortedKeys ir.files).foldl
    (fun m k => m.insert (Utf8.coerce k) (ir.files.get k).coerce) ∅⟩

section AllStrings
variable {ps pn : GoString → Prop}

theorem allElems_strings : ∀ {l : List GoString}, (∀ s ∈ l, ps s) →
    Value.AllElems ps pn (l.map .string)
  | [], _ => trivial
  | s :: _, h => ⟨h s (List.mem_cons_self _ _), allElems_strings fun x hx => h x (List.mem_cons_of_mem _ hx)⟩

theorem allMembers_map {g : GoString → Value} : ∀ {ks : List GoString},
    (∀ k ∈ ks, ps k ∧ (g k).All ps pn) → Value.AllMembers ps pn (ks.map fun k => (k, g k))
  | [], _ => trivial
  | k :: _, h =>
    ⟨(h k (List.mem_cons_self _ _)).1, (h k (List.mem_cons_self _ _)).2,
      allMembers_map fun x hx => h x (List.mem_cons_of_mem _ hx)⟩

theorem sliceValue_all {s : Slice GoString} (h : ∀ x ∈ s.getD [], ps x) : (sliceValue s).All ps pn := by
  cases s with
  | none => trivial
  | some l => exact allElems_strings h

end AllStrings

theorem FileIR.toValue_encodable (f : FileIR) : f.toValue.Encodable :=
  have hslice (s : Slice GoString) : (sliceValue s).Encodable := sliceValue_all fun _ _ => trivial
  ⟨trivial, trivial, trivial, hslice _, trivial, hslice _, trivial, hslice _, trivial, hslice _, trivial⟩

/-- **Every number `MarshalJSON` writes is an integer literal**: the version. -/
theorem IR.toValue_encodable (ir : IR) : ir.toValue.Encodable :=
  ⟨trivial, ⟨ir.version, rfl⟩, trivial, trivial, trivial,
    allMembers_map fun k _ => ⟨trivial, FileIR.toValue_encodable (ir.files.get k)⟩, trivial⟩

theorem elemsDepth_strings : ∀ l : List GoString, Value.elemsDepth (l.map .string) = 0
  | [] => rfl
  | _ :: l => by
    rw [List.map_cons, Value.elemsDepth, elemsDepth_strings l]
    rfl

theorem sliceValue_depth (s : Slice GoString) : (sliceValue s).depth ≤ 1 := by
  cases s with
  | none => exact Nat.zero_le _
  | some l => simp only [sliceValue, Value.depth, elemsDepth_strings, le_refl]

theorem FileIR.toValue_depth (f : FileIR) : f.toValue.depth ≤ 2 :=
  Nat.succ_le_succ <| max_le (Nat.zero_le _) <| max_le (sliceValue_depth _) <|
    max_le (sliceValue_depth _) <| max_le (sliceValue_depth _) <| max_le (sliceValue_depth _) (Nat.zero_le _)

theorem membersDepth_map_le {g : GoString → Value} {d : Nat} (h : ∀ k, (g k).depth ≤ d) :
    ∀ ks : List GoString, Value.membersDepth (ks.map fun k => (k, g k)) ≤ d
  | [] => Nat.zero_le _
  | k :: ks => max_le (h k) (membersDepth_map_le h ks)

theorem IR.toValue_depth (ir : IR) : ir.toValue.depth ≤ maxNestingDepth := by
  have := membersDepth_map_le (fun k => FileIR.toValue_depth (ir.files.get k)) (FileMap.sortedKeys ir.files)
  simp only [IR.toValue, Value.depth, Value.membersDepth, maxNestingDepth]
  omega

/-! ### The encoding, as the decoder reads it back -/

theorem coerceElems_strings : ∀ l : List GoString,
    Value.coerceElems (l.map .string) = (l.map Utf8.coerce).map .string
  | [] => rfl
  | _ :: l => congrArg _ (coerceElems_strings l)

theorem sliceValue_coerce (s : Slice GoString) :
    (sliceValue s).coerce = sliceValue (s.map (List.map Utf8.coerce)) := by
  cases s with
  | none => rfl
  | some l => exact congrArg Value.array (coerceElems_strings l)

theorem coerceMembers_map (g : GoString → Value) : ∀ ks : List GoString,
    Value.coerceMembers (ks.map fun k => (k, g k)) = ks.map fun k => (Utf8.coerce k, (g k).coerce)
  | [] => rfl
  | _ :: ks => congrArg _ (coerceMembers_map g ks)

/-- The tags `MarshalJSON` writes are ASCII, which `Utf8.coerce` leaves as they are. -/
theorem coerce_ascii {s : GoString} (h : ∀ b ∈ s, b.toNat < 0x80) : Utf8.coerce s = s :=
  Utf8.coerce_of_valid (Utf8.valid_of_ascii h)

theorem FileIR.toValue_coerce (f : FileIR) : f.toValue.coerce = f.coerce.toValue := by
  simp (disch := decide) only [FileIR.toValue, Value.coerce_string, Value.coerce_object,
    Value.coerceMembers_cons, Value.coerceMembers_nil, sliceValue_coerce, coerce_ascii]
  rfl

theorem IR.toValue_coerce (ir : IR) : ir.toValue.coerce =
    .object [(bytes "version", .number (appendInt ir.version)),
      (bytes "root_hash", .string (Utf8.coerce ir.rootHash)), (bytes "files", .object
        ((FileMap.sortedKeys ir.files).map fun k => (Utf8.coerce k, (ir.files.get k).coerce.toValue)))] := by
  simp (disch := decide) only [IR.toValue, Value.coerce_number, Value.coerce_string, Value.coerce_object,
    Value.coerceMembers_cons, Value.coerceMembers_nil, coerceMembers_map, FileIR.toValue_coerce, coerce_ascii]

theorem decodeStrings_sliceValue (ctx : ErrorContext) (st : SliceState) (s : Slice GoString) :
    ∃ backing, decodeStrings ctx st (sliceValue s) = .ok ⟨s, backing⟩ := by
  cases s with
  | none => exact ⟨[], rfl⟩
  | some l => exact decodeStrings_array ctx st l

/-- **The decoder reads an entry back from its encoding**, whatever its strings. -/
theorem FileIR.decode_toValue (lib : Lib) (f : FileIR) : FileIR.decode lib f.toValue = .ok f := by
  open FileIR in
  obtain ⟨b₁, h₁⟩ := decodeStrings_sliceValue (fieldContext "imports") .nil f.imports
  obtain ⟨b₂, h₂⟩ := decodeStrings_sliceValue (fieldContext "functions") .nil f.functions
  obtain ⟨b₃, h₃⟩ := decodeStrings_sliceValue (fieldContext "classes") .nil f.classes
  obtain ⟨b₄, h₄⟩ := decodeStrings_sliceValue (fieldContext "exports") .nil f.exports
  have e₀ : lookupField lib fields (bytes "hash") = some hashField := rfl
  have e₁ : lookupField lib fields (bytes "imports") = some importsField := rfl
  have e₂ : lookupField lib fields (bytes "functions") = some functionsField := rfl
  have e₃ : lookupField lib fields (bytes "classes") = some classesField := rfl
  have e₄ : lookupField lib fields (bytes "exports") = some exportsField := rfl
  simp only [decode, toValue, decodeStruct_cons_of_lookup e₀, decodeStruct_cons_of_lookup e₁,
    decodeStruct_cons_of_lookup e₂, decodeStruct_cons_of_lookup e₃, decodeStruct_cons_of_lookup e₄,
    hashField, importsField, functionsField, classesField, exportsField, sliceField, decodeString,
    DecodeState.zero, Except.map_ok, Except.ok_bind, h₁, h₂, h₃, h₄]
  rfl

theorem decodeEntries_toValue (lib : Lib) (key : GoString → GoString) (g : GoString → FileIR) :
    ∀ (m : FileMap) (ks : List GoString), IR.decodeEntries lib m (ks.map fun k => (key k, (g k).toValue)) =
      .ok (ks.foldl (fun m k => m.insert (key k) (g k)) m)
  | _, [] => rfl
  | m, k :: ks => by
    rw [List.map_cons, IR.decodeEntries, FileIR.decode_toValue, Except.ok_bind,
      decodeEntries_toValue lib key g _ ks]
    rfl

/-- **The decoder reads an IR back from its encoding with its strings coerced.** -/
theorem IR.decodeAux_toValue_coerce (lib : Lib) (ir : IR) :
    IR.decodeAux lib ir.toValue.coerce = .ok ir.coerce := by
  open IR in
  have e₀ : lookupField lib (fields lib) (bytes "version") = some versionField := rfl
  have e₁ : lookupField lib (fields lib) (bytes "root_hash") = some rootHashField := rfl
  have e₂ : lookupField lib (fields lib) (bytes "files") = some (filesField lib) := rfl
  rw [toValue_coerce]
  simp only [decodeAux, decodeStruct_cons_of_lookup e₀, decodeStruct_cons_of_lookup e₁,
    decodeStruct_cons_of_lookup e₂, versionField, rootHashField, filesField, decodeInt_appendInt,
    decodeString, decodeFiles, decodeEntries_toValue, zero, Except.map_ok, Except.ok_bind]
  rfl

/-- **`json.Unmarshal` reads back what `json.Marshal` wrote, for every IR**, with its strings
coerced. -/
theorem IR.unmarshal_marshal_coerce (lib : Lib) (ir : IR) : IR.unmarshal lib ir.marshal = .ok ir.coerce := by
  rw [IR.unmarshal, IR.marshal, parseDocument_encode_coerce (IR.toValue_encodable ir) (IR.toValue_depth ir)]
  exact IR.decodeAux_toValue_coerce lib ir

/-! ### Well-formed strings come back as they are -/

theorem lookup_foldl_insert (g : GoString → FileIR) (x : GoString) :
    ∀ (m : FileMap) (ks : List GoString),
      (ks.foldl (fun m k => m.insert k (g k)) m).lookup x = if x ∈ ks then some (g x) else m.lookup x
  | m, [] => by simp
  | m, k :: ks => by
    rw [List.foldl_cons, lookup_foldl_insert g x _ ks]
    by_cases hk : x = k
    · subst hk
      simp
    · simp [hk, Finmap.lookup_insert_of_ne _ hk]

/-- **Inserting each key of a map with its entry rebuilds the map**, as decoding the sorted
entries does. -/
theorem foldl_insert_sortedKeys (m : FileMap) :
    (FileMap.sortedKeys m).foldl (fun acc k => acc.insert k (m.get k)) ∅ = m := by
  refine Finmap.ext_lookup fun x => ?_
  rw [lookup_foldl_insert]
  by_cases hx : x ∈ m
  · obtain ⟨f, hf⟩ := Finmap.mem_iff.mp hx
    rw [if_pos (FileMap.mem_sortedKeys.mpr hx), FileMap.get, hf]
    rfl
  · rw [if_neg (mt FileMap.mem_sortedKeys.mp hx)]
    exact (Finmap.lookup_eq_none.mpr hx).symm

theorem map_coerce_of_valid {s : Slice GoString} (h : ∀ x ∈ s.getD [], Utf8.Valid x) :
    s.map (List.map Utf8.coerce) = s := by
  cases s with
  | none => rfl
  | some l =>
    exact congrArg some ((List.map_congr_left fun x hx => Utf8.coerce_of_valid (h x hx)).trans (List.map_id l))

theorem FileIR.coerce_of_validUTF8 {f : FileIR} (h : f.ValidUTF8) : f.coerce = f := by
  have hs : ∀ {s : Slice GoString}, (∀ x ∈ s.getD [], x ∈ f.strings) → s.map (List.map Utf8.coerce) = s :=
    fun hs => map_coerce_of_valid fun x hx => h x (hs x hx)
  rw [FileIR.coerce, Utf8.coerce_of_valid (h _ (List.mem_cons_self _ _)), hs ?_, hs ?_, hs ?_, hs ?_] <;>
  intro x hx <;> simp [FileIR.strings, hx]

/-- **Coercing leaves an IR whose strings are well formed as it is.** -/
theorem IR.coerce_of_validUTF8 {ir : IR} (h : ir.ValidUTF8) : ir.coerce = ir := by
  have hfiles : (FileMap.sortedKeys ir.files).foldl
      (fun m k => m.insert (Utf8.coerce k) (ir.files.get k).coerce) ∅ = ir.files := by
    refine (List.foldl_ext _ (fun m k => m.insert k (ir.files.get k)) _ fun m k hk => ?_).trans
      (foldl_insert_sortedKeys ir.files)
    dsimp only
    obtain ⟨f, hf⟩ := Finmap.mem_iff.mp (FileMap.mem_sortedKeys.mp hk)
    obtain ⟨hkv, hfv⟩ := h.2 k f hf
    rw [FileMap.get, hf, Option.getD_some, Utf8.coerce_of_valid hkv, FileIR.coerce_of_validUTF8 hfv]
  rw [IR.coerce, Utf8.coerce_of_valid h.1, hfiles]

theorem IR.unmarshal_marshal (lib : Lib) {ir : IR} (h : ir.ValidUTF8) : IR.unmarshal lib ir.marshal = .ok ir := by
  rw [IR.unmarshal_marshal_coerce, IR.coerce_of_validUTF8 h]

theorem lookup_foldl_insert_of_eq_some {key : GoString → GoString} {g : GoString → FileIR} {x : GoString}
    {e : FileIR} : ∀ (m : FileMap) (ks : List GoString),
      (ks.foldl (fun m k => m.insert (key k) (g k)) m).lookup x = some e →
        m.lookup x = some e ∨ ∃ k ∈ ks, key k = x ∧ g k = e
  | _, [], h => .inl h
  | m, k :: ks, h => by
    rcases lookup_foldl_insert_of_eq_some _ ks h with h | ⟨k', hk', h'⟩
    · by_cases hx : x = key k
      · subst hx
        rw [Finmap.lookup_insert] at h
        exact .inr ⟨k, List.mem_cons_self _ _, rfl, Option.some.inj h⟩
      · rw [Finmap.lookup_insert_of_ne _ hx] at h
        exact .inl h
    · exact .inr ⟨k', List.mem_cons_of_mem _ hk', h'⟩

/-- **Every entry of a coerced IR is an entry of the IR, coerced, at its path coerced.** -/
theorem IR.lookup_coerce {ir : IR} {x : GoString} {e : FileIR} (h : ir.coerce.files.lookup x = some e) :
    ∃ k f, ir.files.lookup k = some f ∧ Utf8.coerce k = x ∧ f.coerce = e := by
  rcases lookup_foldl_insert_of_eq_some _ _ h with h | ⟨k, hk, hkx, rfl⟩
  · cases h
  · obtain ⟨f, hf⟩ := Finmap.mem_iff.mp (FileMap.mem_sortedKeys.mp hk)
    exact ⟨k, f, hf, hkx, by rw [FileMap.get, hf]; rfl⟩

/-! ## What `Load` returns -/

/-- Every string of a decode state is well formed, in the slices' backing arrays too. -/
def FileIR.DecodeState.Valid (st : FileIR.DecodeState) : Prop :=
  Utf8.Valid st.hash ∧ st.imports.Valid ∧ st.functions.Valid ∧ st.classes.Valid ∧ st.exports.Valid

namespace FileIR

theorem DecodeState.valid_zero : DecodeState.zero.Valid :=
  ⟨Utf8.valid_nil, SliceState.valid_nil, SliceState.valid_nil, SliceState.valid_nil, SliceState.valid_nil⟩

theorem DecodeState.Valid.toFileIR {st : DecodeState} (h : st.Valid) : st.toFileIR.ValidUTF8 := by
  intro s hs
  simp only [DecodeState.toFileIR, strings, List.mem_cons, List.mem_append] at hs
  rcases hs with rfl | (((hs | hs) | hs) | hs)
  exacts [h.1, h.2.1.1 s hs, h.2.2.1.1 s hs, h.2.2.2.1.1 s hs, h.2.2.2.2.1 s hs]

theorem sliceField_preserves {name : String} {get : DecodeState → SliceState}
    {set : DecodeState → SliceState → DecodeState} {st st' : DecodeState} {v : Value}
    (h : (sliceField name get set).store st v = .ok st') (hget : ∀ st, st.Valid → (get st).Valid)
    (hset : ∀ st s, st.Valid → s.Valid → (set st s).Valid) (hst : st.Valid) (hv : v.StringsValid) :
    st'.Valid := by
  obtain ⟨s, hs, rfl⟩ := Except.map_eq_ok h
  exact hset st s hst (decodeStrings_valid (hget st hst) hv hs)

/-- **Every field's store keeps a decode state's strings well formed.** -/
theorem fields_preserve : ∀ f ∈ fields, ∀ st v st', DecodeState.Valid st → v.StringsValid →
    f.store st v = .ok st' → DecodeState.Valid st' := by
  simp only [fields, List.mem_cons, List.mem_singleton, List.not_mem_nil, or_false]
  rintro f (rfl | rfl | rfl | rfl | rfl) st v st' hst hv h
  · obtain ⟨s, hs, rfl⟩ := Except.map_eq_ok h
    exact ⟨decodeString_valid hst.1 hv hs, hst.2⟩
  · exact sliceField_preserves h (fun _ h => h.2.1) (fun _ _ h hs => ⟨h.1, hs, h.2.2⟩) hst hv
  · exact sliceField_preserves h (fun _ h => h.2.2.1) (fun _ _ h hs => ⟨h.1, h.2.1, hs, h.2.2.2⟩) hst hv
  · exact sliceField_preserves h (fun _ h => h.2.2.2.1)
      (fun _ _ h hs => ⟨h.1, h.2.1, h.2.2.1, hs, h.2.2.2.2⟩) hst hv
  · exact sliceField_preserves h (fun _ h => h.2.2.2.2)
      (fun _ _ h hs => ⟨h.1, h.2.1, h.2.2.1, h.2.2.2.1, hs⟩) hst hv

theorem decode_valid {lib : Lib} {v : Value} {f : FileIR} (hv : v.StringsValid)
    (h : decode lib v = .ok f) : f.ValidUTF8 := by
  unfold decode at h
  split at h
  · cases h
    intro s hs
    simp only [strings, default, Option.getD_none, List.append_nil, List.mem_singleton] at hs
    exact hs ▸ Utf8.valid_nil
  · obtain ⟨st, hst, rfl⟩ := Except.map_eq_ok h
    exact (decodeStruct_preserves DecodeState.Valid fields_preserve DecodeState.valid_zero hv hst).toFileIR
  · cases h

end FileIR

theorem FileMap.validUTF8_empty : FileMap.ValidUTF8 ∅ := fun _ _ h => by cases h

theorem FileMap.ValidUTF8.insert {m : FileMap} {k : GoString} {f : FileIR} (hm : m.ValidUTF8)
    (hk : Utf8.Valid k) (hf : f.ValidUTF8) : FileMap.ValidUTF8 (m.insert k f) := by
  intro k' f' h
  by_cases e : k' = k
  · subst e
    rw [Finmap.lookup_insert] at h
    cases h
    exact ⟨hk, hf⟩
  · rw [Finmap.lookup_insert_of_ne _ e] at h
    exact hm k' f' h

namespace IR

theorem decodeEntries_valid {lib : Lib} : ∀ {m m' : FileMap} {ms : List (GoString × Value)},
    m.ValidUTF8 → Value.AllMembers Utf8.Valid (fun _ => True) ms → decodeEntries lib m ms = .ok m' →
    m'.ValidUTF8
  | _, _, [], hm, _, h => by cases h; exact hm
  | m, m', (k, v) :: ms, hm, ⟨hk, hv, hms⟩, h => by
    obtain ⟨f, hf, h⟩ := Except.bind_eq_ok h
    exact decodeEntries_valid (FileMap.ValidUTF8.insert hm hk (FileIR.decode_valid hv hf)) hms h

/-- **Every field's store keeps the IR's strings well formed.** -/
theorem fields_preserve (lib : Lib) : ∀ f ∈ fields lib, ∀ ir v ir', ValidUTF8 ir → v.StringsValid →
    f.store ir v = .ok ir' → ValidUTF8 ir' := by
  simp only [fields, List.mem_cons, List.mem_singleton, List.not_mem_nil, or_false]
  rintro f (rfl | rfl | rfl) ir v ir' hir hv h <;> obtain ⟨x, hx, rfl⟩ := Except.map_eq_ok h
  · exact hir
  · exact ⟨decodeString_valid hir.1 hv hx, hir.2⟩
  · refine ⟨hir.1, ?_⟩
    unfold decodeFiles at hx
    split at hx
    · cases hx
      exact FileMap.validUTF8_empty
    · exact decodeEntries_valid hir.2 hv hx
    · cases hx

theorem decodeAux_valid {lib : Lib} {v : Value} {ir : IR} (hv : v.StringsValid)
    (h : decodeAux lib v = .ok ir) : ir.ValidUTF8 := by
  have hzero : zero.ValidUTF8 := ⟨Utf8.valid_nil, FileMap.validUTF8_empty⟩
  unfold decodeAux at h
  split at h
  · cases h
    exact hzero
  · exact decodeStruct_preserves ValidUTF8 (fields_preserve lib) hzero hv h
  · cases h

/-- **Every IR `json.Unmarshal` returns has well-formed strings.** -/
theorem unmarshal_validUTF8 {lib : Lib} {data : GoString} {ir : IR} (h : unmarshal lib data = .ok ir) :
    ir.ValidUTF8 := by
  obtain ⟨v, hv, h⟩ := Except.bind_eq_ok h
  exact decodeAux_valid (parseDocument_stringsValid hv) h

end IR

/-! ## What `Load` reports -/

namespace FileIR

/-- The contexts of the type errors an entry of the map can raise: the entry, and its fields. -/
def errorContexts : List ErrorContext :=
  [⟨"", "files"⟩, fieldContext "hash", fieldContext "imports", fieldContext "functions",
    fieldContext "classes", fieldContext "exports"]

theorem sliceField_error {name : String} {get : DecodeState → SliceState}
    {set : DecodeState → SliceState → DecodeState} {st : DecodeState} {v : Value} {e : String}
    (h : (sliceField name get set).store st v = .error e) : IsTypeError [fieldContext name] e :=
  decodeStrings_error (Except.map_eq_error h)

/-- **Every field's store fails with a type error in its own context.** -/
theorem fields_error : ∀ f ∈ fields, ∀ st v e, f.store st v = .error e → IsTypeError errorContexts e := by
  simp only [fields, List.mem_cons, List.mem_singleton, List.not_mem_nil, or_false]
  rintro f (rfl | rfl | rfl | rfl | rfl) st v e h
  · exact (decodeString_error (Except.map_eq_error h)).mono (by simp [errorContexts])
  all_goals exact (sliceField_error h).mono (by simp [errorContexts])

theorem decode_error {lib : Lib} {v : Value} {e : String} (h : decode lib v = .error e) :
    IsTypeError errorContexts e := by
  unfold decode at h
  split at h
  · cases h
  · exact decodeStruct_error fields_error (Except.map_eq_error h)
  · cases h
    exact (isTypeError_typeError _ _ _).mono (by simp [errorContexts])

end FileIR

namespace IR

/-- **The contexts of the type errors `UnmarshalJSON` can raise**: the document, the fields of
`aux`, and those of an entry of the map. -/
def errorContexts : List ErrorContext :=
  [.top, ⟨"", "version"⟩, ⟨"", "root_hash"⟩] ++ FileIR.errorContexts

theorem decodeEntries_error {lib : Lib} : ∀ {m : FileMap} {ms : List (GoString × Value)} {e : String},
    decodeEntries lib m ms = .error e → IsTypeError FileIR.errorContexts e
  | _, [], _, h => by cases h
  | m, (k, v) :: ms, e, h => by
    rw [decodeEntries] at h
    rcases Except.bind_eq_error h with h | ⟨f, -, h⟩
    · exact FileIR.decode_error h
    · exact decodeEntries_error h

theorem decodeFiles_error {lib : Lib} {m : FileMap} {v : Value} {e : String}
    (h : decodeFiles lib m v = .error e) : IsTypeError FileIR.errorContexts e := by
  unfold decodeFiles at h
  split at h
  · cases h
  · exact decodeEntries_error h
  · cases h
    exact (isTypeError_typeError _ _ _).mono (by simp [FileIR.errorContexts])

/-- **Every field's store fails with a type error in its own context.** -/
theorem fields_error (lib : Lib) :
    ∀ f ∈ fields lib, ∀ ir v e, f.store ir v = .error e → IsTypeError errorContexts e := by
  simp only [fields, List.mem_cons, List.mem_singleton, List.not_mem_nil, or_false]
  rintro f (rfl | rfl | rfl) ir v e h
  · exact (decodeInt_error (Except.map_eq_error h)).mono (by simp [errorContexts])
  · exact (decodeString_error (Except.map_eq_error h)).mono (by simp [errorContexts])
  · exact (decodeFiles_error (Except.map_eq_error h)).mono (List.subset_append_right _ _)

theorem decodeAux_error {lib : Lib} {v : Value} {e : String} (h : decodeAux lib v = .error e) :
    IsTypeError errorContexts e := by
  unfold decodeAux at h
  split at h
  · cases h
  · exact decodeStruct_error (fields_error lib) h
  · cases h
    exact (isTypeError_typeError _ _ _).mono (by simp [errorContexts])

/-- **`json.Unmarshal` fails with a syntax error or a type error**, the latter in one of the IR's
fields. -/
theorem unmarshal_error {lib : Lib} {data : GoString} {e : String} (h : unmarshal lib data = .error e) :
    IsSyntaxError e ∨ IsTypeError errorContexts e := by
  rcases Except.bind_eq_error h with h | ⟨v, -, h⟩
  · exact .inl (parseDocument_error h)
  · exact .inr (decodeAux_error h)

/-- **What `Load` reports when it fails**: the read's error after `failed to read IR file: `, or
after `failed to unmarshal IR: ` the scanner's syntax error or a type error naming the IR's field
it was raised in. -/
theorem load_error {lib : Lib} {read : Except String GoString} {e : String} (h : load lib read = .error e) :
    (∃ err, read = .error err ∧ e = "failed to read IR file: " ++ err) ∨
      ∃ err, e = "failed to unmarshal IR: " ++ err ∧ (IsSyntaxError err ∨ IsTypeError errorContexts err) := by
  cases read with
  | error err =>
    cases h
    exact .inl ⟨err, rfl, rfl⟩
  | ok data =>
    rcases hu : unmarshal lib data with err | ir <;> rw [load, hu] at h <;> cases h
    exact .inr ⟨err, rfl, unmarshal_error hu⟩

theorem load_error_array :
    load prefixLib (.ok (bytes "[]")) = .error ("failed to unmarshal IR: " ++ typeError "array" auxType .top) ∧
      ((∃ err, (.ok (bytes "[]") : Except String GoString) = .error err ∧
          "failed to unmarshal IR: " ++ typeError "array" auxType .top = "failed to read IR file: " ++ err) ∨
        ∃ err, "failed to unmarshal IR: " ++ typeError "array" auxType .top = "failed to unmarshal IR: " ++ err ∧
          (IsSyntaxError err ∨ IsTypeError errorContexts err)) :=
  have h : load prefixLib (.ok (bytes "[]")) = .error ("failed to unmarshal IR: " ++ typeError "array" auxType .top) :=
    rfl
  ⟨h, load_error h⟩

end IR

/-! ## Saving and loading -/

namespace IR

theorem load_validUTF8 {lib : Lib} {read : Except String GoString} {ir : IR}
    (h : load lib read = .ok ir) : ir.ValidUTF8 := by
  cases read with
  | error e => cases h
  | ok data => exact unmarshal_validUTF8 (load_ok.mp h)

/-- A file whose root hash is the byte 0xFF, which starts no UTF-8 encoding. -/
def invalidHashFile : GoString := bytes "\x7b\"root_hash\":\"" ++ [0xFF] ++ bytes "\"\x7d"

theorem load_validUTF8_invalidHashFile :
    load prefixLib (.ok invalidHashFile) = .ok ⟨⟨0, by decide⟩, bytes "\uFFFD", ∅⟩ ∧
      IR.ValidUTF8 ⟨⟨0, by decide⟩, bytes "\uFFFD", ∅⟩ :=
  ⟨rfl, @load_validUTF8 prefixLib (.ok invalidHashFile) _ rfl⟩

/-- **An empty object loads**, as the zero IR: version 0, an empty root hash and no files. The
case folding plays no part. -/
theorem load_emptyObject : load prefixLib (.ok (bytes "\x7b\x7d")) = .ok zero ∧ zero.version.val ≠ 1 :=
  ⟨rfl, by decide⟩

theorem load_save_eq_iff (lib : Lib) (ir : IR) (path : GoString) :
    load lib (.ok (ir.save path).2) = .ok ir ↔ ir.ValidUTF8 :=
  ⟨fun h => unmarshal_validUTF8 (load_ok.mp h), fun h => load_ok.mpr (unmarshal_marshal lib h)⟩

/-- A path holding the byte 0xFF, as a Linux file name may. -/
def invalidPath : GoString := [97, 0xFF, 46, 106, 115]

/-- An IR with one file, at `invalidPath`. -/
def invalidPathIR : IR := ⟨⟨1, by decide⟩, zeroHash, (∅ : FileMap).insert invalidPath zeroEntry⟩

set_option maxRecDepth 4000 in
/-- **An IR that does not come back**: `Save` writes its path with `\ufffd` for the byte 0xFF, and
`Load` reads the three bytes of U+FFFD there. -/
theorem load_save_invalidPathIR :
    load prefixLib (.ok (invalidPathIR.save []).2) =
        .ok { invalidPathIR with files := (∅ : FileMap).insert (bytes "a\uFFFD.js") zeroEntry } ∧
      { invalidPathIR with files := (∅ : FileMap).insert (bytes "a\uFFFD.js") zeroEntry } ≠ invalidPathIR :=
  ⟨rfl, by decide⟩

/-- **`Save` writes well-formed UTF-8**, whatever bytes the IR's root hash, paths and names hold:
the encoder writes each byte that starts no rune as `\ufffd`. -/
theorem save_valid (ir : IR) (path : GoString) : Utf8.Valid (ir.save path).2 :=
  valid_encode (toValue_encodable ir)

/-- **`Load` reads back what `Save` wrote, for every IR and path**: the root hash, every path and
every name come back as `string([]rune(s))` of what was saved, and the files' map is rebuilt in
the order `Save` wrote it. -/
theorem load_save_coerce (lib : Lib) (ir : IR) (path : GoString) :
    load lib (.ok (ir.save path).2) = .ok ir.coerce :=
  load_ok.mpr (unmarshal_marshal_coerce lib ir)

/-- **A loaded IR, saved again, loads back unchanged**: `Load` after `Save` is the identity on what
`Load` returns. -/
theorem load_save_of_load {lib : Lib} {data : GoString} {ir : IR} (h : load lib (.ok data) = .ok ir)
    (path : GoString) : load lib (.ok (ir.save path).2) = .ok ir :=
  load_ok.mpr (unmarshal_marshal lib (unmarshal_validUTF8 (load_ok.mp h)))

theorem load_save_of_load_emptyObject :
    load prefixLib (.ok (bytes "\x7b\x7d")) = .ok zero ∧ load prefixLib (.ok (zero.save []).2) = .ok zero :=
  ⟨rfl, @load_save_of_load prefixLib (bytes "\x7b\x7d") zero rfl []⟩

end IR
