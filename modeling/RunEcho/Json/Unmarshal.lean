import RunEcho.Json.RoundTrip

/-!
# Storing a decoded value into a Go value

Once `checkValid` has accepted a document, `decodeState` walks it and stores what it reads into
the Go value it was given, led by that value's type. The model splits the walk from the parse: a
`Value` is stored into a Go value by one function per kind of target, each under the name of the
part of `decode.go` it follows, and each reporting the error that part saves.

Three rules of `decodeState` shape everything that follows.

* **`null` is not a value of every type.** Into a string or an `int` it is ignored, and the
  target keeps what it held; into a slice or a map it stores nil.
* **A key selects a field by name, or failing that by folded name.** `cachedTypeFields` indexes a
  struct's fields by their exact names and by their names under `foldName`, which upper-cases
  ASCII letters and sends every other rune through `unicode.ToUpper(unicode.ToLower(r))`; a key
  that selects no field is skipped. The rune mapping is `Lib.caseFold`.
* **A value of the wrong kind is a type error, and the first one wins.** `saveError` keeps the
  first `UnmarshalTypeError`, the walk goes on, and `Unmarshal` returns the error in the end; no
  other error can follow a valid document into the types modelled here. Since the value is then
  thrown away, the model stops at the first error. The error names the struct field being
  decoded, as `addErrorContext` records it (`ErrorContext`).

A slice is decoded in place. `decodeState.array` grows the slice one element at a time and decodes
element `i` into what the backing array already holds at `i`, which a `null` element keeps, and
it shortens the slice to the elements read, leaving the backing array as it is. So a repeated key
can bring back a string of an earlier array; `SliceState` keeps the backing array for that.

The texts of the type errors are those of Go 1.24's `UnmarshalTypeError.Error`; later releases
word them differently.
-/

namespace Json

/-! ## Type errors -/

/-- The name a value's kind has in an `UnmarshalTypeError`. -/
def Value.kindName : Value → String
  | .null => "null"
  | .bool _ => "bool"
  | .number _ => "number"
  | .string _ => "string"
  | .array _ => "array"
  | .object _ => "object"

/-- **What `addErrorContext` adds to a type error.** -/
structure ErrorContext where
  /-- `errorContext.Struct.Name()`: the name of the struct whose field is being decoded, empty
  for an anonymous struct. -/
  structName : String
  /-- `strings.Join(errorContext.FieldStack, ".")`: the path of field names to the value. -/
  fieldPath : String

/-- The context of a value decoded outside any struct field. -/
def ErrorContext.top : ErrorContext := ⟨"", ""⟩

/-- **`UnmarshalTypeError.Error`**: a JSON `value` that cannot be stored in a Go value of type
`type`, the type as `reflect` prints it. -/
def typeError (value type : String) (ctx : ErrorContext) : String :=
  if ctx.structName ≠ "" ∨ ctx.fieldPath ≠ "" then
    "json: cannot unmarshal " ++ value ++ " into Go struct field " ++ ctx.structName ++ "." ++
      ctx.fieldPath ++ " of type " ++ type
  else "json: cannot unmarshal " ++ value ++ " into Go value of type " ++ type

/-- The text of a number literal, which the scanner only accepts in ASCII. -/
def literalText (literal : GoString) : String := String.mk (literal.map fun b => Char.ofNat b.toNat)

/-! ## Literals -/

/-- **`literalStore` into an `int`**: a number read by `strconv.ParseInt`, which reports the
literal when it is no 64-bit integer. -/
def decodeInt (ctx : ErrorContext) (old : GoInt) : Value → Except String GoInt
  | .null => .ok old
  | .number literal =>
    match parseInt literal with
    | some n => .ok n
    | none => .error (typeError ("number " ++ literalText literal) "int" ctx)
  | v => .error (typeError v.kindName "int" ctx)

/-- **`literalStore` into a `string`**. -/
def decodeString (ctx : ErrorContext) (old : GoString) : Value → Except String GoString
  | .null => .ok old
  | .string s => .ok s
  | v => .error (typeError v.kindName "string" ctx)

/-! ## Slices -/

/-- **A `[]string` being decoded into.** -/
structure SliceState where
  /-- The slice: nil, or its elements. -/
  slice : Slice GoString
  /-- The backing array up to its capacity; past its end every element is the zero string. -/
  backing : List GoString

/-- A nil slice, with no backing array. -/
def SliceState.nil : SliceState := ⟨none, []⟩

/-- **The loop of `decodeState.array`** over a `[]string`: each element decoded into what the
backing array holds at its index. -/
def decodeElems (ctx : ErrorContext) : List GoString → List Value → Except String (List GoString)
  | _, [] => .ok []
  | backing, v :: vs => do
    let s ← decodeString ctx (backing.headD []) v
    let rest ← decodeElems ctx backing.tail vs
    pure (s :: rest)

/-- **`decodeState.array` into a `[]string`**, with `literalStore` of `null`: `null` makes the
slice nil, `[]` a new empty slice, and other arrays are decoded over the backing array. -/
def decodeStrings (ctx : ErrorContext) (st : SliceState) : Value → Except String SliceState
  | .null => .ok .nil
  | .array [] => .ok ⟨some [], []⟩
  | .array (v :: vs) => do
    let elems ← decodeElems ctx st.backing (v :: vs)
    pure ⟨some elems, elems ++ st.backing.drop elems.length⟩
  | v => .error (typeError v.kindName "[]string" ctx)

/-! ## Structs -/

/-- **`appendFoldedName`**, on fuel: ASCII letters upper-cased, every other rune mapped by
`caseFold` and encoded again. Each step consumes a byte at least, so the length of the name is
enough fuel. -/
def appendFoldedName (lib : Lib) : Nat → GoString → GoString
  | 0, _ => []
  | _, [] => []
  | fuel + 1, c :: rest =>
    if c.toNat < 0x80 then
      (if 97 ≤ c.toNat ∧ c.toNat ≤ 122 then c - 32 else c) :: appendFoldedName lib fuel rest
    else
      let (r, size) := Utf8.decodeRune ((c :: rest).take 4)
      Utf8.encodeRune (lib.caseFold r) ++ appendFoldedName lib fuel ((c :: rest).drop size)

/-- **`foldName`**: the form in which a key and a field name are compared when they differ. -/
def foldName (lib : Lib) (name : GoString) : GoString := appendFoldedName lib name.length name

/-- **A field of a struct the decoder stores into.** -/
structure StructField (σ : Type) where
  /-- The name in the field's `json` tag. -/
  name : GoString
  /-- `decodeState.value` into the field, with the field's error context. -/
  store : σ → Value → Except String σ

/-- **A struct's field lookup**: the field of exactly the key's name (`byExactName`), else the
first whose folded name is the key's (`byFoldedName`). -/
def lookupField {σ : Type} (lib : Lib) (fields : List (StructField σ)) (key : GoString) :
    Option (StructField σ) :=
  (fields.find? fun f => f.name == key).orElse fun _ =>
    fields.find? fun f => foldName lib f.name == foldName lib key

/-- **`decodeState.object` into a struct**: the members in the order of the document, each stored
into the field its key selects, and skipped when it selects none. -/
def decodeStruct {σ : Type} (lib : Lib) (fields : List (StructField σ)) :
    σ → List (GoString × Value) → Except String σ
  | st, [] => .ok st
  | st, (key, v) :: ms =>
    match lookupField lib fields key with
    | some f => f.store st v >>= fun st => decodeStruct lib fields st ms
    | none => decodeStruct lib fields st ms

/-! ## Decoding what the encoder wrote -/

@[simp] theorem Except.ok_bind {ε α β : Type} (a : α) (f : α → Except ε β) :
    (Except.ok a >>= f) = f a := rfl

theorem decodeInt_appendInt (ctx : ErrorContext) (old i : GoInt) :
    decodeInt ctx old (.number (appendInt i)) = .ok i := by
  rw [decodeInt, parseInt_appendInt]

theorem decodeElems_strings (ctx : ErrorContext) :
    ∀ (backing l : List GoString), decodeElems ctx backing (l.map .string) = .ok l
  | _, [] => rfl
  | backing, s :: l => by
    rw [List.map_cons, decodeElems, decodeString, decodeElems_strings ctx backing.tail l]
    rfl

/-- **Decoding an array of strings gives the strings**, whatever the slice held. -/
theorem decodeStrings_array (ctx : ErrorContext) (st : SliceState) (l : List GoString) :
    ∃ backing, decodeStrings ctx st (.array (l.map .string)) = .ok ⟨some l, backing⟩ := by
  cases l with
  | nil => exact ⟨[], rfl⟩
  | cons s l =>
    refine ⟨s :: l ++ st.backing.drop (s :: l).length, ?_⟩
    rw [List.map_cons, decodeStrings, ← List.map_cons, decodeElems_strings]
    rfl

theorem decodeStruct_cons_of_lookup {σ : Type} {lib : Lib} {fields : List (StructField σ)} {f : StructField σ}
    {key : GoString} (h : lookupField lib fields key = some f) (st : σ) (v : Value)
    (ms : List (GoString × Value)) :
    decodeStruct lib fields st ((key, v) :: ms) = f.store st v >>= fun st => decodeStruct lib fields st ms := by
  rw [decodeStruct, h]

/-! ## Decoding keeps strings well formed -/

theorem lookupField_mem {σ : Type} {lib : Lib} {fields : List (StructField σ)} {key : GoString}
    {f : StructField σ} (h : lookupField lib fields key = some f) : f ∈ fields := by
  unfold lookupField at h
  cases hx : fields.find? (fun f => f.name == key) with
  | some g =>
    rw [hx] at h
    cases h
    exact List.mem_of_find?_eq_some hx
  | none =>
    rw [hx] at h
    exact List.mem_of_find?_eq_some h

section
variable {σ : Type} (P : σ → Prop)

/-- **A property every field's store keeps is kept by the struct decoder**, over members whose
strings are well formed. -/
theorem decodeStruct_preserves {lib : Lib} {fields : List (StructField σ)}
    (hf : ∀ f ∈ fields, ∀ st v st', P st → v.StringsValid → f.store st v = .ok st' → P st') :
    ∀ {st st' : σ} {ms : List (GoString × Value)}, P st →
      Value.AllMembers Utf8.Valid (fun _ => True) ms → decodeStruct lib fields st ms = .ok st' →
      P st'
  | _, _, [], hst, _, h => by cases h; exact hst
  | st, st', (key, v) :: ms, hst, ⟨_, hv, hms⟩, h => by
    rw [decodeStruct] at h
    split at h
    · next f hl =>
      obtain ⟨st₁, h₁, h⟩ := Except.bind_eq_ok h
      exact decodeStruct_preserves hf (hf f (lookupField_mem hl) st v st₁ hst hv h₁) hms h
    · exact decodeStruct_preserves hf hst hms h

end

theorem decodeString_valid {ctx : ErrorContext} {old s : GoString} {v : Value}
    (hold : Utf8.Valid old) (hv : v.StringsValid) (h : decodeString ctx old v = .ok s) :
    Utf8.Valid s := by
  unfold decodeString at h
  split at h
  · cases h; exact hold
  · cases h; exact hv
  · cases h

theorem decodeElems_valid {ctx : ErrorContext} :
    ∀ {backing elems : List GoString} {vs : List Value}, (∀ s ∈ backing, Utf8.Valid s) →
      Value.AllElems Utf8.Valid (fun _ => True) vs → decodeElems ctx backing vs = .ok elems →
      ∀ s ∈ elems, Utf8.Valid s
  | _, _, [], _, _, h => by cases h; simp
  | backing, elems, v :: vs, hb, ⟨hv, hvs⟩, h => by
    rw [decodeElems] at h
    obtain ⟨s, hs, h⟩ := Except.bind_eq_ok h
    obtain ⟨rest, hrest, h⟩ := Except.bind_eq_ok h
    cases h
    have hhead : Utf8.Valid (backing.headD []) := by
      cases backing with
      | nil => exact Utf8.valid_nil
      | cons b _ => exact hb b (List.mem_cons_self _ _)
    have htail : ∀ s ∈ backing.tail, Utf8.Valid s := fun s hs => hb s (List.mem_of_mem_tail hs)
    intro x hx
    rcases List.mem_cons.mp hx with rfl | hx
    · exact decodeString_valid hhead hv hs
    · exact decodeElems_valid htail hvs hrest x hx

/-- Every string of a slice and of its backing array is well formed. -/
def SliceState.Valid (st : SliceState) : Prop :=
  (∀ s ∈ st.slice.getD [], Utf8.Valid s) ∧ ∀ s ∈ st.backing, Utf8.Valid s

theorem SliceState.valid_nil : SliceState.nil.Valid := ⟨by simp [nil], by simp [nil]⟩

theorem decodeStrings_valid {ctx : ErrorContext} {st st' : SliceState} {v : Value}
    (hst : st.Valid) (hv : v.StringsValid) (h : decodeStrings ctx st v = .ok st') : st'.Valid := by
  unfold decodeStrings at h
  split at h
  · cases h; exact SliceState.valid_nil
  · cases h; exact ⟨by simp, by simp⟩
  · obtain ⟨elems, he, h⟩ := Except.bind_eq_ok h
    cases h
    have helems := decodeElems_valid hst.2 hv he
    refine ⟨helems, fun s hs => ?_⟩
    rcases List.mem_append.mp hs with hs | hs
    · exact helems s hs
    · exact hst.2 s (List.mem_of_mem_drop hs)
  · cases h

/-! ## What the decoder reports -/

/-- **`err` is the text of an `UnmarshalTypeError` in one of the contexts `ctxs`.** -/
def IsTypeError (ctxs : List ErrorContext) (err : String) : Prop :=
  ∃ value type, ∃ ctx ∈ ctxs, err = typeError value type ctx

theorem IsTypeError.mono {ctxs ctxs' : List ErrorContext} {err : String} (h : IsTypeError ctxs err)
    (hs : ctxs ⊆ ctxs') : IsTypeError ctxs' err :=
  let ⟨value, type, ctx, hc, he⟩ := h
  ⟨value, type, ctx, hs hc, he⟩

theorem isTypeError_typeError (value type : String) (ctx : ErrorContext) :
    IsTypeError [ctx] (typeError value type ctx) :=
  ⟨value, type, ctx, List.mem_singleton_self _, rfl⟩

theorem Except.bind_eq_error {ε α β : Type} {x : Except ε α} {f : α → Except ε β} {e : ε}
    (h : x >>= f = .error e) : x = .error e ∨ ∃ a, x = .ok a ∧ f a = .error e := by
  cases x with
  | error e' =>
    cases h
    exact .inl rfl
  | ok a => exact .inr ⟨a, rfl, h⟩

theorem Except.map_eq_error {ε α β : Type} {x : Except ε α} {f : α → β} {e : ε}
    (h : x.map f = .error e) : x = .error e := by
  cases x with
  | error e' =>
    cases h
    rfl
  | ok a => cases h

theorem decodeInt_error {ctx : ErrorContext} {old : GoInt} {v : Value} {e : String}
    (h : decodeInt ctx old v = .error e) : IsTypeError [ctx] e := by
  unfold decodeInt at h
  split at h
  · cases h
  · split at h
    · cases h
    · cases h
      exact isTypeError_typeError _ _ _
  · cases h
    exact isTypeError_typeError _ _ _

theorem decodeString_error {ctx : ErrorContext} {old : GoString} {v : Value} {e : String}
    (h : decodeString ctx old v = .error e) : IsTypeError [ctx] e := by
  unfold decodeString at h
  split at h
  · cases h
  · cases h
  · cases h
    exact isTypeError_typeError _ _ _

theorem decodeElems_error {ctx : ErrorContext} : ∀ {backing : List GoString} {vs : List Value} {e : String},
    decodeElems ctx backing vs = .error e → IsTypeError [ctx] e
  | _, [], _, h => by cases h
  | backing, v :: vs, e, h => by
    rw [decodeElems] at h
    rcases Except.bind_eq_error h with h | ⟨s, -, h⟩
    · exact decodeString_error h
    rcases Except.bind_eq_error h with h | ⟨rest, -, h⟩
    · exact decodeElems_error h
    · cases h

theorem decodeStrings_error {ctx : ErrorContext} {st : SliceState} {v : Value} {e : String}
    (h : decodeStrings ctx st v = .error e) : IsTypeError [ctx] e := by
  unfold decodeStrings at h
  split at h
  · cases h
  · cases h
  · rcases Except.bind_eq_error h with h | ⟨elems, -, h⟩
    · exact decodeElems_error h
    · cases h
  · cases h
    exact isTypeError_typeError _ _ _

/-- **Every error of the struct decoder is an error of one of its fields' stores.** -/
theorem decodeStruct_error {σ : Type} {lib : Lib} {fields : List (StructField σ)} {P : String → Prop}
    (hf : ∀ f ∈ fields, ∀ st v e, f.store st v = .error e → P e) :
    ∀ {st : σ} {ms : List (GoString × Value)} {e : String}, decodeStruct lib fields st ms = .error e → P e
  | _, [], _, h => by cases h
  | st, (key, v) :: ms, e, h => by
    rw [decodeStruct] at h
    split at h
    · next f hl =>
      rcases Except.bind_eq_error h with h | ⟨st', -, h⟩
      · exact hf f (lookupField_mem hl) st v e h
      · exact decodeStruct_error hf h
    · exact decodeStruct_error hf h

end Json
