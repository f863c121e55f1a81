import RunEcho.Hasher
import RunEcho.Utf8

/-!
# JSON values and `encoding/json`'s encoder

`Save` writes an IR with `json.Marshal`, and the reflection-driven encoder walks the value as if it
were a JSON tree: a struct is an object whose keys are the field names, in field order, a map is
an object whose keys are sorted, a slice is an array or, when nil, `null`, an `int` a number and
a `string` a string. The model makes that tree explicit, as `Value`, and splits the encoder in two:
`Storage` turns an IR into its `Value`, and `encode` prints a `Value` as `Marshal` prints the Go
value, compactly. A number is kept as the literal text it is written as, since the decoder gives
that text, and not a number, to the field it fills.

The one part of the encoder with real logic is **`appendString`**, which writes a Go string as a
JSON string literal. A Go string is any bytes, and a JSON text is UTF-8, so the encoder walks the
string rune by rune. Printable ASCII is copied, except `"` and `\`, which are escaped, and `<`,
`>` and `&`, which `Marshal` escapes as `\u003c`, `\u003e` and `\u0026`. Control bytes become
the short escapes or `\u00XX`. A valid multi-byte rune is copied, except U+2028 and U+2029,
which are escaped. A byte that starts no valid encoding is written as `\ufffd`, so the string the
decoder reads back is another string. The walk is one step per encoding or stray byte
(`appendStringBody_steps`), and the same steps, read as runes, are the string as Go's
`string([]rune(s))` writes it: that is what the decoder's round trip rests on.

The model follows `encoding/json` as Go 1.24 releases it; no `go.mod` among the sources pins a
toolchain. Its escapes are those of Go 1.22 and later, which added `\b` and `\f`: earlier versions
write `\u0008` and `\u000c`, which read back the same. A release after 1.24 writes a stray byte as
the replacement rune itself instead of the escape `\ufffd`; both read back as U+FFFD, and both are
valid UTF-8.
-/

namespace Json

/-- **A JSON value**, as the encoder walks a Go value and as the decoder reads a document. -/
inductive Value where
  /-- `null`: a nil slice or map. -/
  | null
  /-- `true` or `false`. -/
  | bool (b : Bool)
  /-- A number, as the text of its literal. -/
  | number (literal : GoString)
  /-- A string. -/
  | string (s : GoString)
  /-- An array. -/
  | array (elems : List Value)
  /-- An object: its members in the order they are written. -/
  | object (members : List (GoString × Value))

/-! ## Strings -/

/-- `htmlSafeSet[b]` for an ASCII byte `b`: printable or DEL, and none of `"`, `\`, `<`, `>`
and `&`. -/
def htmlSafe (b : UInt8) : Bool :=
  32 ≤ b && b != 34 && b != 92 && b != 60 && b != 62 && b != 38

/-- What `appendString` writes for an ASCII byte. -/
def escapeASCII (b : UInt8) : GoString :=
  if htmlSafe b then [b]
  else if b = 92 ∨ b = 34 then [92, b]
  else if b = 8 then [92, 98]
  else if b = 12 then [92, 102]
  else if b = 10 then [92, 110]
  else if b = 13 then [92, 114]
  else if b = 9 then [92, 116]
  else [92, 117, 48, 48, hexDigit (b.toNat / 16), hexDigit (b.toNat % 16)]

/-- **What `escapeASCII` writes**, branch by branch, with the test that chose the branch. -/
theorem escapeASCII_cases (b : UInt8) :
    htmlSafe b ∧ escapeASCII b = [b] ∨ (b = 92 ∨ b = 34) ∧ escapeASCII b = [92, b] ∨
      b = 8 ∧ escapeASCII b = [92, 98] ∨ b = 12 ∧ escapeASCII b = [92, 102] ∨
      b = 10 ∧ escapeASCII b = [92, 110] ∨ b = 13 ∧ escapeASCII b = [92, 114] ∨
      b = 9 ∧ escapeASCII b = [92, 116] ∨
      escapeASCII b = [92, 117, 48, 48, hexDigit (b.toNat / 16), hexDigit (b.toNat % 16)] := by
  rw [escapeASCII]
  by_cases h₁ : htmlSafe b
  · exact .inl ⟨h₁, if_pos h₁⟩
  rw [if_neg h₁]
  by_cases h₂ : b = 92 ∨ b = 34
  · exact .inr (.inl ⟨h₂, if_pos h₂⟩)
  rw [if_neg h₂]
  refine .inr (.inr ?_)
  by_cases h₃ : b = 8
  · exact .inl ⟨h₃, if_pos h₃⟩
  rw [if_neg h₃]
  refine .inr ?_
  by_cases h₄ : b = 12
  · exact .inl ⟨h₄, if_pos h₄⟩
  rw [if_neg h₄]
  refine .inr ?_
  by_cases h₅ : b = 10
  · exact .inl ⟨h₅, if_pos h₅⟩
  rw [if_neg h₅]
  refine .inr ?_
  by_cases h₆ : b = 13
  · exact .inl ⟨h₆, if_pos h₆⟩
  rw [if_neg h₆]
  refine .inr ?_
  by_cases h₇ : b = 9
  · exact .inl ⟨h₇, if_pos h₇⟩
  exact .inr (if_neg h₇)

theorem escapeASCII_ne_nil (b : UInt8) : escapeASCII b ≠ [] := by
  rcases escapeASCII_cases b with ⟨-, e⟩ | ⟨-, e⟩ | ⟨-, e⟩ | ⟨-, e⟩ | ⟨-, e⟩ | ⟨-, e⟩ | ⟨-, e⟩ | e <;>
    exact e ▸ List.cons_ne_nil _ _

/-- The loop of **`appendString`**, with `escapeHTML` set, over the bytes of `src` between the
quotes. Go copies unchanged runs in one `append`; the model writes each step's bytes as it goes.
`fuel` bounds the steps, and `src.length` is always enough, since each step consumes a byte. -/
def appendStringBody : Nat → GoString → GoString
  | 0, _ => []
  | _, [] => []
  | fuel + 1, b :: rest =>
    if b.toNat < 0x80 then escapeASCII b ++ appendStringBody fuel rest
    else
      let (c, size) := Utf8.decodeRune ((b :: rest).take 4)
      if c = Utf8.runeError ∧ size = 1 then bytes "\\ufffd" ++ appendStringBody fuel rest
      else if c = 0x2028 ∨ c = 0x2029 then
        [92, 117, 50, 48, 50, hexDigit (c % 16)] ++ appendStringBody fuel ((b :: rest).drop size)
      else (b :: rest).take size ++ appendStringBody fuel ((b :: rest).drop size)

/-- **`appendString`**: a Go string as a JSON string literal. -/
def appendString (src : GoString) : GoString := 34 :: appendStringBody src.length src ++ [34]

/-! ## Integers -/

/-- The decimal digits of `n` in front of `acc`, most significant first; `fuel` bounds the digits,
and `n + 1` is always enough. -/
def decimalDigits : Nat → Nat → GoString → GoString
  | 0, _, acc => acc
  | fuel + 1, n, acc =>
    if n < 10 then UInt8.ofNat (48 + n) :: acc
    else decimalDigits fuel (n / 10) (UInt8.ofNat (48 + n % 10) :: acc)

/-- **`strconv.AppendInt(nil, i, 10)`**: how the encoder writes an `int`. -/
def appendInt (i : GoInt) : GoString :=
  let digits := decimalDigits (i.val.natAbs + 1) i.val.natAbs []
  if i.val < 0 then 45 :: digits else digits

/-! ## Values -/

mutual
/-- **`json.Marshal`'s output**, compact, for the Go value a `Value` stands for. -/
def encode : Value → GoString
  | .null => bytes "null"
  | .bool b => if b then bytes "true" else bytes "false"
  | .number literal => literal
  | .string s => appendString s
  | .array [] => [91, 93]
  | .array (v :: vs) => 91 :: encode v ++ encodeElemsTail vs
  | .object [] => [123, 125]
  | .object ((k, v) :: ms) => 123 :: appendString k ++ 58 :: encode v ++ encodeMembersTail ms

/-- The elements after an array's first, each after a comma, then the closing `]`. -/
def encodeElemsTail : List Value → GoString
  | [] => [93]
  | v :: vs => 44 :: encode v ++ encodeElemsTail vs

/-- The members after an object's first, each after a comma, then the closing brace. -/
def encodeMembersTail : List (GoString × Value) → GoString
  | [] => [125]
  | (k, v) :: ms => 44 :: appendString k ++ 58 :: encode v ++ encodeMembersTail ms
end

/-! ## One rune at a time -/

/-- What `appendString` writes for one Unicode scalar value of a well-formed string. -/
def escapeRune (r : Nat) : GoString :=
  if r < 0x80 then escapeASCII (UInt8.ofNat r)
  else if r = 0x2028 ∨ r = 0x2029 then [92, 117, 50, 48, 50, hexDigit (r % 16)]
  else Utf8.encodeRune r

theorem appendStringBody_encodeRune (r : Nat) (fuel : Nat) (t : GoString) :
    appendStringBody (fuel + 1) (Utf8.encodeRune r ++ t) =
      escapeRune (Utf8.toScalar r) ++ appendStringBody fuel t := by
  have hdec := Utf8.decodeRune_encodeRune_append r t
  by_cases hr : r < 0x80
  · have hs : Utf8.toScalar r = r := Utf8.toScalar_of_lt hr
    have e := UInt8.toNat_ofNat_of_lt (show r < 256 by omega)
    rw [Utf8.encodeRune_of_lt hr, List.singleton_append, appendStringBody, escapeRune, hs,
      if_pos hr, e, if_pos hr]
  · have hlen := Utf8.two_le_length_encodeRune (Nat.le_of_not_lt hr)
    have hs : 0x80 ≤ Utf8.toScalar r := Utf8.le_toScalar (Nat.le_of_not_lt hr)
    obtain ⟨b, rest, hb⟩ := List.exists_cons_of_length_pos (show 0 < (Utf8.encodeRune r).length by omega)
    rw [hb] at hlen hdec
    have hb0 : ¬b.toNat < 0x80 := fun h => by
      rw [List.cons_append, Utf8.decodeRune_one _ h] at hdec
      have := (Prod.mk.inj_iff.mp hdec).2
      omega
    rw [← Utf8.decodeRune_take, List.cons_append] at hdec
    rw [hb, List.cons_append, appendStringBody, if_neg hb0, hdec]
    dsimp only
    rw [if_neg (show ¬(_ ∧ (b :: rest).length = 1) by omega), ← List.cons_append, List.take_left,
      List.drop_left, ← hb, escapeRune, if_neg (show ¬Utf8.toScalar r < 0x80 by omega),
      Utf8.encodeRune_toScalar]
    split <;> rfl

/-! ## Any string, step by step -/

/-- **One step of `appendString`'s loop**: the escape of the rune an encoding holds (`some r`), or
`\ufffd` for a byte that starts no valid encoding (`none`). -/
def escapeStep : Option Nat → GoString
  | some r => escapeRune (Utf8.toScalar r)
  | none => bytes "\\ufffd"

/-- The rune a step stands for: the one read, or U+FFFD. -/
def stepRune (p : Option Nat) : Nat := p.getD Utf8.runeError

theorem bytes_ufffd : bytes "\\ufffd" = [92, 117, 102, 102, 102, 100] := by decide

/-- A byte that starts no valid encoding is written as `\ufffd`. -/
theorem appendStringBody_invalid {b : UInt8} {t : GoString} (fuel : Nat)
    (h : Utf8.decodeRune (b :: t) = (Utf8.runeError, 1)) :
    appendStringBody (fuel + 1) (b :: t) = bytes "\\ufffd" ++ appendStringBody fuel t := by
  have hb : ¬b.toNat < 0x80 := fun hb => by
    rw [Utf8.decodeRune_one t hb] at h
    have := (Prod.mk.inj h).1
    unfold Utf8.runeError at this
    omega
  rw [appendStringBody, if_neg hb, Utf8.decodeRune_take, h]
  rfl

/-- **What `appendString` writes for any string**, in steps: each the escape of the rune of an
encoding the string holds, or `\ufffd` for a byte that starts none. Read as runes, the same steps
give the string as `Utf8.coerce` writes it back. -/
theorem appendStringBody_steps : ∀ (fuel : Nat) (s : GoString), s.length ≤ fuel →
    ∃ steps : List (Option Nat), appendStringBody fuel s = steps.flatMap escapeStep ∧
      Utf8.coerceAux fuel s = steps.flatMap (Utf8.encodeRune ∘ stepRune)
  | 0, [], _ | 0, _ :: _, _ | _ + 1, [], _ => ⟨[], rfl, rfl⟩
  | fuel + 1, b :: t, hl => by
    rcases hd : Utf8.decodeRune (b :: t) with ⟨r, n⟩
    by_cases hv : r = Utf8.runeError ∧ n = 1
    · obtain ⟨rfl, rfl⟩ := hv
      obtain ⟨steps, h₁, h₂⟩ := appendStringBody_steps fuel t (Nat.le_of_succ_le_succ hl)
      refine ⟨none :: steps, ?_, ?_⟩
      · rw [appendStringBody_invalid fuel hd, h₁]
        rfl
      · rw [Utf8.coerceAux_invalid fuel hd, h₂]
        rfl
    · obtain ⟨t', he, -⟩ := Utf8.eq_encodeRune_of_decodeRune hd hv
      have hlen : t'.length ≤ fuel := by
        have := List.length_pos.mpr (Utf8.encodeRune_ne_nil r)
        rw [he, List.length_append] at hl
        omega
      obtain ⟨steps, h₁, h₂⟩ := appendStringBody_steps fuel t' hlen
      refine ⟨some r :: steps, ?_, ?_⟩
      · rw [he, appendStringBody_encodeRune, h₁]
        rfl
      · rw [he, Utf8.coerceAux_encodeRune_append, h₂]
        rfl

end Json
