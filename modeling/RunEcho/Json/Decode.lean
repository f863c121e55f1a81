import RunEcho.Json.Encode

/-!
# `encoding/json`'s decoder

`json.Unmarshal` reads a document twice. `checkValid` runs the scanner over every byte first, a
state machine with a stack of open arrays and objects, and returns its `SyntaxError` if the bytes
are not one JSON value between spaces. Only then does `decodeState` walk the value, with the same
scanner finding the end of each literal, and store what it reads into the target. The model reads
the document once, by recursive descent, into a `Value`, and `Storage` stores the `Value`: each
function below is one group of the scanner's states, under the state's name, reports the error
that state reports at the byte it rejects, and builds what `decodeState` builds from the bytes it
accepts. The scanner's depth limit is kept: a document that nests more than `maxNestingDepth`
arrays and objects is refused.

At the end of input the scanner steps a space into its state (`scanner.eof`). A state that skips
spaces is then still unfinished and the error is `unexpected end of JSON input`; a state that
rejects a space reports the space, byte 32, as an invalid character.

A string literal is validated by the scanner and then unquoted by **`unquoteBytes`**, which is
where the decoder changes what it reads: a byte that starts no valid UTF-8 encoding becomes
U+FFFD, as does an escaped lone surrogate. So every string the decoder returns is well-formed
UTF-8, whatever the document held.

The recursion runs on fuel, since each step returns the input it did not consume; three steps per
byte are enough, so the fuel-out error is never reported (`Json.Errors`). The error texts are those
of Go 1.24's scanner.
-/

namespace Json

/-! ## Errors -/

/-- `strconv.Quote(string(rune(c)))` without its quotes, for the rune U+00XX of a byte `c` other
than `"`: printable runes as themselves, the others escaped. -/
def quoteRune (c : UInt8) : String :=
  let n := c.toNat
  if n = 7 then "\\a" else if n = 8 then "\\b" else if n = 12 then "\\f"
  else if n = 10 then "\\n" else if n = 13 then "\\r" else if n = 9 then "\\t"
  else if n = 11 then "\\v" else if n = 92 then "\\\\"
  else if n < 0x20 ∨ n = 0x7F then "\\x" ++ String.mk [Char.ofNat (hexDigit (n / 16)).toNat,
    Char.ofNat (hexDigit (n % 16)).toNat]
  else if (0x80 ≤ n ∧ n ≤ 0xA0) ∨ n = 0xAD then "\\u00" ++ String.mk [Char.ofNat (hexDigit (n / 16)).toNat,
    Char.ofNat (hexDigit (n % 16)).toNat]
  else String.singleton (Char.ofNat n)

/-- **`quoteChar`**: a byte as the scanner's messages show it. -/
def quoteChar (c : UInt8) : String :=
  if c = 39 then "'\\''" else if c = 34 then "'\"'" else "'" ++ quoteRune c ++ "'"

/-- The message of the scanner's `SyntaxError` for an invalid byte `c`. -/
def invalidChar (c : UInt8) (context : String) : String :=
  "invalid character " ++ quoteChar c ++ " " ++ context

/-- The message of the `SyntaxError` at the end of an unfinished value. -/
def unexpectedEnd : String := "unexpected end of JSON input"

/-- Go's `phasePanicMsg`, with which the decoder panics when the scanner accepted a literal it
cannot read. -/
def phasePanicMsg : String := "JSON decoder out of sync - data changing underfoot?"

/-- What the model reports when its fuel runs out, which enough fuel never does. -/
def outOfFuel : String := "out of fuel"

/-! ## Spaces and literals -/

/-- `isSpace` of the scanner: space, tab, carriage return and line feed. -/
def isSpace (c : UInt8) : Bool := c == 32 || c == 9 || c == 13 || c == 10

/-- The spaces the scanner skips before a value or a delimiter. -/
def skipSpace : GoString → GoString
  | [] => []
  | c :: s => if isSpace c then skipSpace s else c :: s

/-- A decimal digit. -/
def isDigit (c : UInt8) : Bool := 48 ≤ c && c ≤ 57

/-- A hex digit, in either case. -/
def isHex (c : UInt8) : Bool := isDigit c || (97 ≤ c && c ≤ 102) || (65 ≤ c && c ≤ 70)

/-- Prepend a byte to the literal a scan returned. -/
def consLit (c : UInt8) (r : Except String (GoString × GoString)) :
    Except String (GoString × GoString) :=
  r.map fun p => (c :: p.1, p.2)

/-- The scanner's states inside a string: `stateInString`, `stateInStringEsc`, and
`stateInStringEscU`, `…U1`, `…U12`, `…U123` by the number of hex digits read. -/
inductive StringState where
  | inString
  | esc
  | escU (n : Nat)

/-- **The scanner in a string literal**: the bytes up to the closing quote, and what follows it. -/
def scanString : StringState → GoString → Except String (GoString × GoString)
  | .inString, [] => .error unexpectedEnd
  | .inString, c :: s =>
    if c = 34 then .ok ([], s)
    else if c = 92 then consLit c (scanString .esc s)
    else if c < 0x20 then .error (invalidChar c "in string literal")
    else consLit c (scanString .inString s)
  | .esc, s =>
    match s with
    | c :: s =>
      if c = 98 ∨ c = 102 ∨ c = 110 ∨ c = 114 ∨ c = 116 ∨ c = 92 ∨ c = 47 ∨ c = 34 then
        consLit c (scanString .inString s)
      else if c = 117 then consLit c (scanString (.escU 0) s)
      else .error (invalidChar c "in string escape code")
    | [] => .error (invalidChar 32 "in string escape code")
  | .escU n, s =>
    match s with
    | c :: s =>
      if isHex c then consLit c (scanString (if n = 3 then .inString else .escU (n + 1)) s)
      else .error (invalidChar c "in \\u hexadecimal character escape")
    | [] => .error (invalidChar 32 "in \\u hexadecimal character escape")

/-- The scanner's states in a number: `stateNeg`, `state0`, `state1`, `stateDot`, `stateDot0`,
`stateE`, `stateESign` and `stateE0`. -/
inductive NumberState where
  | neg
  | zero
  | one
  | dot
  | dot0
  | e
  | eSign
  | e0

/-- **The scanner in a number literal**: the rest of the literal, and what follows it. A number
ends at the first byte its state does not take, which `stateEndValue` reads next. -/
def scanNumber : NumberState → GoString → Except String (GoString × GoString)
  | .neg, [] => .error (invalidChar 32 "in numeric literal")
  | .neg, c :: s =>
    if c = 48 then consLit c (scanNumber .zero s)
    else if isDigit c then consLit c (scanNumber .one s)
    else .error (invalidChar c "in numeric literal")
  | .zero, [] => .ok ([], [])
  | .zero, c :: s =>
    if c = 46 then consLit c (scanNumber .dot s)
    else if c = 101 ∨ c = 69 then consLit c (scanNumber .e s)
    else .ok ([], c :: s)
  | .one, [] => .ok ([], [])
  | .one, c :: s =>
    if isDigit c then consLit c (scanNumber .one s)
    else if c = 46 then consLit c (scanNumber .dot s)
    else if c = 101 ∨ c = 69 then consLit c (scanNumber .e s)
    else .ok ([], c :: s)
  | .dot, [] => .error (invalidChar 32 "after decimal point in numeric literal")
  | .dot, c :: s =>
    if isDigit c then consLit c (scanNumber .dot0 s)
    else .error (invalidChar c "after decimal point in numeric literal")
  | .dot0, [] => .ok ([], [])
  | .dot0, c :: s =>
    if isDigit c then consLit c (scanNumber .dot0 s)
    else if c = 101 ∨ c = 69 then consLit c (scanNumber .e s)
    else .ok ([], c :: s)
  | .e, [] => .error (invalidChar 32 "in exponent of numeric literal")
  | .e, c :: s =>
    if c = 43 ∨ c = 45 then consLit c (scanNumber .eSign s)
    else if isDigit c then consLit c (scanNumber .e0 s)
    else .error (invalidChar c "in exponent of numeric literal")
  | .eSign, [] => .error (invalidChar 32 "in exponent of numeric literal")
  | .eSign, c :: s =>
    if isDigit c then consLit c (scanNumber .e0 s)
    else .error (invalidChar c "in exponent of numeric literal")
  | .e0, [] => .ok ([], [])
  | .e0, c :: s =>
    if isDigit c then consLit c (scanNumber .e0 s) else .ok ([], c :: s)

/-- The text of the scanner's error in `true`, `false` or `null` when it expects `w`. -/
def expecting (name : String) (w : UInt8) : String :=
  "in literal " ++ name ++ " (expecting " ++ quoteChar w ++ ")"

/-- **The scanner in `true`, `false` or `null`** after its first letter (`stateT`, `stateTr`,
…): each remaining letter of `word` against the next byte, and what follows. -/
def scanWord (name : String) : GoString → GoString → Except String GoString
  | [], s => .ok s
  | w :: _, [] => .error (invalidChar 32 (expecting name w))
  | w :: ws, c :: s => if c = w then scanWord name ws s else .error (invalidChar c (expecting name w))

/-! ## Unquoting -/

/-- The value of a hex digit. -/
def hexValue (c : UInt8) : Option Nat :=
  if 48 ≤ c ∧ c ≤ 57 then some (c.toNat - 48)
  else if 97 ≤ c ∧ c ≤ 102 then some (c.toNat - 87)
  else if 65 ≤ c ∧ c ≤ 70 then some (c.toNat - 55)
  else none

/-- **`getu4`**: the code unit of the `\uXXXX` escape `s` starts with; `none` is Go's `-1`. -/
def getu4 : GoString → Option Nat
  | 92 :: 117 :: h1 :: h2 :: h3 :: h4 :: _ => do
    let a ← hexValue h1
    let b ← hexValue h2
    let c ← hexValue h3
    let d ← hexValue h4
    pure (((a * 16 + b) * 16 + c) * 16 + d)
  | _ => none

/-- `utf16.IsSurrogate`. -/
def isSurrogate (r : Nat) : Bool := 0xD800 ≤ r && r < 0xE000

/-- **`utf16.DecodeRune`**: the rune of a surrogate pair, U+FFFD if it is not one. Go writes the
sum as a shift and an or, on disjoint bits. -/
def decodeUtf16 (r1 r2 : Nat) : Nat :=
  if 0xD800 ≤ r1 ∧ r1 < 0xDC00 ∧ 0xDC00 ≤ r2 ∧ r2 < 0xE000 then
    (r1 - 0xD800) * 1024 + (r2 - 0xDC00) + 0x10000
  else Utf8.runeError

/-- One pass of the loop of **`unquoteBytes`** at the byte `c`, followed by `s`: what it writes
and what is left to read, or `none` where Go returns `ok = false`. -/
def unquoteStep (c : UInt8) (s : GoString) : Option (GoString × GoString) :=
  if c = 92 then
    match s with
    | [] => none
    | e :: s' =>
      if e = 34 ∨ e = 92 ∨ e = 47 ∨ e = 39 then some ([e], s')
      else if e = 98 then some ([8], s')
      else if e = 102 then some ([12], s')
      else if e = 110 then some ([10], s')
      else if e = 114 then some ([13], s')
      else if e = 116 then some ([9], s')
      else if e = 117 then
        match getu4 (c :: s) with
        | none => none
        | some rr =>
          if isSurrogate rr then
            let dec := match getu4 (s.drop 5) with
              | some rr1 => decodeUtf16 rr rr1
              | none => Utf8.runeError
            if dec ≠ Utf8.runeError then some (Utf8.encodeRune dec, s.drop 11)
            else some (Utf8.encodeRune Utf8.runeError, s.drop 5)
          else some (Utf8.encodeRune rr, s.drop 5)
      else none
  else if c = 34 ∨ c < 0x20 then none
  else if c.toNat < 0x80 then some ([c], s)
  else
    let (rr, size) := Utf8.decodeRune (c :: s)
    some (Utf8.encodeRune rr, (c :: s).drop size)

/-- The loop of **`unquoteBytes`** over the bytes between the quotes. Go first copies the longest
prefix that needs no unquoting, a run of ASCII and of valid runes, which the loop copies
unchanged as well. `fuel` bounds the passes, and the length of the input is enough. -/
def unquoteLoop : Nat → GoString → Option GoString
  | _, [] => some []
  | 0, _ :: _ => none
  | fuel + 1, c :: s =>
    match unquoteStep c s with
    | none => none
    | some (out, rest) => (out ++ ·) <$> unquoteLoop fuel rest

/-- **`unquoteBytes`** on the bytes between a literal's quotes. -/
def unquote (body : GoString) : Option GoString := unquoteLoop body.length body

/-! ## Integers -/

/-- `strconv.ParseUint(s, 10, 64)` without its range check: the value of a non-empty run of
decimal digits. -/
def parseDigits (s : GoString) : Option Nat :=
  if s ≠ [] ∧ s.all isDigit then some (s.foldl (fun acc c => 10 * acc + (c.toNat - 48)) 0) else none

/-- The end of `strconv.ParseInt` once the digits are read: the sign, and the range of an
`int64`. -/
def signedInt (neg : Bool) (un : Nat) : Option GoInt :=
  if neg then (if hu : un ≤ 2 ^ 63 then some ⟨-(un : Int), by omega⟩ else none)
  else if hu : un < 2 ^ 63 then some ⟨un, by omega⟩ else none

/-- **`strconv.ParseInt(s, 10, 64)`**: a sign, then decimal digits, within the range of an
`int64`; `none` for Go's syntax and range errors. -/
def parseInt : GoString → Option GoInt
  | 43 :: t => (parseDigits t).bind (signedInt false)
  | 45 :: t => (parseDigits t).bind (signedInt true)
  | t => (parseDigits t).bind (signedInt false)

/-! ## Values -/

/-- `maxNestingDepth`: the deepest nesting of arrays and objects the scanner accepts. -/
def maxNestingDepth : Nat := 10000

/-- **A string literal** after its opening quote, as the scanner reads it and `unquoteBytes`
decodes it: the string, and what follows the closing quote. Keys and string values alike are read
so; the scanner has accepted the literal when `unquoteBytes` fails, so Go panics there. -/
def parseString (s : GoString) : Except String (GoString × GoString) := do
  let (body, rest) ← scanString .inString s
  match unquote body with
  | some str => .ok (str, rest)
  | none => .error phasePanicMsg

/-- **`stateBeginValue` at a byte that opens no array or object**: a literal, read to its end,
and what follows it. -/
def parseLiteral (c : UInt8) (rest : GoString) : Except String (Value × GoString) :=
  if c = 34 then (parseString rest).map fun (str, rest) => (.string str, rest)
  else if c = 45 then (scanNumber .neg rest).map fun (lit, rest) => (.number (c :: lit), rest)
  else if c = 48 then (scanNumber .zero rest).map fun (lit, rest) => (.number (c :: lit), rest)
  else if isDigit c then (scanNumber .one rest).map fun (lit, rest) => (.number (c :: lit), rest)
  else if c = 116 then (scanWord "true" (bytes "rue") rest).map fun rest => (.bool true, rest)
  else if c = 102 then (scanWord "false" (bytes "alse") rest).map fun rest => (.bool false, rest)
  else if c = 110 then (scanWord "null" (bytes "ull") rest).map fun rest => (.null, rest)
  else .error (invalidChar c "looking for beginning of value")

mutual
/-- **`stateBeginValue`**: one value, after the spaces before it, and what follows it. `depth` is
the height of the scanner's stack of open arrays and objects. -/
def parseValue : Nat → Nat → GoString → Except String (Value × GoString)
  | 0, _, _ => .error outOfFuel
  | fuel + 1, depth, s =>
    match skipSpace s with
    | [] => .error unexpectedEnd
    | c :: rest =>
      if c = 123 then
        if depth < maxNestingDepth then parseObject fuel (depth + 1) rest
        else .error (invalidChar c "exceeded max depth")
      else if c = 91 then
        if depth < maxNestingDepth then parseArray fuel (depth + 1) rest
        else .error (invalidChar c "exceeded max depth")
      else parseLiteral c rest
termination_by structural fuel => fuel

/-- **`stateBeginValueOrEmpty`**, after a `[`: the array, and what follows its `]`. -/
def parseArray : Nat → Nat → GoString → Except String (Value × GoString)
  | 0, _, _ => .error outOfFuel
  | fuel + 1, depth, s =>
    match skipSpace s with
    | c :: rest =>
      if c = 93 then .ok (.array [], rest)
      else (parseElems fuel depth (c :: rest)).map fun (vs, rest) => (.array vs, rest)
    | [] => .error unexpectedEnd
termination_by structural fuel => fuel

/-- The elements of an array from its first: a value, then `stateEndValue` under
`parseArrayValue`, which reads a comma and the next element or the closing `]`. -/
def parseElems : Nat → Nat → GoString → Except String (List Value × GoString)
  | 0, _, _ => .error outOfFuel
  | fuel + 1, depth, s => do
    let (v, rest) ← parseValue fuel depth s
    match skipSpace rest with
    | c :: rest =>
      if c = 44 then (parseElems fuel depth rest).map fun (vs, rest) => (v :: vs, rest)
      else if c = 93 then .ok ([v], rest)
      else .error (invalidChar c "after array element")
    | [] => .error unexpectedEnd
termination_by structural fuel => fuel

/-- **`stateBeginStringOrEmpty`**, after an opening brace: the object, and what follows its
closing brace. -/
def parseObject : Nat → Nat → GoString → Except String (Value × GoString)
  | 0, _, _ => .error outOfFuel
  | fuel + 1, depth, s =>
    match skipSpace s with
    | c :: rest =>
      if c = 125 then .ok (.object [], rest)
      else (parseMembers fuel depth (c :: rest)).map fun (ms, rest) => (.object ms, rest)
    | [] => .error unexpectedEnd
termination_by structural fuel => fuel

/-- The members of an object from its first: `stateBeginString` and the key, `stateEndValue`
under `parseObjectKey`, which reads the colon, the value, and `stateEndValue` under
`parseObjectValue`, which reads a comma and the next member or the closing brace. -/
def parseMembers : Nat → Nat → GoString → Except String (List (GoString × Value) × GoString)
  | 0, _, _ => .error outOfFuel
  | fuel + 1, depth, s =>
    match skipSpace s with
    | c :: rest =>
      if c = 34 then do
        let (key, rest) ← parseString rest
        match skipSpace rest with
        | c :: rest =>
          if c = 58 then do
            let (v, rest) ← parseValue fuel depth rest
            match skipSpace rest with
            | c :: rest =>
              if c = 44 then (parseMembers fuel depth rest).map fun (ms, rest) => ((key, v) :: ms, rest)
              else if c = 125 then .ok ([(key, v)], rest)
              else .error (invalidChar c "after object key:value pair")
            | [] => .error unexpectedEnd
          else .error (invalidChar c "after object key")
        | [] => .error unexpectedEnd
      else .error (invalidChar c "looking for beginning of object key string")
    | [] => .error unexpectedEnd
termination_by structural fuel => fuel
end

/-- **`checkValid` and the decoding walk over a whole document**: one value, and after it only
spaces (`stateEndTop`). -/
def parseDocument (data : GoString) : Except String Value := do
  let (v, rest) ← parseValue (3 * data.length + 1) 0 data
  match skipSpace rest with
  | [] => .ok v
  | c :: _ => .error (invalidChar c "after top-level value")

end Json
