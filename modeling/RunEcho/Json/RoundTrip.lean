import RunEcho.Json.Decode

/-!
# Reading back what the encoder writes

Two facts about the pair of `encode` and `parseDocument`, each in the form the storage layer
needs.

**What the decoder returns is well formed.** Every string of a decoded value, keys included, is
UTF-8 (`parseDocument_stringsValid`): the scanner lets any byte of 0x20 or above through a string
literal, but `unquoteBytes` re-encodes what it reads rune by rune, as U+FFFD where the bytes
encode none.

**The decoder reads back what the encoder wrote, with every string made well formed**
(`parseDocument_encode_coerce`), for a value whose numbers are integer literals and whose nesting
the scanner's depth limit allows: each string comes back as `Utf8.coerce` of it, Go's
`string([]rune(s))`, which turns every byte that starts no valid encoding into U+FFFD. The proof
follows the encoder: `appendString` writes one escape per encoding or stray byte, the scanner
passes over each escape, and `unquoteBytes` turns each back into its rune; values then follow by
structural recursion, with three steps of fuel per byte.
-/

namespace Json

/-! ## Values whose strings and numbers satisfy a predicate -/

mutual
/-- **Every string of a value satisfies `ps`, keys included, and every number literal `pn`.** -/
def Value.All (ps pn : GoString → Prop) : Value → Prop
  | .null => True
  | .bool _ => True
  | .number literal => pn literal
  | .string s => ps s
  | .array vs => Value.AllElems ps pn vs
  | .object ms => Value.AllMembers ps pn ms

/-- `Value.All` over the elements of an array. -/
def Value.AllElems (ps pn : GoString → Prop) : List Value → Prop
  | [] => True
  | v :: vs => v.All ps pn ∧ Value.AllElems ps pn vs

/-- `Value.All` over the members of an object, keys included. -/
def Value.AllMembers (ps pn : GoString → Prop) : List (GoString × Value) → Prop
  | [] => True
  | (k, v) :: ms => ps k ∧ v.All ps pn ∧ Value.AllMembers ps pn ms
end

/-- **Every string of the value is well-formed UTF-8.** -/
def Value.StringsValid (v : Value) : Prop := v.All Utf8.Valid fun _ => True

mutual
/-- How deep arrays and objects nest in a value. -/
def Value.depth : Value → Nat
  | .array vs => Value.elemsDepth vs + 1
  | .object ms => Value.membersDepth ms + 1
  | _ => 0

/-- The deepest nesting among the elements of an array. -/
def Value.elemsDepth : List Value → Nat
  | [] => 0
  | v :: vs => max v.depth (Value.elemsDepth vs)

/-- The deepest nesting among the values of an object. -/
def Value.membersDepth : List (GoString × Value) → Nat
  | [] => 0
  | (_, v) :: ms => max v.depth (Value.membersDepth ms)
end

mutual
/-- **A value as the decoder reads back its encoding**: every string, keys included, through
`Utf8.coerce`. -/
def Value.coerce : Value → Value
  | .string s => .string (Utf8.coerce s)
  | .array vs => .array (Value.coerceElems vs)
  | .object ms => .object (Value.coerceMembers ms)
  | v => v

/-- `Value.coerce` over the elements of an array. -/
def Value.coerceElems : List Value → List Value
  | [] => []
  | v :: vs => v.coerce :: Value.coerceElems vs

/-- `Value.coerce` over the members of an object, keys included. -/
def Value.coerceMembers : List (GoString × Value) → List (GoString × Value)
  | [] => []
  | (k, v) :: ms => (Utf8.coerce k, v.coerce) :: Value.coerceMembers ms
end

@[simp] theorem Value.coerce_number (literal : GoString) : (Value.number literal).coerce = .number literal :=
  rfl

@[simp] theorem Value.coerce_string (s : GoString) : (Value.string s).coerce = .string (Utf8.coerce s) := rfl

@[simp] theorem Value.coerce_array (vs : List Value) : (Value.array vs).coerce = .array (Value.coerceElems vs) :=
  rfl

@[simp] theorem Value.coerce_object (ms : List (GoString × Value)) :
    (Value.object ms).coerce = .object (Value.coerceMembers ms) := rfl

@[simp] theorem Value.coerceMembers_cons (k : GoString) (v : Value) (ms : List (GoString × Value)) :
    Value.coerceMembers ((k, v) :: ms) = (Utf8.coerce k, v.coerce) :: Value.coerceMembers ms := rfl

@[simp] theorem Value.coerceMembers_nil : Value.coerceMembers [] = [] := rfl

/-! ## Unquoting gives well-formed strings -/

theorem unquoteStep_valid {c : UInt8} {s out rest : GoString}
    (h : unquoteStep c s = some (out, rest)) : Utf8.Valid out := by
  have rune : ∀ {x : Nat} {r : GoString}, some (Utf8.encodeRune x, r) = some (out, rest) →
      Utf8.Valid out := by
    rintro x r ⟨⟩
    exact Utf8.valid_encodeRune x
  -- an `if` whose first branch writes one ASCII byte, the other branch left to `k`
  have ascii : ∀ {p : Prop} [Decidable p] {b : UInt8} {r : GoString} {x : Option (GoString × GoString)},
      (if p then some ([b], r) else x) = some (out, rest) → (p → b.toNat < 0x80) →
      (x = some (out, rest) → Utf8.Valid out) → Utf8.Valid out := by
    intro p _ b r x h hb k
    by_cases hp : p
    · rw [if_pos hp] at h
      cases h
      exact Utf8.valid_ascii (hb hp)
    · rw [if_neg hp] at h
      exact k h
  unfold unquoteStep at h
  by_cases h92 : c = 92
  · rw [if_pos h92] at h
    rcases s with _ | ⟨e, s'⟩
    · cases h
    refine ascii h (fun he => by rcases he with rfl | rfl | rfl | rfl <;> decide) fun h => ?_
    refine ascii h (fun _ => by decide) fun h => ascii h (fun _ => by decide) fun h =>
      ascii h (fun _ => by decide) fun h => ascii h (fun _ => by decide) fun h =>
      ascii h (fun _ => by decide) fun h => ?_
    split at h
    · split at h
      · cases h
      split at h
      · dsimp only at h
        split_ifs at h <;> exact rune h
      · exact rune h
    · cases h
  · rw [if_neg h92] at h
    split at h
    · cases h
    exact ascii h id fun h => rune h

theorem unquoteLoop_valid : ∀ {fuel : Nat} {s t : GoString}, unquoteLoop fuel s = some t →
    Utf8.Valid t
  | _, [], _, h => by rw [unquoteLoop.eq_1] at h; cases h; exact Utf8.valid_nil
  | 0, _ :: _, _, h => by rw [unquoteLoop.eq_2] at h; cases h
  | fuel + 1, c :: s, t, h => by
    rw [unquoteLoop.eq_3] at h
    split at h
    · cases h
    · next out rest hstep =>
      obtain ⟨t', h', rfl⟩ := Option.map_eq_some'.mp h
      exact (unquoteStep_valid hstep).append (unquoteLoop_valid h')

/-- **`unquoteBytes` returns well-formed UTF-8**, whatever bytes it reads. -/
theorem unquote_valid {body t : GoString} (h : unquote body = some t) : Utf8.Valid t :=
  unquoteLoop_valid h

/-! ## The scanner passes over an escaped string -/

/-- Prepend `p` to the literal a scan returned. -/
def prependLit (p : GoString) (q : GoString × GoString) : GoString × GoString := (p ++ q.1, q.2)

/-- **The scanner in a string passes over `p`**, whatever follows it. -/
def ScansThrough (p : GoString) : Prop :=
  ∀ t, scanString .inString (p ++ t) = (scanString .inString t).map (prependLit p)

theorem ScansThrough.append {p q : GoString} (hp : ScansThrough p) (hq : ScansThrough q) :
    ScansThrough (p ++ q) := fun t => by
  rw [List.append_assoc, hp, hq]
  cases scanString .inString t <;> simp [Except.map, prependLit]

theorem scansThrough_plain {c : UInt8} (hc : 0x20 ≤ c.toNat) (h34 : c ≠ 34) (h92 : c ≠ 92) :
    ScansThrough [c] := fun t => by
  rw [List.singleton_append, scanString.eq_2, if_neg h34, if_neg h92,
    if_neg (show ¬c < 32 from Nat.not_lt.mpr hc)]
  rfl

theorem scansThrough_nil : ScansThrough [] := fun t => by
  rw [List.nil_append]
  cases scanString .inString t <;> rfl

theorem scansThrough_high {p : GoString} (hp : ∀ b ∈ p, 0x80 ≤ b.toNat) : ScansThrough p := by
  induction p with
  | nil => exact scansThrough_nil
  | cons b p ih =>
    rw [List.forall_mem_cons] at hp
    have h := hp.1
    exact (scansThrough_plain (by omega) (fun e => by subst e; exact absurd h (by decide))
      (fun e => by subst e; exact absurd h (by decide))).append (ih hp.2)

theorem scansThrough_escape {e : UInt8}
    (he : e = 98 ∨ e = 102 ∨ e = 110 ∨ e = 114 ∨ e = 116 ∨ e = 92 ∨ e = 47 ∨ e = 34) :
    ScansThrough [92, e] := fun t => by
  rw [List.cons_append, scanString.eq_2, if_neg (by decide), if_pos rfl, List.singleton_append,
    scanString.eq_3, if_pos he]
  cases scanString .inString t <;> rfl

theorem isHex_hexDigit : ∀ n, n < 16 → isHex (hexDigit n) = true := by decide

theorem scansThrough_u {h₁ h₂ h₃ h₄ : UInt8} (e₁ : isHex h₁) (e₂ : isHex h₂) (e₃ : isHex h₃)
    (e₄ : isHex h₄) : ScansThrough [92, 117, h₁, h₂, h₃, h₄] := fun t => by
  rw [List.cons_append, scanString.eq_2, if_neg (by decide), if_pos rfl, List.cons_append,
    scanString.eq_3, if_neg (by decide), if_pos rfl, List.cons_append, scanString.eq_5, if_pos e₁,
    if_neg (by decide), List.cons_append, scanString.eq_5, if_pos e₂, if_neg (by decide),
    List.cons_append, scanString.eq_5, if_pos e₃, if_neg (by decide), List.singleton_append,
    scanString.eq_5, if_pos e₄, if_pos rfl]
  cases scanString .inString t <;> rfl

theorem scansThrough_escapeASCII {b : UInt8} : ScansThrough (escapeASCII b) := by
  rcases escapeASCII_cases b with ⟨h₁, e⟩ | ⟨rfl | rfl, e⟩ | ⟨rfl, e⟩ | ⟨rfl, e⟩ | ⟨rfl, e⟩ | ⟨rfl, e⟩ |
    ⟨rfl, e⟩ | e <;> rw [e]
  · simp only [htmlSafe, Bool.and_eq_true, bne_iff_ne, ne_eq, decide_eq_true_eq] at h₁
    exact scansThrough_plain h₁.1.1.1.1.1 h₁.1.1.1.1.2 h₁.1.1.1.2
  all_goals try exact scansThrough_escape (by decide)
  have : b.toNat < 256 := b.toNat_lt_size
  exact scansThrough_u (by decide) (by decide) (isHex_hexDigit _ (by omega))
    (isHex_hexDigit _ (by omega))

theorem scansThrough_escapeRune (x : Nat) : ScansThrough (escapeRune x) := by
  unfold escapeRune
  split_ifs with h₁
  · exact scansThrough_escapeASCII
  · exact scansThrough_u (by decide) (by decide) (by decide) (isHex_hexDigit _ (by omega))
  · exact scansThrough_high fun b hb => Utf8.le_of_mem_encodeRune (by omega) hb

theorem scansThrough_escapeStep : ∀ p, ScansThrough (escapeStep p)
  | some _ => scansThrough_escapeRune _
  | none => by
    rw [escapeStep, bytes_ufffd]
    exact scansThrough_u (by decide) (by decide) (by decide) (by decide)

/-- **The scanner finds the end of a string `appendString` wrote** at its closing quote. -/
theorem scanString_escaped (steps : List (Option Nat)) (t : GoString) :
    scanString .inString (steps.flatMap escapeStep ++ 34 :: t) = .ok (steps.flatMap escapeStep, t) := by
  have h : ScansThrough (steps.flatMap escapeStep) := by
    induction steps with
    | nil => exact scansThrough_nil
    | cons p ps ih => exact (scansThrough_escapeStep p).append ih
  rw [h, scanString.eq_2, if_pos rfl]
  simp [Except.map, prependLit]

/-! ## Unquoting an escaped string gives it back -/

theorem hexValue_hexDigit : ∀ n, n < 16 → hexValue (hexDigit n) = some n := by decide

theorem getu4_hexDigits {n : Nat} (h : n < 0x10000) (t : GoString) :
    getu4 (92 :: 117 :: hexDigit (n / 4096) :: hexDigit (n / 256 % 16) :: hexDigit (n / 16 % 16) ::
      hexDigit (n % 16) :: t) = some n := by
  rw [getu4, hexValue_hexDigit _ (by omega), hexValue_hexDigit _ (by omega),
    hexValue_hexDigit _ (by omega), hexValue_hexDigit _ (by omega)]
  simp only [Option.bind_eq_bind, Option.some_bind, Option.pure_def, Option.some.injEq]
  omega

/-- **`unquoteBytes` reads `p` back as `out`**, in one pass, whatever follows. -/
def UnquotesTo (p out : GoString) : Prop :=
  ∀ fuel t, unquoteLoop (fuel + 1) (p ++ t) = (out ++ ·) <$> unquoteLoop fuel t

theorem unquotesTo_of_step {c : UInt8} {p out : GoString}
    (h : ∀ t, unquoteStep c (p ++ t) = some (out, t)) : UnquotesTo (c :: p) out := fun fuel t => by
  rw [List.cons_append, unquoteLoop.eq_3, h]

theorem unquotesTo_u {n : Nat} (h : n < 0xD800) :
    UnquotesTo [92, 117, hexDigit (n / 4096), hexDigit (n / 256 % 16), hexDigit (n / 16 % 16),
      hexDigit (n % 16)] (Utf8.encodeRune n) := unquotesTo_of_step fun t => by
  unfold unquoteStep
  simp only [List.cons_append, List.nil_append, if_pos, getu4_hexDigits (show n < 0x10000 by omega)]
  rw [if_neg (by decide), if_neg (by decide), if_neg (by decide), if_neg (by decide),
    if_neg (by decide), if_neg (by decide),
    if_neg (show ¬isSurrogate n = true by
      simp only [isSurrogate, Bool.and_eq_true, decide_eq_true_eq]; omega)]
  rfl

theorem unquotesTo_escapeASCII {b : UInt8} (hb : b.toNat < 0x80) : UnquotesTo (escapeASCII b) [b] := by
  rcases escapeASCII_cases b with ⟨h₁, e⟩ | ⟨rfl | rfl, e⟩ | ⟨rfl, e⟩ | ⟨rfl, e⟩ | ⟨rfl, e⟩ | ⟨rfl, e⟩ |
    ⟨rfl, e⟩ | e <;> rw [e]
  · simp only [htmlSafe, Bool.and_eq_true, bne_iff_ne, ne_eq, decide_eq_true_eq] at h₁
    refine unquotesTo_of_step fun t => ?_
    rw [List.nil_append]
    unfold unquoteStep
    rw [if_neg h₁.1.1.1.2,
      if_neg (show ¬(b = 34 ∨ b < 32) from not_or.mpr ⟨h₁.1.1.1.1.2, not_lt.mpr h₁.1.1.1.1.1⟩),
      if_pos hb]
  all_goals try exact unquotesTo_of_step fun t => rfl
  have e := unquotesTo_u (n := b.toNat) (by omega)
  rw [show b.toNat / 4096 = 0 by omega, show b.toNat / 256 % 16 = 0 by omega,
    show b.toNat / 16 % 16 = b.toNat / 16 by omega, Utf8.encodeRune_toNat hb] at e
  exact e

theorem unquotesTo_high {x : Nat} (h : 0x80 ≤ x) : UnquotesTo (Utf8.encodeRune x) (Utf8.encodeRune x) := by
  obtain ⟨b, rest, hb⟩ := List.exists_cons_of_length_pos
    (show 0 < (Utf8.encodeRune x).length by have := Utf8.two_le_length_encodeRune h; omega)
  have hb0 : 0x80 ≤ b.toNat := Utf8.le_of_mem_encodeRune h (hb ▸ List.mem_cons_self b rest)
  rw [hb]
  refine unquotesTo_of_step fun t => ?_
  have hdec := Utf8.decodeRune_encodeRune_append x t
  rw [hb, List.cons_append] at hdec
  unfold unquoteStep
  rw [if_neg (fun e => by subst e; exact absurd hb0 (by decide)),
    if_neg (show ¬(b = 34 ∨ b < 32) from fun e =>
      e.elim (fun e => by subst e; exact absurd hb0 (by decide)) (fun e => absurd (show b.toNat < 32 from e) (by omega))),
    if_neg (show ¬b.toNat < 0x80 by omega), hdec]
  dsimp only
  rw [Utf8.encodeRune_toScalar, hb, ← List.cons_append, List.drop_left]

theorem unquotesTo_escapeRune (r : Nat) :
    UnquotesTo (escapeRune (Utf8.toScalar r)) (Utf8.encodeRune r) := by
  rw [← Utf8.encodeRune_toScalar r]
  generalize Utf8.toScalar r = x
  unfold escapeRune
  split_ifs with h₁ h₂
  · have e := UInt8.toNat_ofNat_of_lt (show x < 256 by omega)
    rw [Utf8.encodeRune_of_lt h₁]
    exact unquotesTo_escapeASCII (by omega)
  · have e := unquotesTo_u (n := x) (by omega)
    rcases h₂ with rfl | rfl <;> exact e
  · exact unquotesTo_high (by omega)

theorem escapeRune_ne_nil (x : Nat) : escapeRune x ≠ [] := by
  unfold escapeRune
  split_ifs
  · exact escapeASCII_ne_nil _
  · exact List.cons_ne_nil _ _
  · exact Utf8.encodeRune_ne_nil x

theorem unquotesTo_escapeStep : ∀ p, UnquotesTo (escapeStep p) (Utf8.encodeRune (stepRune p))
  | some r => unquotesTo_escapeRune r
  | none => by
    rw [escapeStep, bytes_ufffd]
    exact unquotesTo_of_step fun _ => rfl

theorem escapeStep_ne_nil : ∀ p, escapeStep p ≠ []
  | some _ => escapeRune_ne_nil _
  | none => by rw [escapeStep, bytes_ufffd]; exact List.cons_ne_nil _ _

theorem unquoteLoop_escaped (steps : List (Option Nat)) {fuel : Nat} (h : steps.length ≤ fuel) :
    unquoteLoop fuel (steps.flatMap escapeStep) = some (steps.flatMap (Utf8.encodeRune ∘ stepRune)) := by
  induction steps generalizing fuel with
  | nil => rw [List.flatMap_nil, unquoteLoop.eq_1]; rfl
  | cons p steps ih =>
    obtain ⟨fuel, rfl⟩ := Nat.exists_eq_add_of_lt (show 0 < fuel by simp at h; omega)
    rw [List.flatMap_cons, zero_add, unquotesTo_escapeStep, ih (by simp at h; omega)]
    rfl

theorem length_le_length_flatMap {α : Type} (f : α → GoString) (hf : ∀ x, f x ≠ []) (l : List α) :
    l.length ≤ (l.flatMap f).length := by
  induction l with
  | nil => simp
  | cons x l ih =>
    have := List.length_pos.mpr (hf x)
    simp only [List.flatMap_cons, List.length_append, List.length_cons]
    omega

theorem skipSpace_cons (c : UInt8) (h : isSpace c = false) (s : GoString) :
    skipSpace (c :: s) = c :: s := by
  rw [skipSpace, if_neg (by simp [h])]

/-! ## One value at a time -/

section
variable {fuel depth : Nat} {s rest : GoString} {c : UInt8}

theorem parseValue_literal (h : skipSpace s = c :: rest) (h123 : c ≠ 123) (h91 : c ≠ 91) :
    parseValue (fuel + 1) depth s = parseLiteral c rest := by
  rw [parseValue.eq_2, h]
  exact (if_neg h123).trans (if_neg h91)

theorem parseValue_array (h : skipSpace s = 91 :: rest) (hd : depth < maxNestingDepth) :
    parseValue (fuel + 1) depth s = parseArray fuel (depth + 1) rest := by
  rw [parseValue.eq_2, h]
  exact if_pos hd

theorem parseValue_object (h : skipSpace s = 123 :: rest) (hd : depth < maxNestingDepth) :
    parseValue (fuel + 1) depth s = parseObject fuel (depth + 1) rest := by
  rw [parseValue.eq_2, h]
  exact if_pos hd

end

/-- **What `appendString` writes, the decoder reads back**, with each byte that starts no valid
encoding as U+FFFD: a quote, then a body that the scanner passes over up to the closing quote and
that unquotes to the string as `Utf8.coerce` writes it. -/
theorem appendString_spec (s : GoString) :
    ∃ body, appendString s = 34 :: body ++ [34] ∧
      ∀ t, parseString (body ++ 34 :: t) = .ok (Utf8.coerce s, t) := by
  obtain ⟨steps, h₁, h₂⟩ := appendStringBody_steps s.length s le_rfl
  have hl := length_le_length_flatMap escapeStep escapeStep_ne_nil steps
  refine ⟨_, by rw [appendString, h₁], fun t => ?_⟩
  rw [parseString, scanString_escaped]
  simp only [bind, Except.bind]
  rw [unquote, unquoteLoop_escaped steps hl, Utf8.coerce, h₂]

/-- **A string reads back from what `appendString` writes**, through `Utf8.coerce`. -/
theorem parseValue_appendString (s : GoString) (fuel depth : Nat) (r : GoString) :
    parseValue (fuel + 1) depth (appendString s ++ r) = .ok (.string (Utf8.coerce s), r) := by
  obtain ⟨body, hbody, hparse⟩ := appendString_spec s
  rw [hbody, List.cons_append, List.cons_append,
    parseValue_literal (skipSpace_cons 34 rfl _) (by decide) (by decide),
    parseLiteral, if_pos rfl, List.append_assoc, List.singleton_append, hparse]
  rfl

/-! ## Integers -/

theorem isDigit_iff {c : UInt8} : isDigit c = true ↔ 48 ≤ c.toNat ∧ c.toNat ≤ 57 := by
  unfold isDigit
  simp only [Bool.and_eq_true, decide_eq_true_eq]
  exact Iff.rfl

/-- The value of a run of decimal digits, as `ParseUint` accumulates it. -/
def digitsValue (ds : GoString) : Nat := ds.foldl (fun acc c => 10 * acc + (c.toNat - 48)) 0

theorem digitsValue_append_singleton (ds : GoString) (d : UInt8) :
    digitsValue (ds ++ [d]) = 10 * digitsValue ds + (d.toNat - 48) := by
  simp [digitsValue, List.foldl_append]

/-- **What `decimalDigits` writes**: digits, a first one that is not `0` unless the number is,
whose value is the number. -/
theorem decimalDigits_spec : ∀ (fuel n : Nat) (acc : GoString), n < 10 ^ fuel →
    ∃ ds, decimalDigits fuel n acc = ds ++ acc ∧ (∀ c ∈ ds, isDigit c) ∧ digitsValue ds = n ∧
      (0 < fuel → ∃ d rest, ds = d :: rest ∧ (0 < n → d ≠ 48))
  | 0, n, acc, h => ⟨[], rfl, by simp, by simp at h; simp [digitsValue, h], by simp⟩
  | fuel + 1, n, acc, h => by
    have e : ∀ m, m < 10 → (UInt8.ofNat (48 + m)).toNat = 48 + m := fun m hm =>
      UInt8.toNat_ofNat_of_lt (show 48 + m < 256 by omega)
    rw [decimalDigits]
    split_ifs with hn
    · refine ⟨[UInt8.ofNat (48 + n)], rfl, ?_, ?_, fun _ => ⟨_, [], rfl, fun hn0 he => ?_⟩⟩
      · simp only [List.mem_singleton, forall_eq, isDigit_iff, e n hn]; omega
      · simp [digitsValue, e n hn]
      · have := congrArg UInt8.toNat he; rw [e n hn] at this; change 48 + n = 48 at this; omega
    · obtain ⟨ds, hds, hdig, hval, hhead⟩ :=
        decimalDigits_spec fuel (n / 10) _ (by rw [pow_succ] at h; omega)
      have hf : 0 < fuel := by
        rcases Nat.eq_zero_or_pos fuel with rfl | hf
        · simp at h; omega
        · exact hf
      obtain ⟨d, rest, rfl, hd⟩ := hhead hf
      refine ⟨d :: rest ++ [UInt8.ofNat (48 + n % 10)], by rw [hds]; simp, ?_, ?_,
        fun _ => ⟨d, rest ++ _, rfl, fun _ => hd (by omega)⟩⟩
      · intro c hc
        rcases List.mem_append.mp hc with hc | hc
        · exact hdig c hc
        · rw [List.mem_singleton.mp hc, isDigit_iff, e _ (Nat.mod_lt _ (by omega))]; omega
      · rw [digitsValue_append_singleton, hval, e _ (Nat.mod_lt _ (by omega))]; omega

/-- What follows a number in `encode`'s output: nothing that would continue its literal. -/
def NumberEnd : GoString → Prop
  | [] => True
  | c :: _ => isDigit c = false ∧ c ≠ 46 ∧ c ≠ 101 ∧ c ≠ 69

theorem scanNumber_zero {r : GoString} (hr : NumberEnd r) : scanNumber .zero r = .ok ([], r) := by
  rcases r with _ | ⟨c, t⟩
  · rfl
  · obtain ⟨-, h46, h101, h69⟩ := hr
    rw [scanNumber.eq_4, if_neg h46, if_neg (not_or.mpr ⟨h101, h69⟩)]

theorem scanNumber_one {ds r : GoString} (hd : ∀ c ∈ ds, isDigit c) (hr : NumberEnd r) :
    scanNumber .one (ds ++ r) = .ok (ds, r) := by
  induction ds with
  | nil =>
    rcases r with _ | ⟨c, t⟩
    · rfl
    · obtain ⟨hdc, h46, h101, h69⟩ := hr
      rw [List.nil_append, scanNumber.eq_6, if_neg (by simp [hdc]), if_neg h46,
        if_neg (not_or.mpr ⟨h101, h69⟩)]
  | cons d ds ih =>
    rw [List.forall_mem_cons] at hd
    rw [List.cons_append, scanNumber.eq_6, if_pos hd.1, ih hd.2]
    rfl

theorem appendInt_spec (i : GoInt) : ∃ d rest, (∀ c ∈ d :: rest, isDigit c) ∧
    digitsValue (d :: rest) = i.val.natAbs ∧ (0 < i.val.natAbs → d ≠ 48) ∧
    appendInt i = if i.val < 0 then 45 :: d :: rest else d :: rest := by
  obtain ⟨ds, hds, hdig, hval, hhead⟩ :=
    decimalDigits_spec (i.val.natAbs + 1) i.val.natAbs []
      ((Nat.lt_succ_self _).trans (Nat.lt_pow_self (by decide) _))
  obtain ⟨d, rest, rfl, hd⟩ := hhead (Nat.succ_pos _)
  rw [List.append_nil] at hds
  exact ⟨d, rest, hdig, hval, hd, by rw [appendInt, hds]⟩

theorem appendInt_zero {i : GoInt} (h : i.val = 0) : appendInt i = [48] := by
  rw [appendInt, h]
  rfl

/-- **An integer reads back from what `AppendInt` writes**, as a number literal. -/
theorem parseValue_appendInt (i : GoInt) {r : GoString} (hr : NumberEnd r) (fuel depth : Nat) :
    parseValue (fuel + 1) depth (appendInt i ++ r) = .ok (.number (appendInt i), r) := by
  obtain ⟨d, rest, hdig, hval, hd, happ⟩ := appendInt_spec i
  have hdd := isDigit_iff.mp (hdig d (List.mem_cons_self _ _))
  have hne : ∀ c : UInt8, 57 < c.toNat → d ≠ c := fun c hc e => by subst e; omega
  have hscan : scanNumber .one (rest ++ r) = .ok (rest, r) :=
    scanNumber_one (fun c hc => hdig c (List.mem_cons_of_mem _ hc)) hr
  rcases lt_trichotomy i.val 0 with hneg | h0 | hpos
  · have hscan' : scanNumber .neg (d :: rest ++ r) = .ok (d :: rest, r) := by
      rw [List.cons_append, scanNumber.eq_2, if_neg (hd (by omega)),
        if_pos (hdig d (List.mem_cons_self _ _)), hscan]
      rfl
    rw [happ, if_pos hneg, List.cons_append,
      parseValue_literal (skipSpace_cons 45 rfl _) (by decide) (by decide), parseLiteral,
      if_neg (show (45 : UInt8) ≠ 34 by decide), if_pos rfl, hscan']
    rfl
  · rw [appendInt_zero h0, List.singleton_append,
      parseValue_literal (skipSpace_cons 48 rfl _) (by decide) (by decide), parseLiteral,
      if_neg (show (48 : UInt8) ≠ 34 by decide), if_neg (show (48 : UInt8) ≠ 45 by decide), if_pos rfl,
      scanNumber_zero hr]
    rfl
  · have hsp : isSpace d = false := by
      unfold isSpace
      simp only [Bool.or_eq_false_iff, beq_eq_false_iff_ne, ne_eq]
      refine ⟨⟨⟨?_, ?_⟩, ?_⟩, ?_⟩ <;> intro e <;> subst e <;> exact absurd hdd (by decide)
    rw [happ, if_neg (by omega), List.cons_append,
      parseValue_literal (skipSpace_cons d hsp _) (hne 123 (by decide)) (hne 91 (by decide)), parseLiteral,
      if_neg (fun e => by subst e; exact absurd hdd (by decide)),
      if_neg (fun e => by subst e; exact absurd hdd (by decide)), if_neg (hd (by omega)),
      if_pos (hdig d (List.mem_cons_self _ _)), hscan]
    rfl

theorem parseDigits_eq {ds : GoString} (hne : ds ≠ []) (hd : ∀ c ∈ ds, isDigit c) :
    parseDigits ds = some (digitsValue ds) := by
  rw [parseDigits, if_pos ⟨hne, List.all_eq_true.mpr hd⟩]
  rfl

/-- **`ParseInt` reads back what `AppendInt` writes.** -/
theorem parseInt_appendInt (i : GoInt) : parseInt (appendInt i) = some i := by
  obtain ⟨d, rest, hdig, hval, hd, happ⟩ := appendInt_spec i
  have hp := parseDigits_eq (List.cons_ne_nil d rest) hdig
  have hdd := isDigit_iff.mp (hdig d (List.mem_cons_self _ _))
  have hi := i.property
  rw [hval] at hp
  rw [happ]
  split_ifs with hneg
  · rw [parseInt.eq_2, hp, Option.some_bind, signedInt, if_pos rfl, dif_pos (by omega)]
    exact congrArg some (Subtype.ext (by simp only; omega))
  · rw [parseInt.eq_3 _ (fun t e => by injection e with e; subst e; exact absurd hdd (by decide))
      (fun t e => by injection e with e; subst e; exact absurd hdd (by decide)), hp, Option.some_bind, signedInt,
      if_neg (by simp), dif_pos (by omega)]
    exact congrArg some (Subtype.ext (by simp only; omega))

/-! ## Values -/

/-- **What the decoder reads back from `encode`, up to its strings**: a value whose numbers are
literals as `AppendInt` writes them. -/
def Value.Encodable (v : Value) : Prop := v.All (fun _ => True) fun literal => ∃ i, literal = appendInt i

/-- The first byte `encode` writes is none the scanner skips, and does not close an array. -/
theorem encode_head {v : Value} (hv : v.Encodable) :
    ∃ c rest, encode v = c :: rest ∧ isSpace c = false ∧ c ≠ 93 := by
  cases v with
  | number literal =>
    obtain ⟨i, rfl⟩ := hv
    obtain ⟨d, rest, hdig, -, -, happ⟩ := appendInt_spec i
    have hdd := isDigit_iff.mp (hdig d (List.mem_cons_self _ _))
    rw [encode, happ]
    split_ifs
    · exact ⟨45, _, rfl, rfl, by decide⟩
    · refine ⟨d, rest, rfl, ?_, fun e => by subst e; exact absurd hdd (by decide)⟩
      unfold isSpace
      simp only [Bool.or_eq_false_iff, beq_eq_false_iff_ne, ne_eq]
      refine ⟨⟨⟨?_, ?_⟩, ?_⟩, ?_⟩ <;> intro e <;> subst e <;> exact absurd hdd (by decide)
  | bool b => cases b <;> exact ⟨_, _, rfl, rfl, by decide⟩
  | array vs => cases vs <;> exact ⟨_, _, rfl, rfl, by decide⟩
  | object ms => cases ms <;> exact ⟨_, _, rfl, rfl, by decide⟩
  | _ => exact ⟨_, _, rfl, rfl, by decide⟩

/-- The elements of an array as `encode` writes them after the `[`. -/
def encodeElems : List Value → GoString
  | [] => [93]
  | v :: vs => encode v ++ encodeElemsTail vs

/-- The members of an object as `encode` writes them after the opening brace. -/
def encodeMembers : List (GoString × Value) → GoString
  | [] => [125]
  | (k, v) :: ms => appendString k ++ 58 :: encode v ++ encodeMembersTail ms

theorem encode_array (vs : List Value) : encode (.array vs) = 91 :: encodeElems vs := by
  cases vs <;> rfl

theorem encode_object (ms : List (GoString × Value)) :
    encode (.object ms) = 123 :: encodeMembers ms := by
  rcases ms with _ | ⟨⟨k, v⟩, ms⟩ <;> rfl

theorem numberEnd_of_head {c : UInt8} (t : GoString) (h : c = 44 ∨ c = 93 ∨ c = 125) :
    NumberEnd (c :: t) := by
  rcases h with rfl | rfl | rfl <;> exact ⟨rfl, by decide, by decide, by decide⟩

section
variable {fuel depth : Nat} {s rest rest' : GoString} {c : UInt8} {v : Value}

theorem parseArray_close (h : skipSpace s = 93 :: rest) :
    parseArray (fuel + 1) depth s = .ok (.array [], rest) := by
  rw [parseArray.eq_2, h]
  rfl

theorem parseArray_elems (h : skipSpace s = c :: rest) (hc : c ≠ 93) :
    parseArray (fuel + 1) depth s =
      (parseElems fuel depth (c :: rest)).map fun p => (.array p.1, p.2) := by
  rw [parseArray.eq_2, h]
  exact if_neg hc

theorem parseElems_last (hv : parseValue fuel depth s = .ok (v, rest))
    (h : skipSpace rest = 93 :: rest') : parseElems (fuel + 1) depth s = .ok ([v], rest') := by
  rw [parseElems.eq_2, hv]
  simp only [bind, Except.bind, h]
  rfl

theorem parseElems_more (hv : parseValue fuel depth s = .ok (v, rest))
    (h : skipSpace rest = 44 :: rest') :
    parseElems (fuel + 1) depth s = (parseElems fuel depth rest').map fun p => (v :: p.1, p.2) := by
  rw [parseElems.eq_2, hv]
  simp only [bind, Except.bind, h]
  rfl

theorem parseObject_close (h : skipSpace s = 125 :: rest) :
    parseObject (fuel + 1) depth s = .ok (.object [], rest) := by
  rw [parseObject.eq_2, h]
  rfl

theorem parseObject_members (h : skipSpace s = c :: rest) (hc : c ≠ 125) :
    parseObject (fuel + 1) depth s =
      (parseMembers fuel depth (c :: rest)).map fun p => (.object p.1, p.2) := by
  rw [parseObject.eq_2, h]
  exact if_neg hc

/-- The first member of an object: its key, the colon, its value, and the byte after it, which
decides whether the members go on. -/
theorem parseMembers_cons {key rest₁ rest₂ rest₃ rest₄ : GoString}
    (h : skipSpace s = 34 :: rest) (hk : parseString rest = .ok (key, rest₁))
    (hc : skipSpace rest₁ = 58 :: rest₂)
    (hv : parseValue fuel depth rest₂ = .ok (v, rest₃)) (hsep : skipSpace rest₃ = c :: rest₄) :
    parseMembers (fuel + 1) depth s =
      if c = 44 then (parseMembers fuel depth rest₄).map fun (ms, rest) => ((key, v) :: ms, rest)
      else if c = 125 then .ok ([(key, v)], rest₄)
      else .error (invalidChar c "after object key:value pair") := by
  rw [parseMembers.eq_2, h]
  simp only [if_pos, bind, Except.bind, hk, hc, hv, hsep]

end

theorem skipSpace_encode {v : Value} (hv : v.Encodable) (r : GoString) :
    ∃ c rest, skipSpace (encode v ++ r) = c :: rest ∧ encode v ++ r = c :: rest ∧ c ≠ 93 := by
  obtain ⟨c, rest, he, hs, h93⟩ := encode_head hv
  exact ⟨c, rest ++ r, by rw [he, List.cons_append, skipSpace_cons c hs], by rw [he, List.cons_append], h93⟩

mutual
theorem parseValue_encode_coerce : ∀ (v : Value) (fuel depth : Nat) (r : GoString), v.Encodable →
    depth + v.depth ≤ maxNestingDepth → 3 * (encode v).length < fuel → NumberEnd r →
    parseValue fuel depth (encode v ++ r) = .ok (v.coerce, r)
  | _, 0, _, _, _, _, hf, _ => absurd hf (Nat.not_lt_zero _)
  | .null, fuel + 1, depth, r, _, _, _, _ => by rw [parseValue.eq_2]; rfl
  | .bool b, fuel + 1, depth, r, _, _, _, _ => by cases b <;> (rw [parseValue.eq_2]; rfl)
  | .number literal, fuel + 1, depth, r, hv, _, _, hr => by
    obtain ⟨i, rfl⟩ := hv
    exact parseValue_appendInt i hr fuel depth
  | .string s, fuel + 1, depth, r, _, _, _, _ => parseValue_appendString s fuel depth r
  | .array _, 1, _, _, _, _, hf, _ => by rw [encode_array, List.length_cons] at hf; omega
  | .array vs, fuel + 2, depth, r, hv, hd, hf, hr => by
    simp only [Value.depth] at hd
    rw [encode_array] at hf ⊢
    rw [List.cons_append, parseValue_array (skipSpace_cons 91 rfl _) (by omega)]
    rcases vs with _ | ⟨v, vs⟩
    · exact parseArray_close (skipSpace_cons 93 rfl _)
    · obtain ⟨c, rest, hs, he, h93⟩ := skipSpace_encode hv.1 (encodeElemsTail vs ++ r)
      have h := parseElems_encode_coerce (v :: vs) fuel (depth + 1) r (List.cons_ne_nil _ _) hv
        (by omega) (by simp at hf; omega) hr
      rw [encodeElems, List.append_assoc, he] at h
      rw [encodeElems, List.append_assoc, parseArray_elems hs h93, h]
      rfl
  | .object _, 1, _, _, _, _, hf, _ => by rw [encode_object, List.length_cons] at hf; omega
  | .object ms, fuel + 2, depth, r, hv, hd, hf, hr => by
    simp only [Value.depth] at hd
    rw [encode_object] at hf ⊢
    rw [List.cons_append, parseValue_object (skipSpace_cons 123 rfl _) (by omega)]
    rcases ms with _ | ⟨⟨k, v⟩, ms⟩
    · exact parseObject_close (skipSpace_cons 125 rfl _)
    · obtain ⟨body, hbody, -⟩ := appendString_spec k
      have he : encodeMembers ((k, v) :: ms) ++ r =
          34 :: (body ++ 34 :: 58 :: (encode v ++ (encodeMembersTail ms ++ r))) := by
        rw [encodeMembers, hbody]; simp
      have h := parseMembers_encode_coerce ((k, v) :: ms) fuel (depth + 1) r (List.cons_ne_nil _ _) hv
        (by omega) (by simp at hf; omega) hr
      rw [he] at h ⊢
      rw [parseObject_members (skipSpace_cons 34 rfl _) (by decide), h]
      rfl
termination_by structural _ fuel => fuel

theorem parseElems_encode_coerce : ∀ (vs : List Value) (fuel depth : Nat) (r : GoString), vs ≠ [] →
    Value.AllElems (fun _ => True) (fun literal => ∃ i, literal = appendInt i) vs →
    depth + Value.elemsDepth vs ≤ maxNestingDepth → 3 * (encodeElems vs).length < fuel →
    NumberEnd r → parseElems fuel depth (encodeElems vs ++ r) = .ok (Value.coerceElems vs, r)
  | [], _, _, _, h, _, _, _, _ => absurd rfl h
  | _, 0, _, _, _, _, _, hf, _ => absurd hf (Nat.not_lt_zero _)
  | v :: vs, fuel + 1, depth, r, _, hv, hd, hf, hr => by
    have hd₁ : v.depth ≤ Value.elemsDepth (v :: vs) := le_max_left _ _
    have hd₂ : Value.elemsDepth vs ≤ Value.elemsDepth (v :: vs) := le_max_right _ _
    simp only [encodeElems, List.length_append] at hf
    have ht : 0 < (encodeElemsTail vs).length := by cases vs <;> simp [encodeElemsTail]
    have hx := parseValue_encode_coerce v fuel depth (encodeElemsTail vs ++ r) hv.1 (by omega)
      (by omega) (by cases vs <;> exact numberEnd_of_head _ (by simp))
    rw [encodeElems, List.append_assoc]
    rcases vs with _ | ⟨v', vs⟩
    · exact parseElems_last hx (skipSpace_cons 93 rfl _)
    · rw [parseElems_more hx (skipSpace_cons 44 rfl (encodeElems (v' :: vs) ++ r)),
        parseElems_encode_coerce (v' :: vs) fuel depth r (List.cons_ne_nil _ _) hv.2 (by omega)
          (by simp only [encodeElemsTail, encodeElems, List.length_cons, List.length_append] at hf ⊢; omega) hr]
      rfl
termination_by structural _ fuel => fuel

theorem parseMembers_encode_coerce : ∀ (ms : List (GoString × Value)) (fuel depth : Nat) (r : GoString),
    ms ≠ [] → Value.AllMembers (fun _ => True) (fun literal => ∃ i, literal = appendInt i) ms →
    depth + Value.membersDepth ms ≤ maxNestingDepth → 3 * (encodeMembers ms).length < fuel →
    NumberEnd r → parseMembers fuel depth (encodeMembers ms ++ r) = .ok (Value.coerceMembers ms, r)
  | [], _, _, _, h, _, _, _, _ => absurd rfl h
  | _, 0, _, _, _, _, _, hf, _ => absurd hf (Nat.not_lt_zero _)
  | (k, v) :: ms, fuel + 1, depth, r, _, hv, hd, hf, hr => by
    have hd₁ : v.depth ≤ Value.membersDepth ((k, v) :: ms) := le_max_left _ _
    have hd₂ : Value.membersDepth ms ≤ Value.membersDepth ((k, v) :: ms) := le_max_right _ _
    simp only [encodeMembers, List.length_append, List.length_cons] at hf
    obtain ⟨body, hbody, hparse⟩ := appendString_spec k
    have hx := parseValue_encode_coerce v fuel depth (encodeMembersTail ms ++ r) hv.2.1 (by omega)
      (by omega) (by rcases ms with _ | ⟨⟨_, _⟩, _⟩ <;> exact numberEnd_of_head _ (by simp))
    have he : encodeMembers ((k, v) :: ms) ++ r =
        34 :: (body ++ 34 :: 58 :: (encode v ++ (encodeMembersTail ms ++ r))) := by
      rw [encodeMembers, hbody]; simp
    rw [he]
    rcases ms with _ | ⟨⟨k', v'⟩, ms⟩
    · rw [parseMembers_cons (skipSpace_cons 34 rfl _) (hparse _) (skipSpace_cons 58 rfl _) hx
        (skipSpace_cons 125 rfl r)]
      rfl
    · rw [parseMembers_cons (skipSpace_cons 34 rfl _) (hparse _) (skipSpace_cons 58 rfl _) hx
        (skipSpace_cons 44 rfl (encodeMembers ((k', v') :: ms) ++ r)), if_pos rfl]
      rw [parseMembers_encode_coerce ((k', v') :: ms) fuel depth r (List.cons_ne_nil _ _) hv.2.2 (by omega)
          (by simp only [encodeMembersTail, encodeMembers, List.length_cons, List.length_append] at hf ⊢; omega) hr]
      rfl
termination_by structural _ fuel => fuel
end

/-- **The decoder reads back what the encoder wrote, with every string made well formed**, for a
value whose numbers are integers and whose nesting the scanner allows. -/
theorem parseDocument_encode_coerce {v : Value} (hv : v.Encodable) (hd : v.depth ≤ maxNestingDepth) :
    parseDocument (encode v) = .ok v.coerce := by
  have h := parseValue_encode_coerce v (3 * (encode v).length + 1) 0 [] hv (by omega) (by omega) trivial
  rw [List.append_nil] at h
  rw [parseDocument, h]
  rfl

/-! ## What the encoder writes is well formed -/

theorem hexDigit_ascii : ∀ n, n < 16 → (hexDigit n).toNat < 0x80 := by decide

theorem valid_escapeASCII {b : UInt8} (hb : b.toNat < 0x80) : Utf8.Valid (escapeASCII b) := by
  have h₁ := hexDigit_ascii (b.toNat / 16) (by omega)
  have h₂ := hexDigit_ascii (b.toNat % 16) (by omega)
  refine Utf8.valid_of_ascii ?_
  rcases escapeASCII_cases b with ⟨-, e⟩ | ⟨rfl | rfl, e⟩ | ⟨-, e⟩ | ⟨-, e⟩ | ⟨-, e⟩ | ⟨-, e⟩ | ⟨-, e⟩ | e <;>
    rw [e]
  · simpa using hb
  all_goals try decide
  simp only [List.forall_mem_cons, List.forall_mem_nil, and_true]
  exact ⟨by decide, by decide, by decide, by decide, h₁, h₂, fun _ h => nomatch h⟩

theorem valid_escapeRune (x : Nat) : Utf8.Valid (escapeRune x) := by
  unfold escapeRune
  split_ifs with h₁
  · exact valid_escapeASCII (by rw [UInt8.toNat_ofNat_of_lt (show x < 256 by omega)]; exact h₁)
  · have h₂ := hexDigit_ascii (x % 16) (Nat.mod_lt _ (by decide))
    refine Utf8.valid_of_ascii ?_
    simp only [List.forall_mem_cons, List.forall_mem_nil, and_true]
    exact ⟨by decide, by decide, by decide, by decide, by decide, h₂, fun _ h => nomatch h⟩
  · exact Utf8.valid_encodeRune x

theorem valid_escapeStep : ∀ p, Utf8.Valid (escapeStep p)
  | some x => valid_escapeRune _
  | none => Utf8.valid_of_ascii (by decide)

theorem valid_flatMap_escapeStep : ∀ steps : List (Option Nat), Utf8.Valid (steps.flatMap escapeStep)
  | [] => Utf8.valid_nil
  | p :: ps => by
    rw [List.flatMap_cons]
    exact (valid_escapeStep p).append (valid_flatMap_escapeStep ps)

/-- **`appendString` writes well-formed UTF-8**, whatever bytes the string holds. -/
theorem valid_appendString (s : GoString) : Utf8.Valid (appendString s) := by
  obtain ⟨steps, h, -⟩ := appendStringBody_steps s.length s le_rfl
  rw [appendString, h]
  exact ((Utf8.valid_ascii (by decide)).append (valid_flatMap_escapeStep steps)).append
    (Utf8.valid_ascii (by decide))

theorem valid_appendInt (i : GoInt) : Utf8.Valid (appendInt i) := by
  obtain ⟨d, rest, hdig, -, -, h⟩ := appendInt_spec i
  have hds : Utf8.Valid (d :: rest) := Utf8.valid_of_ascii fun c hc => by
    have := isDigit_iff.mp (hdig c hc)
    omega
  rw [h]
  split
  · exact (Utf8.valid_ascii (by decide)).append hds
  · exact hds

mutual
/-- **`encode` writes well-formed UTF-8**, whatever bytes the strings of the value hold. -/
theorem valid_encode : ∀ {v : Value}, v.Encodable → Utf8.Valid (encode v)
  | .null, _ | .bool true, _ | .bool false, _ | .array [], _ | .object [], _ =>
    Utf8.valid_of_ascii (by decide)
  | .number _, hv => by
    obtain ⟨i, rfl⟩ := hv
    exact valid_appendInt i
  | .string s, _ => valid_appendString s
  | .array (_ :: _), hv =>
    ((Utf8.valid_ascii (by decide)).append (valid_encode hv.1)).append (valid_encodeElemsTail hv.2)
  | .object ((k, _) :: _), hv =>
    (((Utf8.valid_ascii (by decide)).append (valid_appendString k)).append
      ((Utf8.valid_ascii (by decide)).append (valid_encode hv.2.1))).append (valid_encodeMembersTail hv.2.2)

theorem valid_encodeElemsTail : ∀ {vs : List Value},
    Value.AllElems (fun _ => True) (fun literal => ∃ i, literal = appendInt i) vs →
    Utf8.Valid (encodeElemsTail vs)
  | [], _ => Utf8.valid_of_ascii (by decide)
  | _ :: _, hv =>
    ((Utf8.valid_ascii (by decide)).append (valid_encode hv.1)).append (valid_encodeElemsTail hv.2)

theorem valid_encodeMembersTail : ∀ {ms : List (GoString × Value)},
    Value.AllMembers (fun _ => True) (fun literal => ∃ i, literal = appendInt i) ms →
    Utf8.Valid (encodeMembersTail ms)
  | [], _ => Utf8.valid_of_ascii (by decide)
  | (k, _) :: _, hv =>
    (((Utf8.valid_ascii (by decide)).append (valid_appendString k)).append
      ((Utf8.valid_ascii (by decide)).append (valid_encode hv.2.1))).append (valid_encodeMembersTail hv.2.2)
end

/-! ## What the decoder returns is well formed -/

theorem Except.bind_eq_ok {ε α β : Type} {x : Except ε α} {f : α → Except ε β} {y : β}
    (h : x >>= f = .ok y) : ∃ a, x = .ok a ∧ f a = .ok y := by
  cases x with
  | error e => cases h
  | ok a => exact ⟨a, rfl, h⟩

theorem Except.map_eq_ok {ε α β : Type} {x : Except ε α} {f : α → β} {y : β}
    (h : x.map f = .ok y) : ∃ a, x = .ok a ∧ f a = y := by
  cases x with
  | error e => cases h
  | ok a => exact ⟨a, rfl, by cases h; rfl⟩

theorem parseString_valid {s str rest : GoString} (h : parseString s = .ok (str, rest)) :
    Utf8.Valid str := by
  obtain ⟨⟨body, rest'⟩, -, h⟩ := Except.bind_eq_ok h
  dsimp only at h
  split at h
  · next hu => cases h; exact unquote_valid hu
  · cases h

theorem parseLiteral_valid {c : UInt8} {s r : GoString} {v : Value}
    (h : parseLiteral c s = .ok (v, r)) : v.StringsValid := by
  unfold parseLiteral at h
  by_cases h34 : c = 34
  · rw [if_pos h34] at h
    obtain ⟨⟨str, _⟩, hs, h⟩ := Except.map_eq_ok h
    cases h
    exact parseString_valid hs
  rw [if_neg h34] at h
  repeat' split at h
  all_goals first
    | cases h
    | (obtain ⟨_, -, h⟩ := Except.map_eq_ok h; cases h; trivial)

/-- **Every string the parser returns is well formed**, in each of its functions, for any fuel. -/
theorem parse_stringsValid : ∀ fuel : Nat,
    (∀ depth s v r, parseValue fuel depth s = .ok (v, r) → v.StringsValid) ∧
    (∀ depth s v r, parseArray fuel depth s = .ok (v, r) → v.StringsValid) ∧
    (∀ depth s vs r, parseElems fuel depth s = .ok (vs, r) →
      Value.AllElems Utf8.Valid (fun _ => True) vs) ∧
    (∀ depth s v r, parseObject fuel depth s = .ok (v, r) → v.StringsValid) ∧
    (∀ depth s ms r, parseMembers fuel depth s = .ok (ms, r) →
      Value.AllMembers Utf8.Valid (fun _ => True) ms)
  | 0 => by
    refine ⟨fun _ _ _ _ h => ?_, fun _ _ _ _ h => ?_, fun _ _ _ _ h => ?_, fun _ _ _ _ h => ?_,
      fun _ _ _ _ h => ?_⟩
    · rw [parseValue.eq_1] at h; cases h
    · rw [parseArray.eq_1] at h; cases h
    · rw [parseElems.eq_1] at h; cases h
    · rw [parseObject.eq_1] at h; cases h
    · rw [parseMembers.eq_1] at h; cases h
  | fuel + 1 => by
    obtain ⟨ihV, ihA, ihE, ihO, ihM⟩ := parse_stringsValid fuel
    refine ⟨fun depth s v r h => ?_, fun depth s v r h => ?_, fun depth s vs r h => ?_,
      fun depth s v r h => ?_, fun depth s ms r h => ?_⟩
    · rw [parseValue.eq_2] at h
      split at h
      · cases h
      split_ifs at h
      exacts [ihO _ _ _ _ h, ihA _ _ _ _ h, parseLiteral_valid h]
    · rw [parseArray.eq_2] at h
      split at h
      · split_ifs at h
        · cases h; trivial
        · obtain ⟨⟨vs, _⟩, hE, h⟩ := Except.map_eq_ok h
          cases h
          exact ihE _ _ _ _ hE
      · cases h
    · rw [parseElems.eq_2] at h
      obtain ⟨⟨v, rest⟩, hv, h⟩ := Except.bind_eq_ok h
      dsimp only at h
      split at h
      · split_ifs at h
        · obtain ⟨⟨vs, _⟩, hE, h⟩ := Except.map_eq_ok h
          cases h
          exact ⟨ihV _ _ _ _ hv, ihE _ _ _ _ hE⟩
        · cases h
          exact ⟨ihV _ _ _ _ hv, trivial⟩
      · cases h
    · rw [parseObject.eq_2] at h
      split at h
      · split_ifs at h
        · cases h; trivial
        · obtain ⟨⟨ms, _⟩, hM, h⟩ := Except.map_eq_ok h
          cases h
          exact ihM _ _ _ _ hM
      · cases h
    · rw [parseMembers.eq_2] at h
      split at h
      · split_ifs at h
        obtain ⟨⟨key, rest₁⟩, hk, h⟩ := Except.bind_eq_ok h
        dsimp only at h
        split at h
        · split_ifs at h
          obtain ⟨⟨v, rest₂⟩, hv, h⟩ := Except.bind_eq_ok h
          dsimp only at h
          split at h
          · split_ifs at h
            · obtain ⟨⟨ms, _⟩, hM, h⟩ := Except.map_eq_ok h
              cases h
              exact ⟨parseString_valid hk, ihV _ _ _ _ hv, ihM _ _ _ _ hM⟩
            · cases h
              exact ⟨parseString_valid hk, ihV _ _ _ _ hv, trivial⟩
          · cases h
        · cases h
      · cases h

/-- **Every string the decoder returns is well-formed UTF-8**, keys included, whatever the
document held. -/
theorem parseDocument_stringsValid {data : GoString} {v : Value} (h : parseDocument data = .ok v) :
    v.StringsValid := by
  obtain ⟨⟨v', rest⟩, hv, h⟩ := Except.bind_eq_ok h
  dsimp only at h
  split at h
  · cases h
    exact (parse_stringsValid _).1 _ _ _ _ hv
  · cases h

end Json
