import RunEcho.Strings

/-!
# UTF-8

`encoding/json` reads and writes strings rune by rune with `unicode/utf8`, and both directions
coerce what is not UTF-8: the encoder writes `�` for a byte that starts no valid encoding, and
the decoder decodes such a byte as U+FFFD. This module holds the two functions of `unicode/utf8`
they call, under their Go names.

`decodeRune` follows Go's table of first bytes: the lead byte fixes the length and the range the
second byte must fall in, which excludes overlong forms, surrogates and values above U+10FFFF. A
rune is a natural number rather than an `int32`, and bytes are combined by arithmetic rather than
masks, which agree on the ranges accepted. `encodeRune` writes a surrogate or a value above
U+10FFFF as U+FFFD, so every value has an encoding, that of a Unicode scalar value.

A string is valid UTF-8 when it is a concatenation of such encodings (`Utf8.Valid`). The one
fact the rest needs is `decodeRune_encodeRune_append`: decoding an encoding gives back its rune,
and reads no byte past it.
-/

namespace Utf8

/-- `utf8.RuneError`, U+FFFD. -/
def runeError : Nat := 0xFFFD

/-- A continuation byte, `0x80`–`0xBF`. -/
def IsCont (b : UInt8) : Prop := 0x80 ≤ b.toNat ∧ b.toNat ≤ 0xBF

instance (b : UInt8) : Decidable (IsCont b) := inferInstanceAs (Decidable (_ ∧ _))

/-- **`utf8.DecodeRune`**: the first rune of `p` and how many bytes encode it; `(RuneError, 1)`
when `p` does not start with a valid encoding, and `(RuneError, 0)` when it is empty. -/
def decodeRune : GoString → Nat × Nat
  | [] => (runeError, 0)
  | b0 :: rest =>
    let x := b0.toNat
    if x < 0x80 then (x, 1)
    else if x < 0xC2 then (runeError, 1)
    else if x < 0xE0 then
      match rest with
      | b1 :: _ => if IsCont b1 then ((x - 0xC0) * 64 + (b1.toNat - 0x80), 2) else (runeError, 1)
      | [] => (runeError, 1)
    else if x < 0xF0 then
      let lo := if x = 0xE0 then 0xA0 else 0x80
      let hi := if x = 0xED then 0x9F else 0xBF
      match rest with
      | b1 :: b2 :: _ =>
        if lo ≤ b1.toNat ∧ b1.toNat ≤ hi ∧ IsCont b2 then
          ((x - 0xE0) * 4096 + (b1.toNat - 0x80) * 64 + (b2.toNat - 0x80), 3)
        else (runeError, 1)
      | _ => (runeError, 1)
    else if x < 0xF5 then
      let lo := if x = 0xF0 then 0x90 else 0x80
      let hi := if x = 0xF4 then 0x8F else 0xBF
      match rest with
      | b1 :: b2 :: b3 :: _ =>
        if lo ≤ b1.toNat ∧ b1.toNat ≤ hi ∧ IsCont b2 ∧ IsCont b3 then
          ((x - 0xF0) * 262144 + (b1.toNat - 0x80) * 4096 + (b2.toNat - 0x80) * 64 +
            (b3.toNat - 0x80), 4)
        else (runeError, 1)
      | _ => (runeError, 1)
    else (runeError, 1)

/-- **A Unicode scalar value**: at most U+10FFFF, and not a surrogate. -/
def IsScalar (r : Nat) : Prop := r ≤ 0x10FFFF ∧ ¬(0xD800 ≤ r ∧ r ≤ 0xDFFF)

instance (r : Nat) : Decidable (IsScalar r) := inferInstanceAs (Decidable (_ ∧ _))

/-- The rune `utf8.EncodeRune` writes for `r`: `r` itself if it is a scalar value, U+FFFD
otherwise. -/
def toScalar (r : Nat) : Nat := if IsScalar r then r else runeError

/-- **`utf8.EncodeRune`** (and `utf8.AppendRune`). -/
def encodeRune (r : Nat) : GoString :=
  if r < 0x80 then [UInt8.ofNat r]
  else if r < 0x800 then [UInt8.ofNat (0xC0 + r / 64), UInt8.ofNat (0x80 + r % 64)]
  else
    let r := if 0x10FFFF < r ∨ (0xD800 ≤ r ∧ r ≤ 0xDFFF) then runeError else r
    if r < 0x10000 then
      [UInt8.ofNat (0xE0 + r / 4096), UInt8.ofNat (0x80 + r / 64 % 64), UInt8.ofNat (0x80 + r % 64)]
    else
      [UInt8.ofNat (0xF0 + r / 262144), UInt8.ofNat (0x80 + r / 4096 % 64),
        UInt8.ofNat (0x80 + r / 64 % 64), UInt8.ofNat (0x80 + r % 64)]

/-- **Well-formed UTF-8**: a concatenation of rune encodings. -/
def Valid (s : GoString) : Prop := ∃ runes : List Nat, s = runes.flatMap encodeRune

/-! ## Decoding, width by width -/

theorem decodeRune_one {b : UInt8} (t : GoString) (h : b.toNat < 0x80) :
    decodeRune (b :: t) = (b.toNat, 1) := by
  simp only [decodeRune, if_pos h]

theorem decodeRune_two {b0 b1 : UInt8} (t : GoString) (h0 : 0xC2 ≤ b0.toNat)
    (h0' : b0.toNat < 0xE0) (h1 : IsCont b1) :
    decodeRune (b0 :: b1 :: t) = ((b0.toNat - 0xC0) * 64 + (b1.toNat - 0x80), 2) := by
  simp only [decodeRune, if_neg (show ¬b0.toNat < 0x80 by omega),
    if_neg (show ¬b0.toNat < 0xC2 by omega), if_pos h0', if_pos h1]

theorem decodeRune_three {b0 b1 b2 : UInt8} (t : GoString) (h0 : 0xE0 ≤ b0.toNat)
    (h0' : b0.toNat < 0xF0) (h1 : (if b0.toNat = 0xE0 then 0xA0 else 0x80) ≤ b1.toNat)
    (h1' : b1.toNat ≤ if b0.toNat = 0xED then 0x9F else 0xBF) (h2 : IsCont b2) :
    decodeRune (b0 :: b1 :: b2 :: t) =
      ((b0.toNat - 0xE0) * 4096 + (b1.toNat - 0x80) * 64 + (b2.toNat - 0x80), 3) := by
  simp only [decodeRune, if_neg (show ¬b0.toNat < 0x80 by omega),
    if_neg (show ¬b0.toNat < 0xC2 by omega), if_neg (show ¬b0.toNat < 0xE0 by omega),
    if_pos h0', if_pos (⟨h1, h1', h2⟩ : _ ∧ _ ∧ _)]

theorem decodeRune_four {b0 b1 b2 b3 : UInt8} (t : GoString) (h0 : 0xF0 ≤ b0.toNat)
    (h0' : b0.toNat < 0xF5) (h1 : (if b0.toNat = 0xF0 then 0x90 else 0x80) ≤ b1.toNat)
    (h1' : b1.toNat ≤ if b0.toNat = 0xF4 then 0x8F else 0xBF) (h2 : IsCont b2) (h3 : IsCont b3) :
    decodeRune (b0 :: b1 :: b2 :: b3 :: t) =
      ((b0.toNat - 0xF0) * 262144 + (b1.toNat - 0x80) * 4096 + (b2.toNat - 0x80) * 64 +
        (b3.toNat - 0x80), 4) := by
  simp only [decodeRune, if_neg (show ¬b0.toNat < 0x80 by omega),
    if_neg (show ¬b0.toNat < 0xC2 by omega), if_neg (show ¬b0.toNat < 0xE0 by omega),
    if_neg (show ¬b0.toNat < 0xF0 by omega), if_pos h0', if_pos (⟨h1, h1', h2, h3⟩ : _ ∧ _ ∧ _ ∧ _)]

/-- **`decodeRune` reads only continuation bytes past the first**: whatever the bytes, the width it
returns is at least one, and the bytes it covers after the lead byte are all `0x80` or above. -/
theorem decodeRune_cont (c : UInt8) (s : GoString) :
    ∃ n, (decodeRune (c :: s)).2 = n + 1 ∧ ∀ b ∈ s.take n, 0x80 ≤ b.toNat := by
  -- an invalid encoding is read as its lead byte alone
  have one : ∃ n, 1 = n + 1 ∧ ∀ b ∈ s.take n, 0x80 ≤ b.toNat := ⟨0, rfl, by simp⟩
  -- the lower bound `decodeRune` puts on the second byte is at least `0x80`
  have lo : ∀ {p : Prop} [Decidable p] {m x : Nat}, (if p then m else 0x80) ≤ x → 0x80 ≤ m →
      0x80 ≤ x := by
    intro p _ m x h hm
    split_ifs at h <;> omega
  by_cases h1 : c.toNat < 0x80
  · simpa only [decodeRune, if_pos h1] using one
  by_cases h2 : c.toNat < 0xC2
  · simpa only [decodeRune, if_neg h1, if_pos h2] using one
  by_cases h3 : c.toNat < 0xE0
  · rcases s with _ | ⟨b1, t⟩
    · simpa only [decodeRune, if_neg h1, if_neg h2, if_pos h3] using one
    by_cases hb : IsCont b1
    · simp only [decodeRune, if_neg h1, if_neg h2, if_pos h3, if_pos hb]
      exact ⟨1, rfl, by simpa using hb.1⟩
    · simpa only [decodeRune, if_neg h1, if_neg h2, if_pos h3, if_neg hb] using one
  by_cases h4 : c.toNat < 0xF0
  · rcases s with _ | ⟨b1, _ | ⟨b2, t⟩⟩
    · simpa only [decodeRune, if_neg h1, if_neg h2, if_neg h3, if_pos h4] using one
    · simpa only [decodeRune, if_neg h1, if_neg h2, if_neg h3, if_pos h4] using one
    by_cases hb : (if c.toNat = 0xE0 then 0xA0 else 0x80) ≤ b1.toNat ∧
        (b1.toNat ≤ if c.toNat = 0xED then 0x9F else 0xBF) ∧ IsCont b2
    · simp only [decodeRune, if_neg h1, if_neg h2, if_neg h3, if_pos h4, if_pos hb]
      exact ⟨2, rfl, by simp [lo hb.1 (by decide), hb.2.2.1]⟩
    · simpa only [decodeRune, if_neg h1, if_neg h2, if_neg h3, if_pos h4, if_neg hb] using one
  by_cases h5 : c.toNat < 0xF5
  · rcases s with _ | ⟨b1, _ | ⟨b2, _ | ⟨b3, t⟩⟩⟩
    · simpa only [decodeRune, if_neg h1, if_neg h2, if_neg h3, if_neg h4, if_pos h5] using one
    · simpa only [decodeRune, if_neg h1, if_neg h2, if_neg h3, if_neg h4, if_pos h5] using one
    · simpa only [decodeRune, if_neg h1, if_neg h2, if_neg h3, if_neg h4, if_pos h5] using one
    by_cases hb : (if c.toNat = 0xF0 then 0x90 else 0x80) ≤ b1.toNat ∧
        (b1.toNat ≤ if c.toNat = 0xF4 then 0x8F else 0xBF) ∧ IsCont b2 ∧ IsCont b3
    · simp only [decodeRune, if_neg h1, if_neg h2, if_neg h3, if_neg h4, if_pos h5, if_pos hb]
      exact ⟨3, rfl, by simp [lo hb.1 (by decide), hb.2.2.1.1, hb.2.2.2.1]⟩
    · simpa only [decodeRune, if_neg h1, if_neg h2, if_neg h3, if_neg h4, if_pos h5, if_neg hb]
        using one
  · simpa only [decodeRune, if_neg h1, if_neg h2, if_neg h3, if_neg h4, if_neg h5] using one

theorem toScalar_of_wide {r : Nat} :
    (if 0x10FFFF < r ∨ (0xD800 ≤ r ∧ r ≤ 0xDFFF) then runeError else r) = toScalar r := by
  unfold toScalar IsScalar
  by_cases h : 0x10FFFF < r ∨ (0xD800 ≤ r ∧ r ≤ 0xDFFF)
  · rw [if_pos h, if_neg (by omega)]
  · rw [if_neg h, if_pos (by omega)]

theorem isScalar_toScalar (r : Nat) : IsScalar (toScalar r) := by
  unfold toScalar
  split
  · assumption
  · exact ⟨by decide, by decide⟩

theorem toScalar_of_lt {r : Nat} (h : r < 0x80) : toScalar r = r :=
  if_pos ⟨by omega, by omega⟩

theorem le_toScalar {r : Nat} (h : 0x80 ≤ r) : 0x80 ≤ toScalar r := by
  unfold toScalar runeError
  split <;> omega

theorem encodeRune_of_lt {r : Nat} (h : r < 0x80) : encodeRune r = [UInt8.ofNat r] :=
  if_pos h

/-- `encodeRune` writes a value that is not a scalar as U+FFFD. -/
theorem encodeRune_toScalar (r : Nat) : encodeRune (toScalar r) = encodeRune r := by
  unfold toScalar IsScalar
  split
  · rfl
  · next h =>
    have e : encodeRune runeError = [0xEF, 0xBF, 0xBD] := by decide
    rw [e, encodeRune, if_neg (by omega), if_neg (by omega)]
    simp only [if_pos (show 0x10FFFF < r ∨ (0xD800 ≤ r ∧ r ≤ 0xDFFF) by omega)]
    rfl

theorem encodeRune_ne_nil (r : Nat) : encodeRune r ≠ [] := by
  unfold encodeRune
  dsimp only
  split_ifs <;> simp

theorem two_le_length_encodeRune {r : Nat} (h : 0x80 ≤ r) : 2 ≤ (encodeRune r).length := by
  unfold encodeRune
  dsimp only
  split_ifs <;> first | omega | simp

/-- Every byte of the encoding of a rune past ASCII is past ASCII too, so no byte of it can be
read as a quote, a backslash or a control character. -/
theorem le_of_mem_encodeRune {r : Nat} {b : UInt8} (h : 0x80 ≤ r) (hb : b ∈ encodeRune r) :
    0x80 ≤ b.toNat := by
  have e : ∀ n, n < 256 → 0x80 ≤ n → 0x80 ≤ (UInt8.ofNat n).toNat := fun n h₁ h₂ => by
    rw [UInt8.toNat_ofNat_of_lt h₁]; exact h₂
  unfold encodeRune at hb
  dsimp only at hb
  rw [toScalar_of_wide] at hb
  have hs := isScalar_toScalar r
  have hw : 0x800 ≤ r → 0x800 ≤ toScalar r := fun h' => by unfold toScalar runeError; split <;> omega
  obtain ⟨hmax, -⟩ := hs
  split_ifs at hb <;> simp only [List.mem_cons, List.mem_singleton, List.not_mem_nil, or_false] at hb <;>
    rcases hb with rfl | rfl | rfl | rfl <;> apply e <;> omega

/-- `DecodeRune` reads at most `UTFMax` bytes. -/
theorem decodeRune_take (s : GoString) : decodeRune (s.take 4) = decodeRune s := by
  rcases s with _ | ⟨b0, _ | ⟨b1, _ | ⟨b2, _ | ⟨b3, t⟩⟩⟩⟩ <;> rfl

/-- **Decoding an encoding gives its rune back**, as the scalar value `encodeRune` wrote, and
stops where the encoding ends. -/
theorem decodeRune_encodeRune_append (r : Nat) (t : GoString) :
    decodeRune (encodeRune r ++ t) = (toScalar r, (encodeRune r).length) := by
  unfold encodeRune
  split
  · next h =>
    have e := UInt8.toNat_ofNat_of_lt (show r < 256 by omega)
    rw [List.singleton_append, decodeRune_one t (by omega), e, toScalar, if_pos ⟨by omega, by omega⟩]
    rfl
  split
  · next h h' =>
    have e0 := UInt8.toNat_ofNat_of_lt (show 0xC0 + r / 64 < 256 by omega)
    have e1 := UInt8.toNat_ofNat_of_lt (show 0x80 + r % 64 < 256 by omega)
    rw [List.cons_append, List.cons_append, List.nil_append,
      decodeRune_two t (by omega) (by omega) ⟨by omega, by omega⟩, e0, e1, toScalar,
      if_pos ⟨by omega, by omega⟩]
    exact Prod.ext (by dsimp only; omega) rfl
  dsimp only
  rw [toScalar_of_wide]
  have hs := isScalar_toScalar r
  have hw : 0x800 ≤ toScalar r := by unfold toScalar runeError; split <;> omega
  generalize toScalar r = s at hs hw ⊢
  obtain ⟨hmax, hsur⟩ := hs
  split
  · next h3 =>
    have e0 := UInt8.toNat_ofNat_of_lt (show 0xE0 + s / 4096 < 256 by omega)
    have e1 := UInt8.toNat_ofNat_of_lt (show 0x80 + s / 64 % 64 < 256 by omega)
    have e2 := UInt8.toNat_ofNat_of_lt (show 0x80 + s % 64 < 256 by omega)
    rw [List.cons_append, List.cons_append, List.cons_append, List.nil_append,
      decodeRune_three t (by omega) (by omega) (by rw [e0, e1]; split <;> omega)
        (by rw [e0, e1]; split <;> omega) ⟨by omega, by omega⟩, e0, e1, e2]
    exact Prod.ext (by dsimp only; omega) rfl
  · next h4 =>
    have e0 := UInt8.toNat_ofNat_of_lt (show 0xF0 + s / 262144 < 256 by omega)
    have e1 := UInt8.toNat_ofNat_of_lt (show 0x80 + s / 4096 % 64 < 256 by omega)
    have e2 := UInt8.toNat_ofNat_of_lt (show 0x80 + s / 64 % 64 < 256 by omega)
    have e3 := UInt8.toNat_ofNat_of_lt (show 0x80 + s % 64 < 256 by omega)
    rw [List.cons_append, List.cons_append, List.cons_append, List.cons_append, List.nil_append,
      decodeRune_four t (by omega) (by omega) (by rw [e0, e1]; split <;> omega)
        (by rw [e0, e1]; split <;> omega) ⟨by omega, by omega⟩ ⟨by omega, by omega⟩, e0, e1, e2, e3]
    exact Prod.ext (by dsimp only; omega) rfl

/-! ## What `decodeRune` accepts -/

theorem ofNat_eq {b : UInt8} {m : Nat} (h : m = b.toNat) : UInt8.ofNat m = b :=
  UInt8.toNat.inj ((UInt8.toNat_ofNat_of_lt (h ▸ b.toNat_lt_size)).trans h)

/-- The two ways a lower bound `decodeRune` takes from the lead byte can go. -/
theorem ite_le_cases {p : Prop} [Decidable p] {a c x : Nat} (h : (if p then a else c) ≤ x) :
    (p → a ≤ x) ∧ (¬p → c ≤ x) := by
  by_cases hp : p
  · rw [if_pos hp] at h
    exact ⟨fun _ => h, fun hn => absurd hp hn⟩
  · rw [if_neg hp] at h
    exact ⟨fun h' => absurd h' hp, fun _ => h⟩

/-- The two ways an upper bound `decodeRune` takes from the lead byte can go. -/
theorem le_ite_cases {p : Prop} [Decidable p] {a c x : Nat} (h : x ≤ if p then a else c) :
    (p → x ≤ a) ∧ (¬p → x ≤ c) := by
  by_cases hp : p
  · rw [if_pos hp] at h
    exact ⟨fun _ => h, fun hn => absurd hp hn⟩
  · rw [if_neg hp] at h
    exact ⟨fun h' => absurd h' hp, fun _ => h⟩

/-- The base-64 digits `encodeRune` takes apart, of a value `decodeRune` puts together. -/
theorem digits_two {x y : Nat} (hy : y < 64) : (x * 64 + y) / 64 = x ∧ (x * 64 + y) % 64 = y := by
  omega

theorem digits_three {x y z : Nat} (hy : y < 64) (hz : z < 64) :
    (x * 4096 + y * 64 + z) / 4096 = x ∧ (x * 4096 + y * 64 + z) / 64 % 64 = y ∧
      (x * 4096 + y * 64 + z) % 64 = z := by
  omega

theorem digits_four {x y z w : Nat} (hy : y < 64) (hz : z < 64) (hw : w < 64) :
    (x * 262144 + y * 4096 + z * 64 + w) / 262144 = x ∧
      (x * 262144 + y * 4096 + z * 64 + w) / 4096 % 64 = y ∧
      (x * 262144 + y * 4096 + z * 64 + w) / 64 % 64 = z ∧ (x * 262144 + y * 4096 + z * 64 + w) % 64 = w := by
  omega

/-- The rune `decodeRune` reads from two bytes it accepts is encoded as those bytes. -/
theorem encodeRune_decoded_two {b0 b1 : UInt8} (h0 : 0xC2 ≤ b0.toNat) (h0' : b0.toNat < 0xE0)
    (h1 : IsCont b1) :
    encodeRune ((b0.toNat - 0xC0) * 64 + (b1.toNat - 0x80)) = [b0, b1] ∧
      IsScalar ((b0.toNat - 0xC0) * 64 + (b1.toNat - 0x80)) := by
  obtain ⟨c1, c1'⟩ := h1
  have d := digits_two (x := b0.toNat - 0xC0) (show b1.toNat - 0x80 < 64 by omega)
  refine ⟨?_, by unfold IsScalar; omega⟩
  rw [encodeRune, if_neg (by omega), if_pos (by omega), d.1, d.2]
  clear d
  rw [ofNat_eq (b := b0) (by omega), ofNat_eq (b := b1) (by omega)]

/-- The same for three bytes. -/
theorem encodeRune_decoded_three {b0 b1 b2 : UInt8} (h0 : 0xE0 ≤ b0.toNat)
    (h0' : b0.toNat < 0xF0) (h1 : (if b0.toNat = 0xE0 then 0xA0 else 0x80) ≤ b1.toNat)
    (h1' : b1.toNat ≤ if b0.toNat = 0xED then 0x9F else 0xBF) (h2 : IsCont b2) :
    encodeRune ((b0.toNat - 0xE0) * 4096 + (b1.toNat - 0x80) * 64 + (b2.toNat - 0x80)) =
        [b0, b1, b2] ∧
      IsScalar ((b0.toNat - 0xE0) * 4096 + (b1.toNat - 0x80) * 64 + (b2.toNat - 0x80)) := by
  obtain ⟨c2, c2'⟩ := h2
  have lo := ite_le_cases h1
  have hi := le_ite_cases h1'
  obtain ⟨x, hx⟩ : ∃ x, b0.toNat = x + 0xE0 := ⟨_, (Nat.sub_add_cancel h0).symm⟩
  obtain ⟨y, hy⟩ : ∃ y, b1.toNat = y + 0x80 := ⟨b1.toNat - 0x80, by omega⟩
  obtain ⟨z, hz⟩ : ∃ z, b2.toNat = z + 0x80 := ⟨_, (Nat.sub_add_cancel c2).symm⟩
  rw [hx, hy] at lo hi
  rw [hx, hy, hz]
  simp only [Nat.add_sub_cancel]
  have hs : IsScalar (x * 4096 + y * 64 + z) := by
    unfold IsScalar; omega
  refine ⟨?_, hs⟩
  rw [encodeRune, if_neg (by omega), if_neg (by omega)]
  dsimp only
  rw [toScalar_of_wide, show toScalar _ = _ from if_pos hs, if_pos (by omega)]
  have d := digits_three (x := x) (show y < 64 by omega) (show z < 64 by omega)
  rw [d.1, d.2.1, d.2.2]
  clear d hs
  rw [ofNat_eq (b := b0) (by omega), ofNat_eq (b := b1) (by omega), ofNat_eq (b := b2) (by omega)]

/-- The same for four bytes. -/
theorem encodeRune_decoded_four {b0 b1 b2 b3 : UInt8} (h0 : 0xF0 ≤ b0.toNat)
    (h0' : b0.toNat < 0xF5) (h1 : (if b0.toNat = 0xF0 then 0x90 else 0x80) ≤ b1.toNat)
    (h1' : b1.toNat ≤ if b0.toNat = 0xF4 then 0x8F else 0xBF) (h2 : IsCont b2) (h3 : IsCont b3) :
    encodeRune ((b0.toNat - 0xF0) * 262144 + (b1.toNat - 0x80) * 4096 + (b2.toNat - 0x80) * 64 +
        (b3.toNat - 0x80)) = [b0, b1, b2, b3] ∧
      IsScalar ((b0.toNat - 0xF0) * 262144 + (b1.toNat - 0x80) * 4096 + (b2.toNat - 0x80) * 64 +
        (b3.toNat - 0x80)) := by
  obtain ⟨c2, c2'⟩ := h2
  obtain ⟨c3, c3'⟩ := h3
  have lo := ite_le_cases h1
  have hi := le_ite_cases h1'
  obtain ⟨x, hx⟩ : ∃ x, b0.toNat = x + 0xF0 := ⟨_, (Nat.sub_add_cancel h0).symm⟩
  obtain ⟨y, hy⟩ : ∃ y, b1.toNat = y + 0x80 := ⟨b1.toNat - 0x80, by omega⟩
  obtain ⟨z, hz⟩ : ∃ z, b2.toNat = z + 0x80 := ⟨_, (Nat.sub_add_cancel c2).symm⟩
  obtain ⟨w, hw⟩ : ∃ w, b3.toNat = w + 0x80 := ⟨_, (Nat.sub_add_cancel c3).symm⟩
  rw [hx, hy] at lo hi
  rw [hx, hy, hz, hw]
  simp only [Nat.add_sub_cancel]
  have hs : IsScalar (x * 262144 + y * 4096 + z * 64 + w) := by
    unfold IsScalar; omega
  refine ⟨?_, hs⟩
  rw [encodeRune, if_neg (by omega), if_neg (by omega)]
  dsimp only
  rw [toScalar_of_wide, show toScalar _ = _ from if_pos hs, if_neg (by omega)]
  have d := digits_four (x := x) (show y < 64 by omega) (show z < 64 by omega) (show w < 64 by omega)
  rw [d.1, d.2.1, d.2.2.1, d.2.2.2]
  clear d hs
  rw [ofNat_eq (b := b0) (by omega), ofNat_eq (b := b1) (by omega), ofNat_eq (b := b2) (by omega),
    ofNat_eq (b := b3) (by omega)]

/-- **What `decodeRune` accepts is an encoding**: unless it reads a lone byte as `RuneError`, the
bytes it covers are `encodeRune` of the rune it returns, a scalar value. -/
theorem eq_encodeRune_of_decodeRune {b : UInt8} {s : GoString} {r n : Nat}
    (h : decodeRune (b :: s) = (r, n)) (hv : ¬(r = runeError ∧ n = 1)) :
    ∃ t, b :: s = encodeRune r ++ t ∧ IsScalar r := by
  have bad : decodeRune (b :: s) ≠ (runeError, 1) := fun e => hv (by
    rw [h] at e
    cases e
    exact ⟨rfl, rfl⟩)
  by_cases h1 : b.toNat < 0x80
  · rw [decodeRune_one s h1] at h
    obtain ⟨rfl, rfl⟩ := Prod.mk.inj h
    exact ⟨s, by rw [encodeRune_of_lt h1, ofNat_eq rfl]; rfl, by unfold IsScalar; omega⟩
  by_cases h2 : b.toNat < 0xC2
  · exact absurd (by simp only [decodeRune, if_neg h1, if_pos h2]) bad
  by_cases h3 : b.toNat < 0xE0
  · rcases s with _ | ⟨b1, t⟩
    · exact absurd (by simp only [decodeRune, if_neg h1, if_neg h2, if_pos h3]) bad
    by_cases hc : IsCont b1
    · rw [decodeRune_two t (by omega) h3 hc] at h
      obtain ⟨rfl, rfl⟩ := Prod.mk.inj h
      obtain ⟨e, hs⟩ := encodeRune_decoded_two (by omega) h3 hc
      exact ⟨t, by rw [e]; rfl, hs⟩
    · exact absurd (by simp only [decodeRune, if_neg h1, if_neg h2, if_pos h3, if_neg hc]) bad
  by_cases h4 : b.toNat < 0xF0
  · rcases s with _ | ⟨b1, _ | ⟨b2, t⟩⟩
    · exact absurd (by simp only [decodeRune, if_neg h1, if_neg h2, if_neg h3, if_pos h4]) bad
    · exact absurd (by simp only [decodeRune, if_neg h1, if_neg h2, if_neg h3, if_pos h4]) bad
    by_cases hr : (if b.toNat = 0xE0 then 0xA0 else 0x80) ≤ b1.toNat ∧
        (b1.toNat ≤ if b.toNat = 0xED then 0x9F else 0xBF) ∧ IsCont b2
    · rw [decodeRune_three t (by omega) h4 hr.1 hr.2.1 hr.2.2] at h
      obtain ⟨rfl, rfl⟩ := Prod.mk.inj h
      obtain ⟨e, hs⟩ := encodeRune_decoded_three (by omega) h4 hr.1 hr.2.1 hr.2.2
      exact ⟨t, by rw [e]; rfl, hs⟩
    · refine absurd ?_ bad
      simp only [decodeRune, if_neg h1, if_neg h2, if_neg h3, if_pos h4, if_neg hr]
  by_cases h5 : b.toNat < 0xF5
  · rcases s with _ | ⟨b1, _ | ⟨b2, _ | ⟨b3, t⟩⟩⟩
    · refine absurd ?_ bad
      simp only [decodeRune, if_neg h1, if_neg h2, if_neg h3, if_neg h4, if_pos h5]
    · refine absurd ?_ bad
      simp only [decodeRune, if_neg h1, if_neg h2, if_neg h3, if_neg h4, if_pos h5]
    · refine absurd ?_ bad
      simp only [decodeRune, if_neg h1, if_neg h2, if_neg h3, if_neg h4, if_pos h5]
    by_cases hr : (if b.toNat = 0xF0 then 0x90 else 0x80) ≤ b1.toNat ∧
        (b1.toNat ≤ if b.toNat = 0xF4 then 0x8F else 0xBF) ∧ IsCont b2 ∧ IsCont b3
    · rw [decodeRune_four t (by omega) h5 hr.1 hr.2.1 hr.2.2.1 hr.2.2.2] at h
      obtain ⟨rfl, rfl⟩ := Prod.mk.inj h
      obtain ⟨e, hs⟩ := encodeRune_decoded_four (by omega) h5 hr.1 hr.2.1 hr.2.2.1 hr.2.2.2
      exact ⟨t, by rw [e]; rfl, hs⟩
    · refine absurd ?_ bad
      simp only [decodeRune, if_neg h1, if_neg h2, if_neg h3, if_neg h4, if_pos h5, if_neg hr]
  · refine absurd ?_ bad
    simp only [decodeRune, if_neg h1, if_neg h2, if_neg h3, if_neg h4, if_neg h5]

/-! ## Well-formed strings -/

theorem encodeRune_toNat {b : UInt8} (h : b.toNat < 0x80) : encodeRune b.toNat = [b] := by
  simp only [encodeRune, if_pos h]
  exact congrArg (· :: []) (UInt8.toNat.inj (UInt8.toNat_ofNat_of_lt b.toNat_lt_size))

theorem valid_nil : Valid [] := ⟨[], rfl⟩

theorem Valid.append {a b : GoString} (ha : Valid a) (hb : Valid b) : Valid (a ++ b) := by
  obtain ⟨ra, rfl⟩ := ha
  obtain ⟨rb, rfl⟩ := hb
  exact ⟨ra ++ rb, by rw [List.flatMap_append]⟩

theorem valid_encodeRune (r : Nat) : Valid (encodeRune r) := ⟨[r], by simp⟩

theorem valid_ascii {b : UInt8} (h : b.toNat < 0x80) : Valid [b] :=
  ⟨[b.toNat], by simp [encodeRune_toNat h]⟩

/-- **An ASCII string is well formed.** -/
theorem valid_of_ascii {s : GoString} (h : ∀ b ∈ s, b.toNat < 0x80) : Valid s := by
  induction s with
  | nil => exact valid_nil
  | cons b s ih =>
    rw [List.forall_mem_cons] at h
    exact (valid_ascii h.1).append (ih h.2)

/-! ## Coercing to UTF-8 -/

/-- **A string read rune by rune and written back**, Go's `string([]rune(s))`: each valid encoding
kept, each byte that starts none replaced by the encoding of U+FFFD. `fuel` bounds the runes; the
length of the string is enough (`coerce`). -/
def coerceAux : Nat → GoString → GoString
  | 0, _ => []
  | _, [] => []
  | fuel + 1, s@(_ :: _) => encodeRune (decodeRune s).1 ++ coerceAux fuel (s.drop (decodeRune s).2)

/-- `string([]rune(s))`. -/
def coerce (s : GoString) : GoString := coerceAux s.length s

theorem valid_coerceAux : ∀ (fuel : Nat) (s : GoString), Valid (coerceAux fuel s)
  | 0, [] | 0, _ :: _ | _ + 1, [] => valid_nil
  | fuel + 1, _ :: _ => (valid_encodeRune _).append (valid_coerceAux fuel _)

/-- **What `coerce` returns is well formed.** -/
theorem valid_coerce (s : GoString) : Valid (coerce s) := valid_coerceAux _ s

/-- A byte that starts no encoding is read as `RuneError`, alone. -/
theorem coerceAux_invalid {b : UInt8} {t : GoString} (fuel : Nat)
    (h : decodeRune (b :: t) = (runeError, 1)) :
    coerceAux (fuel + 1) (b :: t) = encodeRune runeError ++ coerceAux fuel t := by
  rw [coerceAux, h]
  rfl

/-- An encoding is read as its rune. -/
theorem coerceAux_encodeRune_append (r fuel : Nat) (t : GoString) :
    coerceAux (fuel + 1) (encodeRune r ++ t) = encodeRune r ++ coerceAux fuel t := by
  obtain ⟨b, rest, hb⟩ := List.exists_cons_of_ne_nil (encodeRune_ne_nil r)
  have hdec := decodeRune_encodeRune_append r t
  rw [hb, List.cons_append] at hdec ⊢
  rw [coerceAux, hdec, ← List.cons_append, ← hb, encodeRune_toScalar, List.drop_left]

theorem coerceAux_flatMap : ∀ (runes : List Nat) {fuel : Nat}, runes.length ≤ fuel →
    coerceAux fuel (runes.flatMap encodeRune) = runes.flatMap encodeRune
  | [], fuel, _ => by cases fuel <;> rfl
  | r :: runes, fuel + 1, h => by
    rw [List.flatMap_cons, coerceAux_encodeRune_append,
      coerceAux_flatMap runes (Nat.le_of_succ_le_succ h)]

theorem length_le_length_flatMap_encodeRune : ∀ runes : List Nat,
    runes.length ≤ (runes.flatMap encodeRune).length
  | [] => le_rfl
  | r :: runes => by
    have := List.length_pos.mpr (encodeRune_ne_nil r)
    have := length_le_length_flatMap_encodeRune runes
    rw [List.flatMap_cons, List.length_append, List.length_cons]
    omega

/-- **`coerce` leaves a well-formed string as it is.** -/
theorem coerce_of_valid {s : GoString} (h : Valid s) : coerce s = s := by
  obtain ⟨runes, rfl⟩ := h
  exact coerceAux_flatMap runes (length_le_length_flatMap_encodeRune runes)

end Utf8
