import RunEcho.Json.Decode

/-!
# What the decoder can fail with

`json.Unmarshal` fails on the bytes it is given in two ways only: `checkValid` reports the
scanner's `SyntaxError` when they are not one JSON value, and the walk that follows saves an
`UnmarshalTypeError` when a value does not fit its target. The parse of the model has two more
ways to fail, and this module shows that neither is ever taken.

* **Fuel.** Each function of the recursive descent runs on fuel and reports `outOfFuel` when it
  runs out. Each returns less input than it was given, a value, an array or an object of `n`
  bytes being read in `3 * n + 1`, `3 * n + 3` and `3 * n + 3` steps at most, so the
  `3 * n + 1` steps `parseDocument` gives a document are enough (`parse_outcome`).
* **The phase panic.** A string literal the scanner has accepted is unquoted by `unquoteBytes`,
  and Go panics with `phasePanicMsg` if that fails. It never does: the scanner accepts a body of
  plain bytes, two-byte escapes and `\u` escapes of four hex digits (`StringBody`), and
  `unquoteBytes` reads each of these, a byte that starts a multi-byte rune taking with it only
  continuation bytes, which are plain (`unquote_of_stringBody`).

So every error `parseDocument` reports is the text of a `SyntaxError` (`parseDocument_error`),
which is what `checkValid` would have reported.
-/

namespace Json

/-! ## Syntax errors -/

/-- **The text of a scanner's `SyntaxError`**: the end of input inside a value, or an invalid
byte. -/
def IsSyntaxError (e : String) : Prop :=
  e = unexpectedEnd ∨ ∃ c context, e = invalidChar c context

theorem invalidChar_data (c : UInt8) (context : String) :
    ∃ rest, (invalidChar c context).data = "invalid character ".data ++ rest :=
  ⟨(quoteChar c).data ++ " ".data ++ context.data, by
    simp only [invalidChar, String.data_append, List.append_assoc]⟩

theorem IsSyntaxError.ne_outOfFuel {e : String} (h : IsSyntaxError e) : e ≠ outOfFuel := by
  rintro rfl
  rcases h with h | ⟨c, context, h⟩
  · exact absurd h (by decide)
  · obtain ⟨rest, hr⟩ := invalidChar_data c context
    have := congrArg (fun s => s.data.length) h
    simp only [hr, List.length_append] at this
    rw [show outOfFuel.data.length = 11 by decide,
      show "invalid character ".data.length = 18 by decide] at this
    omega

theorem IsSyntaxError.ne_phasePanicMsg {e : String} (h : IsSyntaxError e) : e ≠ phasePanicMsg := by
  rintro rfl
  rcases h with h | ⟨c, context, h⟩
  · exact absurd h (by decide)
  · obtain ⟨rest, hr⟩ := invalidChar_data c context
    have := congrArg (fun s => s.data.head?) h
    simp only [hr, List.head?_append_of_ne_nil _ (show "invalid character ".data ≠ [] by decide)] at this
    exact absurd this (by decide)

/-- **What a parse may return**: a syntax error, or a result that satisfies `P`. -/
def Outcome {α : Type} (P : α → Prop) : Except String α → Prop
  | .ok a => P a
  | .error e => IsSyntaxError e

namespace Outcome

variable {α β : Type} {P : α → Prop} {Q : β → Prop}

theorem error_unexpectedEnd : Outcome P (.error unexpectedEnd) := .inl rfl

theorem error_invalidChar {c : UInt8} {context : String} :
    Outcome P (.error (invalidChar c context)) :=
  .inr ⟨c, context, rfl⟩

theorem mono {r : Except String α} {P' : α → Prop} (h : Outcome P r) (hP : ∀ a, P a → P' a) :
    Outcome P' r := by
  cases r with
  | error e => exact h
  | ok a => exact hP a h

theorem map {r : Except String α} {f : α → β} (h : Outcome P r) (hf : ∀ a, P a → Q (f a)) :
    Outcome Q (r.map f) := by
  cases r with
  | error e => exact h
  | ok a => exact hf a h

theorem ite {p : Prop} [Decidable p] {x y : Except String α} (hx : Outcome P x) (hy : Outcome P y) :
    Outcome P (if p then x else y) := by
  split
  exacts [hx, hy]

theorem bind {r : Except String α} {f : α → Except String β} (h : Outcome P r)
    (hf : ∀ a, P a → Outcome Q (f a)) : Outcome Q (r >>= f) := by
  cases r with
  | error e => exact h
  | ok a => exact hf a h

end Outcome

/-- The rest a parse of `s` returns is shorter than `s`. -/
def Shorter {α : Type} (s : GoString) (p : α × GoString) : Prop := p.2.length < s.length

/-! ## Spaces, numbers and words -/

theorem length_skipSpace_le : ∀ s : GoString, (skipSpace s).length ≤ s.length
  | [] => le_rfl
  | c :: s => by
    rw [skipSpace]
    split
    · exact Nat.le_succ_of_le (length_skipSpace_le s)
    · exact le_rfl

theorem length_lt_of_skipSpace {s rest : GoString} {c : UInt8} (h : skipSpace s = c :: rest) :
    rest.length < s.length := by
  simpa only [h] using length_skipSpace_le s

theorem scanNumber_outcome (st : NumberState) (s : GoString) :
    Outcome (fun p => p.2.length ≤ s.length) (scanNumber st s) := by
  induction s generalizing st with
  | nil => cases st <;> first | exact Outcome.error_invalidChar | exact le_rfl
  | cons c s ih =>
    have next := fun st => (ih st).map (Q := fun p => p.2.length ≤ (c :: s).length)
      (f := fun p => (c :: p.1, p.2)) fun _ h => Nat.le_succ_of_le h
    cases st <;> simp only [scanNumber] <;> split_ifs <;>
      first | exact next _ | exact Outcome.error_invalidChar | exact le_rfl

theorem scanWord_outcome (name : String) :
    ∀ w s : GoString, Outcome (fun r => r.length ≤ s.length) (scanWord name w s)
  | [], _ => le_rfl
  | _ :: _, [] => Outcome.error_invalidChar
  | w :: ws, c :: s => by
    rw [scanWord]
    split_ifs
    · exact (scanWord_outcome name ws s).mono fun _ h => Nat.le_succ_of_le h
    · exact Outcome.error_invalidChar

/-! ## String literals -/

/-- **The body of a string literal the scanner accepts**: plain bytes, two-byte escapes, and `\u`
escapes of four hex digits. -/
inductive StringBody : GoString → Prop
  | nil : StringBody []
  | plain {c : UInt8} {s : GoString} : c ≠ 34 → c ≠ 92 → ¬c < 0x20 → StringBody s →
      StringBody (c :: s)
  | escape {e : UInt8} {s : GoString} :
      (e = 98 ∨ e = 102 ∨ e = 110 ∨ e = 114 ∨ e = 116 ∨ e = 92 ∨ e = 47 ∨ e = 34) →
      StringBody s → StringBody (92 :: e :: s)
  | escU {h₁ h₂ h₃ h₄ : UInt8} {s : GoString} : isHex h₁ → isHex h₂ → isHex h₃ → isHex h₄ →
      StringBody s → StringBody (92 :: 117 :: h₁ :: h₂ :: h₃ :: h₄ :: s)

/-- What the bytes a scan from state `st` returns complete: in a string, a body; after a
backslash, a body once the backslash is put back; after `\u` and `n` hex digits, a body once they
are put back. -/
def StringState.Closes : StringState → GoString → Prop
  | .inString, body => StringBody body
  | .esc, body => StringBody (92 :: body)
  | .escU n, body => ∀ hs : GoString, hs.length = n → (∀ h ∈ hs, isHex h) →
      StringBody (92 :: 117 :: hs ++ body)

theorem StringState.closes_escU {n : Nat} {c : UInt8} {body : GoString} (hc : isHex c)
    (h : (if n = 3 then StringState.inString else .escU (n + 1)).Closes body) :
    (StringState.escU n).Closes (c :: body) := by
  intro hs hl hh
  by_cases h3 : n = 3
  · rw [if_pos h3] at h
    subst h3
    match hs, hl with
    | [h₁, h₂, h₃], _ => exact .escU (hh _ (by simp)) (hh _ (by simp)) (hh _ (by simp)) hc h
  · rw [if_neg h3] at h
    have := h (hs ++ [c]) (by simp [hl]) fun h' hm =>
      (List.mem_append.1 hm).elim (hh h') fun e => by rw [List.mem_singleton.1 e]; exact hc
    simpa using this

/-- **The scanner in a string**: what it returns completes its state, and it reads at least one
byte, the closing quote. -/
theorem scanString_outcome (st : StringState) (s : GoString) :
    Outcome (fun p => st.Closes p.1 ∧ p.2.length < s.length) (scanString st s) := by
  induction s generalizing st with
  | nil => cases st <;> first | exact Outcome.error_unexpectedEnd | exact Outcome.error_invalidChar
  | cons c s ih =>
    have next : ∀ {st' : StringState} {Q : GoString → Prop}, (∀ body, st'.Closes body → Q (c :: body)) →
        Outcome (fun p => Q p.1 ∧ p.2.length < (c :: s).length) (consLit c (scanString st' s)) :=
      fun hQ => (ih _).map fun _ h => ⟨hQ _ h.1, Nat.lt_succ_of_lt h.2⟩
    cases st with
    | inString =>
      rw [scanString]
      split_ifs with h34 h92 hlow
      · exact ⟨.nil, Nat.lt_succ_self _⟩
      · exact next fun _ h => h92 ▸ h
      · exact Outcome.error_invalidChar
      · exact next fun _ h => .plain h34 h92 hlow h
    | esc =>
      simp only [scanString]
      split_ifs with he h117
      · exact next fun _ h => .escape he h
      · exact next fun _ h => h117 ▸ h [] rfl (by simp)
      · exact Outcome.error_invalidChar
    | escU n =>
      simp only [scanString]
      by_cases hx : isHex c
      · rw [if_pos hx]
        exact next fun _ h => StringState.closes_escU hx h
      · rw [if_neg hx]
        exact Outcome.error_invalidChar

/-! ## `unquoteBytes` reads every body the scanner accepts -/

theorem StringBody.tail {c : UInt8} {s : GoString} (h : StringBody (c :: s)) (hc : c ≠ 92) :
    StringBody s := by
  cases h with
  | plain _ _ _ h => exact h
  | escape => exact absurd rfl hc
  | escU => exact absurd rfl hc

theorem StringBody.drop_high :
    ∀ (n : Nat) {s : GoString}, StringBody s → (∀ b ∈ s.take n, 0x80 ≤ b.toNat) →
      StringBody (s.drop n)
  | 0, _, h, _ => h
  | _ + 1, [], h, _ => h
  | n + 1, b :: s, h, hb => by
    have h92 : b ≠ 92 := by
      rintro rfl
      exact absurd (hb 92 (List.mem_cons_self _ _)) (by decide)
    exact drop_high n (h.tail h92) fun b' hm => hb b' (List.mem_cons_of_mem _ hm)

theorem StringBody.drop_six {s : GoString} {r : Nat} (h : StringBody s) (hg : getu4 s = some r) :
    StringBody (s.drop 6) := by
  unfold getu4 at hg
  split at hg
  · cases h with
    | plain _ h92 => exact absurd rfl h92
    | escape he _ => exact absurd he (by decide)
    | escU _ _ _ _ h => exact h
  · cases hg

theorem hexValue_of_isHex {c : UInt8} (h : isHex c) : ∃ n, hexValue c = some n := by
  unfold hexValue
  split_ifs with h₁ h₂ h₃
  · exact ⟨_, rfl⟩
  · exact ⟨_, rfl⟩
  · exact ⟨_, rfl⟩
  · simp [isHex, isDigit, h₁, h₂, h₃] at h

theorem getu4_of_isHex {h₁ h₂ h₃ h₄ : UInt8} (e₁ : isHex h₁) (e₂ : isHex h₂) (e₃ : isHex h₃)
    (e₄ : isHex h₄) (t : GoString) : ∃ r, getu4 (92 :: 117 :: h₁ :: h₂ :: h₃ :: h₄ :: t) = some r := by
  obtain ⟨a, ha⟩ := hexValue_of_isHex e₁
  obtain ⟨b, hb⟩ := hexValue_of_isHex e₂
  obtain ⟨c, hc⟩ := hexValue_of_isHex e₃
  obtain ⟨d, hd⟩ := hexValue_of_isHex e₄
  exact ⟨_, by rw [getu4, ha, hb, hc, hd]; rfl⟩

/-- **One pass of `unquoteBytes` over a body** writes something and leaves a body. -/
theorem unquoteStep_of_stringBody {c : UInt8} {s : GoString} (h : StringBody (c :: s)) :
    ∃ out rest, unquoteStep c s = some (out, rest) ∧ StringBody rest ∧ rest.length ≤ s.length := by
  cases h with
  | plain h34 h92 hlow hs =>
    unfold unquoteStep
    rw [if_neg h92, if_neg (not_or.2 ⟨h34, hlow⟩)]
    split_ifs
    · exact ⟨_, _, rfl, hs, le_rfl⟩
    · obtain ⟨n, hn, hcont⟩ := Utf8.decodeRune_cont c s
      rcases hd : Utf8.decodeRune (c :: s) with ⟨r, size⟩
      rw [hd] at hn
      dsimp only at hn
      subst hn
      exact ⟨_, _, rfl, hs.drop_high n hcont, (List.length_drop n s).trans_le (Nat.sub_le _ _)⟩
  | escape he hs =>
    unfold unquoteStep
    rcases he with rfl | rfl | rfl | rfl | rfl | rfl | rfl | rfl <;>
      exact ⟨_, _, rfl, hs, Nat.le_succ _⟩
  | escU e₁ e₂ e₃ e₄ hs =>
    obtain ⟨r, hr⟩ := getu4_of_isHex e₁ e₂ e₃ e₄ _
    unfold unquoteStep
    rw [if_pos rfl]
    dsimp only
    rw [if_neg (by decide), if_neg (by decide), if_neg (by decide), if_neg (by decide),
      if_neg (by decide), if_neg (by decide), if_pos rfl, hr]
    dsimp only
    split_ifs with hsur hdec
    · cases hg : getu4 (List.drop 5 (117 :: _ :: _ :: _ :: _ :: _)) with
      | none => rw [hg] at hdec; exact absurd rfl hdec
      | some r' => exact ⟨_, _, rfl, hs.drop_six hg, by simp only [List.length_drop, List.length_cons]; omega⟩
    · exact ⟨_, _, rfl, hs, by simp only [List.length_drop, List.length_cons]; omega⟩
    · exact ⟨_, _, rfl, hs, by simp only [List.length_drop, List.length_cons]; omega⟩

theorem unquoteLoop_of_stringBody :
    ∀ {fuel : Nat} {s : GoString}, StringBody s → s.length ≤ fuel → ∃ t, unquoteLoop fuel s = some t
  | _, [], _, _ => ⟨[], by rw [unquoteLoop.eq_1]⟩
  | 0, _ :: _, _, h => absurd h (by simp)
  | fuel + 1, c :: s, hb, h => by
    obtain ⟨out, rest, hstep, hrest, hlen⟩ := unquoteStep_of_stringBody hb
    obtain ⟨t, ht⟩ := @unquoteLoop_of_stringBody fuel rest hrest (by rw [List.length_cons] at h; omega)
    exact ⟨out ++ t, by rw [unquoteLoop.eq_3, hstep]; simp only [ht]; rfl⟩

theorem unquote_of_stringBody {body : GoString} (h : StringBody body) : ∃ t, unquote body = some t :=
  unquoteLoop_of_stringBody h le_rfl

/-- **A string literal is read whole**: a syntax error, or the string and a shorter rest; never
the phase panic. -/
theorem parseString_outcome (s : GoString) : Outcome (Shorter s) (parseString s) :=
  (scanString_outcome .inString s).bind fun ⟨body, _⟩ ⟨hb, hr⟩ => by
    obtain ⟨t, ht⟩ := unquote_of_stringBody hb
    dsimp only
    rw [ht]
    exact hr

theorem parseLiteral_outcome (c : UInt8) (rest : GoString) :
    Outcome (fun p => p.2.length ≤ rest.length) (parseLiteral c rest) := by
  unfold parseLiteral
  refine .ite ((parseString_outcome rest).map fun _ h => Nat.le_of_lt h) (.ite ?_ (.ite ?_ (.ite ?_
    (.ite ?_ (.ite ?_ (.ite ?_ Outcome.error_invalidChar))))))
  · exact (scanNumber_outcome .neg rest).map fun _ h => h
  · exact (scanNumber_outcome .zero rest).map fun _ h => h
  · exact (scanNumber_outcome .one rest).map fun _ h => h
  · exact (scanWord_outcome "true" _ rest).map fun _ h => h
  · exact (scanWord_outcome "false" _ rest).map fun _ h => h
  · exact (scanWord_outcome "null" _ rest).map fun _ h => h

/-! ## Values, with enough fuel -/

/-- **Three steps a byte are enough**: with that much fuel each function of the parser returns a
syntax error or a shorter rest. -/
theorem parse_outcome : ∀ fuel : Nat,
    (∀ depth s, 3 * s.length + 1 ≤ fuel → Outcome (Shorter s) (parseValue fuel depth s)) ∧
    (∀ depth s, 3 * s.length + 3 ≤ fuel → Outcome (Shorter s) (parseArray fuel depth s)) ∧
    (∀ depth s, 3 * s.length + 2 ≤ fuel → Outcome (Shorter s) (parseElems fuel depth s)) ∧
    (∀ depth s, 3 * s.length + 3 ≤ fuel → Outcome (Shorter s) (parseObject fuel depth s)) ∧
    (∀ depth s, 3 * s.length + 2 ≤ fuel → Outcome (Shorter s) (parseMembers fuel depth s))
  | 0 => ⟨fun _ _ h => absurd h (by omega), fun _ _ h => absurd h (by omega),
      fun _ _ h => absurd h (by omega), fun _ _ h => absurd h (by omega),
      fun _ _ h => absurd h (by omega)⟩
  | fuel + 1 => by
    obtain ⟨ihV, ihA, ihE, ihO, ihM⟩ := parse_outcome fuel
    refine ⟨fun depth s hf => ?_, fun depth s hf => ?_, fun depth s hf => ?_,
      fun depth s hf => ?_, fun depth s hf => ?_⟩
    · rw [parseValue.eq_2]
      split
      · exact Outcome.error_unexpectedEnd
      next c rest hs =>
        have hl := length_lt_of_skipSpace hs
        split_ifs
        · exact (ihO _ _ (by omega)).mono fun _ h => lt_trans h hl
        · exact Outcome.error_invalidChar
        · exact (ihA _ _ (by omega)).mono fun _ h => lt_trans h hl
        · exact Outcome.error_invalidChar
        · exact (parseLiteral_outcome c rest).mono fun _ h => lt_of_le_of_lt h hl
    · rw [parseArray.eq_2]
      split
      next c rest hs =>
        have hl := length_lt_of_skipSpace hs
        split_ifs
        · exact hl
        · exact (ihE _ _ (by simp only [List.length_cons]; omega)).map fun _ h => lt_of_lt_of_le h hl
      · exact Outcome.error_unexpectedEnd
    · rw [parseElems.eq_2]
      refine (ihV _ _ (by omega)).bind fun ⟨v, rest⟩ hv => ?_
      replace hv : rest.length < s.length := hv
      dsimp only
      split
      next c rest' hs =>
        have hl := length_lt_of_skipSpace hs
        split_ifs
        · exact (ihE _ _ (by omega)).map fun _ h => (lt_trans h hl).trans hv
        · exact (show rest'.length < s.length by omega)
        · exact Outcome.error_invalidChar
      · exact Outcome.error_unexpectedEnd
    · rw [parseObject.eq_2]
      split
      next c rest hs =>
        have hl := length_lt_of_skipSpace hs
        split_ifs
        · exact hl
        · exact (ihM _ _ (by simp only [List.length_cons]; omega)).map fun _ h => lt_of_lt_of_le h hl
      · exact Outcome.error_unexpectedEnd
    · rw [parseMembers.eq_2]
      split
      next c rest hs =>
        have hl := length_lt_of_skipSpace hs
        split_ifs
        · refine (parseString_outcome rest).bind fun ⟨key, rest₁⟩ h₁ => ?_
          replace h₁ : rest₁.length < rest.length := h₁
          dsimp only
          split
          next c rest₂ hs₂ =>
            have hl₂ := length_lt_of_skipSpace hs₂
            split_ifs
            · refine (ihV _ _ (by omega)).bind fun ⟨v, rest₃⟩ h₃ => ?_
              replace h₃ : rest₃.length < rest₂.length := h₃
              dsimp only
              split
              next c rest₄ hs₄ =>
                have hl₄ := length_lt_of_skipSpace hs₄
                split_ifs
                · exact (ihM _ _ (by omega)).map fun _ h => lt_trans h (by omega)
                · exact (show rest₄.length < s.length by omega)
                · exact Outcome.error_invalidChar
              · exact Outcome.error_unexpectedEnd
            · exact Outcome.error_invalidChar
          · exact Outcome.error_unexpectedEnd
        · exact Outcome.error_invalidChar
      · exact Outcome.error_unexpectedEnd

/-- **Every error of `parseDocument` is a syntax error**: the parse never runs out of fuel, and
never reaches the phase panic. -/
theorem parseDocument_error {data : GoString} {e : String} (h : parseDocument data = .error e) :
    IsSyntaxError e := by
  have : Outcome (fun _ => True) (parseDocument data) :=
    ((parse_outcome _).1 0 data le_rfl).bind fun ⟨_, rest⟩ _ => by
      dsimp only
      split
      · trivial
      · exact Outcome.error_invalidChar
  rwa [h] at this

/-- **The model's own errors are never reported**: `parseDocument` reports neither the fuel's error
nor the phase panic, whatever the document. -/
theorem parseDocument_ne_modelErrors (data : GoString) :
    parseDocument data ≠ .error outOfFuel ∧ parseDocument data ≠ .error phasePanicMsg :=
  ⟨fun h => (parseDocument_error h).ne_outOfFuel rfl,
    fun h => (parseDocument_error h).ne_phasePanicMsg rfl⟩

end Json
