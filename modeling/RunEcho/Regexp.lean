import RunEcho.Strings

/-!
# The regular expressions of the parser

The parser is a handful of Go `regexp` patterns run over the whole text. Go's engine promises
leftmost-first matching: of the matches that start earliest, the one a backtracking matcher that
tries alternatives left to right, and a greedy star's longer iterations first, would find. The
model is that backtracking matcher, in continuation-passing style: `Regexp.run` tries the ways a
pattern can match a prefix of the text in that order, and hands each one to a continuation
until one is accepted.

Go steps over UTF-8 runes, the model over bytes, and on these patterns the two agree. Every
class they use is an ASCII class or the complement of a set of ASCII bytes: a byte at or above
`0x80`, alone or in a rune, matches the complements and nothing else, as the rune it belongs to
does (an invalid byte is read by Go as U+FFFD, which behaves the same). And every pattern begins
with `^`, `\s` or an ASCII literal, so no match can start inside a rune, where the byte model
would look and Go would not.

Each pattern of the parser has at most one capture group, so a match records one capture, the
text of that group. `FindAllStringSubmatch` and `ReplaceAllString` search for the next match
where the last one ended; no pattern here matches the empty string, so each match takes at least
one byte, and the text's length bounds how many there are.
-/

/-- **A pattern**, over bytes. -/
inductive Regexp where
  /-- The empty pattern. -/
  | empty
  /-- One byte from a class: a literal byte, `\s`, `\w`, `[...]` or `[^...]`. -/
  | byte (accepts : UInt8 → Bool)
  /-- `^` without the `m` flag: the beginning of the text. -/
  | beginText
  /-- `r s`. -/
  | seq (r s : Regexp)
  /-- `r|s`, where the matches of `r` come first. -/
  | alt (r s : Regexp)
  /-- `r*` when `greedy`, `r*?` otherwise. -/
  | star (r : Regexp) (greedy : Bool)
  /-- `(r)`, the capture group. -/
  | group (r : Regexp)

namespace Regexp

/-- What a match has captured: the text of its group, once the group has matched. -/
abbrev Capture := Option GoString

variable {α : Type}

/-- The iterations of a star whose body is matched by `m`, at most `fuel` of them. The matcher
never continues an iteration that consumed nothing, so every iteration it continues takes a byte,
and `s.length` iterations are always enough. -/
def starRun (m : GoString → Capture → (GoString → Capture → Option α) → Option α)
    (greedy : Bool) : Nat → GoString → Capture → (GoString → Capture → Option α) → Option α
  | 0, s, c, k => k s c
  | fuel + 1, s, c, k =>
    let again := fun _ : Unit =>
      m s c fun s' c' => if s'.length < s.length then starRun m greedy fuel s' c' k else none
    if greedy then (again ()).orElse fun _ => k s c else (k s c).orElse again

/-- **The backtracking matcher.** `r.run n s c k` tries, in order of preference, the ways `r`
matches a prefix of `s`, and returns the first answer the continuation `k` gives on the rest of
the text and the capture. `n` is the length of the whole text, by which `^` knows its
beginning. -/
def run (n : Nat) : Regexp → GoString → Capture → (GoString → Capture → Option α) → Option α
  | empty, s, c, k => k s c
  | byte p, b :: s, c, k => if p b then k s c else none
  | byte _, [], _, _ => none
  | beginText, s, c, k => if s.length = n then k s c else none
  | seq r₁ r₂, s, c, k => r₁.run n s c fun s' c' => r₂.run n s' c' k
  | alt r₁ r₂, s, c, k => (r₁.run n s c k).orElse fun _ => r₂.run n s c k
  | star r g, s, c, k => starRun (r.run n) g s.length s c k
  | group r, s, c, k => r.run n s c fun s' _ => k s' (some (s.take (s.length - s'.length)))

/-- **The leftmost match** from `s` on, in a text of length `n`: how many bytes come before it,
what its group captured, and the text after it. -/
def leftmost (r : Regexp) (n : Nat) (s : GoString) : Option (Nat × Capture × GoString) :=
  match r.run n s none fun rest c => some (c, rest) with
  | some (c, rest) => some (0, c, rest)
  | none =>
    match s with
    | [] => none
    | _ :: t => (r.leftmost n t).map fun (i, c, rest) => (i + 1, c, rest)

/-- At most `fuel` successive matches, each searched for where the previous one ended. -/
def findAllFrom (r : Regexp) (n : Nat) : Nat → GoString → List Capture
  | 0, _ => []
  | fuel + 1, s =>
    match r.leftmost n s with
    | none => []
    | some (_, c, rest) => c :: r.findAllFrom n fuel rest

/-- **`FindAllStringSubmatch(s, -1)`**, each match given by `match[1]`, the text of its group
(the empty string when the group took no part). -/
def findAllSubmatch (r : Regexp) (s : GoString) : List GoString :=
  (r.findAllFrom s.length (s.length + 1) s).map (·.getD [])

/-- At most `fuel` successive matches removed from `s`. -/
def removeFrom (r : Regexp) (n : Nat) : Nat → GoString → GoString
  | 0, s => s
  | fuel + 1, s =>
    match r.leftmost n s with
    | none => s
    | some (i, _, rest) => s.take i ++ r.removeFrom n fuel rest

/-- **`ReplaceAllString(s, "")`**: every match removed. -/
def removeAll (r : Regexp) (s : GoString) : GoString :=
  r.removeFrom s.length (s.length + 1) s

/-! ## What a match is -/

/-- **A match of a pattern, and what it makes of the capture**: `Matches r w c c'` when `r` can
match the text `w`, the capture `c` becoming `c'`. It says what a match can be, not which one the
matcher prefers: `^` matches the empty text wherever it stands, and a star's iterations may be
empty. -/
inductive Matches : Regexp → GoString → Capture → Capture → Prop
  | empty {c : Capture} : Matches empty [] c c
  | byte {p : UInt8 → Bool} {b : UInt8} {c : Capture} : p b → Matches (byte p) [b] c c
  | beginText {c : Capture} : Matches beginText [] c c
  | seq {r₁ r₂ : Regexp} {w₁ w₂ : GoString} {c c₁ c₂ : Capture} :
      Matches r₁ w₁ c c₁ → Matches r₂ w₂ c₁ c₂ → Matches (seq r₁ r₂) (w₁ ++ w₂) c c₂
  | altLeft {r₁ r₂ : Regexp} {w : GoString} {c c' : Capture} :
      Matches r₁ w c c' → Matches (alt r₁ r₂) w c c'
  | altRight {r₁ r₂ : Regexp} {w : GoString} {c c' : Capture} :
      Matches r₂ w c c' → Matches (alt r₁ r₂) w c c'
  | starNil {r : Regexp} {g : Bool} {c : Capture} : Matches (star r g) [] c c
  | starCons {r : Regexp} {g : Bool} {w₁ w₂ : GoString} {c c₁ c₂ : Capture} :
      Matches r w₁ c c₁ → Matches (star r g) w₂ c₁ c₂ → Matches (star r g) (w₁ ++ w₂) c c₂
  | group {r : Regexp} {w : GoString} {c c' : Capture} :
      Matches r w c c' → Matches (group r) w c (some w)

theorem orElse_eq_some {a : Option α} {f : Unit → Option α} {y : α} (h : a.orElse f = some y) :
    a = some y ∨ f () = some y := by
  cases a with
  | none => exact .inr h
  | some _ => exact .inl h

/-- A star's iterations, when each is a match of its body, make a match of the star. -/
theorem starRun_sound {r : Regexp} {g : Bool}
    {m : GoString → Capture → (GoString → Capture → Option α) → Option α}
    (hm : ∀ {s c k x}, m s c k = some x → ∃ w s' c', s = w ++ s' ∧ r.Matches w c c' ∧ k s' c' = some x) :
    ∀ {fuel s c k x}, starRun m g fuel s c k = some x →
      ∃ w s' c', s = w ++ s' ∧ (star r g).Matches w c c' ∧ k s' c' = some x
  | 0, s, c, _, _, h => ⟨[], s, c, rfl, .starNil, h⟩
  | fuel + 1, s, c, k, x, h => by
    have again : (m s c fun s' c' => if s'.length < s.length then starRun m g fuel s' c' k else none) =
        some x → ∃ w s' c', s = w ++ s' ∧ (star r g).Matches w c c' ∧ k s' c' = some x := by
      intro h
      obtain ⟨w₁, s₁, c₁, rfl, h₁, h⟩ := hm h
      split at h
      · obtain ⟨w₂, s₂, c₂, rfl, h₂, h⟩ := starRun_sound hm h
        exact ⟨w₁ ++ w₂, s₂, c₂, (List.append_assoc _ _ _).symm, .starCons h₁ h₂, h⟩
      · cases h
    unfold starRun at h
    cases g with
    | true => exact (orElse_eq_some h).elim again fun h => ⟨[], s, c, rfl, .starNil, h⟩
    | false => exact (orElse_eq_some h).elim (fun h => ⟨[], s, c, rfl, .starNil, h⟩) again

/-- **The matcher is sound**: whatever `run` hands its continuation is a match of the pattern,
with the capture that match makes. -/
theorem run_sound {n : Nat} :
    ∀ (r : Regexp) {s : GoString} {c : Capture} {k : GoString → Capture → Option α} {x : α},
      r.run n s c k = some x → ∃ w s' c', s = w ++ s' ∧ r.Matches w c c' ∧ k s' c' = some x
  | .empty, s, c, _, _, h => ⟨[], s, c, rfl, .empty, h⟩
  | .byte p, [], _, _, _, h => by cases h
  | .byte p, b :: s, c, _, _, h => by
    rw [run] at h
    split at h
    · exact ⟨[b], s, c, rfl, .byte ‹_›, h⟩
    · cases h
  | .beginText, s, c, _, _, h => by
    rw [run] at h
    split at h
    · exact ⟨[], s, c, rfl, .beginText, h⟩
    · cases h
  | .seq r₁ r₂, _, _, _, _, h => by
    obtain ⟨w₁, s₁, c₁, rfl, h₁, h⟩ := run_sound r₁ h
    obtain ⟨w₂, s₂, c₂, rfl, h₂, h⟩ := run_sound r₂ h
    exact ⟨w₁ ++ w₂, s₂, c₂, (List.append_assoc _ _ _).symm, .seq h₁ h₂, h⟩
  | .alt r₁ r₂, _, _, _, _, h => by
    rcases orElse_eq_some h with h | h
    · obtain ⟨w, s', c', rfl, hr, h⟩ := run_sound r₁ h
      exact ⟨w, s', c', rfl, .altLeft hr, h⟩
    · obtain ⟨w, s', c', rfl, hr, h⟩ := run_sound r₂ h
      exact ⟨w, s', c', rfl, .altRight hr, h⟩
  | .star r g, _, _, _, _, h => starRun_sound (run_sound r) h
  | .group r, _, _, _, _, h => by
    obtain ⟨w, s', c', rfl, hr, h⟩ := run_sound r h
    refine ⟨w, s', some w, rfl, .group hr, ?_⟩
    rwa [List.length_append, Nat.add_sub_cancel, List.take_left] at h

/-- `leftmost` at a text that is not empty: the match there, else the leftmost one after the first
byte. -/
theorem leftmost_cons (r : Regexp) (n : Nat) (b : UInt8) (t : GoString) :
    r.leftmost n (b :: t) =
      match r.run n (b :: t) none fun rest c => some (c, rest) with
      | some (c, rest) => some (0, c, rest)
      | none => (r.leftmost n t).map fun (i, c, rest) => (i + 1, c, rest) := by
  delta leftmost
  rfl

theorem leftmost_nil (r : Regexp) (n : Nat) :
    r.leftmost n [] =
      match r.run n [] none fun rest c => some (c, rest) with
      | some (c, rest) => some (0, c, rest)
      | none => none := by
  delta leftmost
  rfl

/-- A match that `leftmost` takes where it stands. -/
theorem run_here_sound {r : Regexp} {n : Nat} {s rest : GoString} {c : Capture}
    (h : r.run n s none (fun rest c => some (c, rest)) = some (c, rest)) :
    ∃ w, s = w ++ rest ∧ r.Matches w none c := by
  obtain ⟨w, s', c', he, hw, hk⟩ := run_sound r h
  cases hk
  exact ⟨w, he, hw⟩

/-- **The leftmost match is a match**, inside the text searched. -/
theorem leftmost_sound {r : Regexp} {n : Nat} {c : Capture} {rest : GoString} :
    ∀ {s : GoString} {i : Nat}, r.leftmost n s = some (i, c, rest) →
      ∃ w, s.drop i = w ++ rest ∧ r.Matches w none c
  | [], _, h => by
    rw [leftmost_nil] at h
    split at h
    next hrun =>
      cases h
      exact run_here_sound hrun
    · cases h
  | b :: t, _, h => by
    rw [leftmost_cons] at h
    split at h
    next hrun =>
      cases h
      exact run_here_sound hrun
    · obtain ⟨⟨i', c', rest'⟩, ht, he⟩ := Option.map_eq_some'.1 h
      cases he
      obtain ⟨w, hw, hm⟩ := leftmost_sound ht
      exact ⟨w, hw, hm⟩

/-- Every capture `FindAllStringSubmatch` reports is that of a match lying in the text. -/
theorem mem_findAllFrom {r : Regexp} {n : Nat} :
    ∀ {fuel : Nat} {s : GoString} {c : Capture}, c ∈ r.findAllFrom n fuel s →
      ∃ w, w <:+: s ∧ r.Matches w none c
  | 0, _, _, h => by cases h
  | fuel + 1, s, c, h => by
    rw [findAllFrom] at h
    split at h
    · cases h
    next i c' rest hl =>
      obtain ⟨w, hd, hw⟩ := leftmost_sound hl
      have hrest : rest <:+ s := (List.suffix_append w rest).trans (hd ▸ List.drop_suffix i s)
      rcases List.mem_cons.1 h with rfl | h
      · exact ⟨w, (List.infix_append [] w rest).trans (hd ▸ (List.drop_suffix i s).isInfix), hw⟩
      · obtain ⟨w', hw', h⟩ := mem_findAllFrom h
        exact ⟨w', hw'.trans hrest.isInfix, h⟩

theorem mem_findAllSubmatch {r : Regexp} {s name : GoString} (h : name ∈ r.findAllSubmatch s) :
    ∃ w c, w <:+: s ∧ r.Matches w none c ∧ name = c.getD [] := by
  obtain ⟨c, hc, rfl⟩ := List.mem_map.1 h
  obtain ⟨w, hw, hm⟩ := mem_findAllFrom hc
  exact ⟨w, c, hw, hm, rfl⟩

/-! ## What a group captures -/

/-- Whether a pattern has a capture group. -/
def hasGroup : Regexp → Bool
  | seq r₁ r₂ | alt r₁ r₂ => r₁.hasGroup || r₂.hasGroup
  | star r _ => r.hasGroup
  | group _ => true
  | _ => false

/-- The body of the group a sequence must pass through: the one group of `r`, when no other part
of the sequence has one and it stands under no alternative or star. -/
def mandatoryGroup : Regexp → Option Regexp
  | group r => some r
  | seq r₁ r₂ =>
    if r₁.hasGroup then (if r₂.hasGroup then none else r₁.mandatoryGroup) else r₂.mandatoryGroup
  | _ => none

/-- A match of a pattern with no group leaves the capture as it was. -/
theorem Matches.capture_eq {r : Regexp} {w : GoString} {c c' : Capture} (h : r.Matches w c c')
    (hr : r.hasGroup = false) : c' = c := by
  induction h with
  | empty | byte | beginText | starNil => rfl
  | seq _ _ ih₁ ih₂ =>
    simp only [hasGroup, Bool.or_eq_false_iff] at hr
    rw [ih₂ hr.2, ih₁ hr.1]
  | altLeft _ ih =>
    simp only [hasGroup, Bool.or_eq_false_iff] at hr
    exact ih hr.1
  | altRight _ ih =>
    simp only [hasGroup, Bool.or_eq_false_iff] at hr
    exact ih hr.2
  | starCons _ _ ih₁ ih₂ => rw [ih₂ hr, ih₁ hr]
  | group => cases hr

/-- **A match's capture is its mandatory group's match.** -/
theorem Matches.capture_of_mandatory {body : Regexp} :
    ∀ {r : Regexp} {w : GoString} {c c' : Capture}, r.mandatoryGroup = some body →
      r.Matches w c c' → ∃ g c₀ c₁, c' = some g ∧ body.Matches g c₀ c₁
  | .group r, _, _, _, hb, .group h => by
    cases hb
    exact ⟨_, _, _, rfl, h⟩
  | .seq r₁ r₂, _, _, _, hb, .seq h₁ h₂ => by
    simp only [mandatoryGroup] at hb
    split_ifs at hb with g₁ g₂
    · obtain ⟨g, c₀, c₁, rfl, hg⟩ := capture_of_mandatory hb h₁
      exact ⟨g, c₀, c₁, h₂.capture_eq (Bool.not_eq_true _ ▸ g₂), hg⟩
    · exact capture_of_mandatory hb h₂
  | .empty, _, _, _, hb, _ | .byte _, _, _, _, hb, _ | .beginText, _, _, _, hb, _
  | .alt _ _, _, _, _, hb, _ | .star _ _, _, _, _, hb, _ => by cases hb

/-! ## Writing patterns -/

/-- A sequence of patterns. -/
def cat (rs : List Regexp) : Regexp := rs.foldr seq empty

/-- A literal. -/
def lit (s : String) : Regexp := cat ((bytes s).map fun b => byte (· == b))

/-- `r+`. -/
def plus (r : Regexp) : Regexp := seq r (star r true)

/-- `r*`. -/
def many (r : Regexp) : Regexp := star r true

/-- `r?`. -/
def opt (r : Regexp) : Regexp := alt r empty

/-- Go's `\s`, the class `[\t\n\f\r ]`. -/
def isSpaceByte (b : UInt8) : Bool := b == 9 || b == 10 || b == 12 || b == 13 || b == 32

/-- Go's `\w`, the class `[0-9A-Za-z_]`. -/
def isWordByte (b : UInt8) : Bool :=
  (48 ≤ b && b ≤ 57) || (65 ≤ b && b ≤ 90) || (97 ≤ b && b ≤ 122) || b == 95

/-- `\s`. -/
def space : Regexp := byte isSpaceByte

/-- `\w`. -/
def word : Regexp := byte isWordByte

/-- `[^…]` over ASCII bytes: any byte but those of `s`. -/
def noneOf (s : String) : Regexp := byte fun b => !(bytes s).contains b

/-- `[…]` over ASCII bytes. -/
def oneOf (s : String) : Regexp := byte fun b => (bytes s).contains b

/-! ## Runs of a byte class -/

/-- What a star of one byte class matches is a run of that class. -/
theorem Matches.star_byte {p : UInt8 → Bool} {g : Bool} {w : GoString} {c c' : Capture}
    (h : (Regexp.star (Regexp.byte p) g).Matches w c c') : ∀ b ∈ w, p b := by
  generalize hr : Regexp.star (Regexp.byte p) g = r at h
  induction h <;> cases hr
  · exact fun b hb => absurd hb (List.not_mem_nil b)
  · next h₁ _ _ ih =>
    cases h₁
    intro b hb
    rcases List.mem_cons.1 hb with rfl | hb
    · assumption
    · exact ih rfl b hb

/-- **What `r+` matches, for a byte class `r`**: a non-empty run of the class. -/
theorem Matches.plus_byte {p : UInt8 → Bool} {w : GoString} {c c' : Capture}
    (h : (plus (Regexp.byte p)).Matches w c c') : w ≠ [] ∧ ∀ b ∈ w, p b := by
  cases h with
  | seq h₁ h₂ =>
    cases h₁
    exact ⟨List.cons_ne_nil _ _, fun b hb => (List.mem_cons.1 hb).elim (· ▸ ‹_›) (h₂.star_byte b)⟩

end Regexp
