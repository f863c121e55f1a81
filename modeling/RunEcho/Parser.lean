import RunEcho.Regexp

/-!
# The shallow parser

`JSParser` reads a `.js`, `.ts` or `.gs` file with a few regular expressions and no grammar. It
strips comments, runs each category's patterns over the whole remaining text, and returns what
their groups captured: import paths, function names, class names and exported names. Each list
is then sorted and rid of repeated entries.

Nothing in it tracks scopes. A pattern matches wherever its text occurs, so a declaration nested
in a body is found like a top-level one (`parse_nestedSource_functions`), and the comment
stripper removes every `/* … */` before it looks at `//`, whatever came first in the text.

The one property the parser guarantees of every text is the shape of what it returns:
`finished_parse` says that each list is non-nil, strictly ascending, and holds exactly the
distinct names its patterns capture, read off `FindAllStringSubmatch` with no other filter. What
those names are is `parse_names`: words the patterns' groups captured after their keywords, or
contiguous pieces of an `export { … }` list. None is
compared with JavaScript's reserved words, and a re-export of a default export reports the
keyword `default` (`parse_defaultReexportSource_exports`).
-/

/-- **The shallow structure of a file**, `parser.FileStructure`: its import paths, function
names, class names and exported names. -/
structure FileStructure where
  /-- Import paths (ESM `from` targets and `require` arguments). -/
  imports : Slice GoString
  /-- Function names. -/
  functions : Slice GoString
  /-- Class names. -/
  classes : Slice GoString
  /-- Exported names. -/
  exports : Slice GoString
  deriving DecidableEq, Repr

/-- **The `parser.Parser` interface**: a parse of a text, which may fail, and the extensions it
accepts. -/
structure Parser where
  /-- `Parse(source)`. -/
  parse : GoString → Except String FileStructure
  /-- `SupportsExtension(ext)`. -/
  supportsExtension : GoString → Bool

namespace JSParser

open Regexp

/-! ## The patterns -/

/-- `['"]`. -/
def quote : Regexp := byte fun b => b == 39 || b == 34

/-- `[^'"]`. -/
def notQuote : Regexp := byte fun b => b != 39 && b != 34

/-- `(?:async\s+)?`. -/
def asyncPrefix : Regexp := opt (cat [lit "async", plus space])

/-- `(?:const|let|var)`. -/
def declKeyword : Regexp := alt (lit "const") (alt (lit "let") (lit "var"))

/-- `import\s+(?:[\w\s{},*]*\s+from\s+)?['"]([^'"]+)['"]`. -/
def importESMRegex : Regexp :=
  cat [lit "import", plus space,
    opt (cat [many (byte fun b => isWordByte b || isSpaceByte b || (bytes "\x7b\x7d,*").contains b),
      plus space, lit "from", plus space]),
    quote, group (plus notQuote), quote]

/-- `require\s*\(\s*['"]([^'"]+)['"]\s*\)`. -/
def importCJSRegex : Regexp :=
  cat [lit "require", many space, lit "(", many space, quote, group (plus notQuote), quote,
    many space, lit ")"]

/-- `(?:^|\s)(?:async\s+)?function\s+(\w+)\s*\(`. -/
def funcDeclRegex : Regexp :=
  cat [alt beginText space, asyncPrefix, lit "function", plus space, group (plus word), many space,
    lit "("]

/-- `(?:const|let|var)\s+(\w+)\s*=\s*(?:async\s+)?function\s*\(`. -/
def funcExprRegex : Regexp :=
  cat [declKeyword, plus space, group (plus word), many space, lit "=", many space, asyncPrefix,
    lit "function", many space, lit "("]

/-- `(?:const|let|var)\s+(\w+)\s*=\s*(?:async\s+)?(?:\([^)]*\)|[\w]+)\s*=>`. -/
def arrowFuncRegex : Regexp :=
  cat [declKeyword, plus space, group (plus word), many space, lit "=", many space, asyncPrefix,
    alt (cat [lit "(", many (noneOf ")"), lit ")"]) (plus word), many space, lit "=>"]

/-- `(?:^|\s)(?:export\s+(?:default\s+)?)?class\s+(\w+)`. -/
def classDeclRegex : Regexp :=
  cat [alt beginText space, opt (cat [lit "export", plus space, opt (cat [lit "default", plus space])]),
    lit "class", plus space, group (plus word)]

/-- `export\s+\{([^}]+)\}`. -/
def exportNamedRegex : Regexp :=
  cat [lit "export", plus space, lit "\x7b", group (plus (noneOf "\x7d")), lit "\x7d"]

/-- `export\s+(?:const|let|var|function|class|async\s+function)\s+(\w+)`. -/
def exportDeclRegex : Regexp :=
  cat [lit "export", plus space,
    alt (lit "const") (alt (lit "let") (alt (lit "var") (alt (lit "function")
      (alt (lit "class") (cat [lit "async", plus space, lit "function"]))))),
    plus space, group (plus word)]

/-- `export\s+default\s+(\w+)`. -/
def exportDefaultRegex : Regexp :=
  cat [lit "export", plus space, lit "default", plus space, group (plus word)]

/-- `/\*[\s\S]*?\*/`, a block comment up to its first `*/`. -/
def multiLineRegex : Regexp :=
  cat [lit "/*", star (byte fun _ => true) false, lit "*/"]

/-! ## Comments and the extractors -/

/-- **`removeComments`**: every block comment removed first, then each line cut at its first
`//`. -/
def removeComments (source : GoString) : GoString :=
  let source := multiLineRegex.removeAll source
  GoString.join ((GoString.split source 10).map fun line =>
    match GoString.index (bytes "//") line with
    | some idx => line.take idx
    | none => line) 10

/-- **`extractImports`**: the ESM targets, then the `require` arguments. -/
def extractImports (source : GoString) : List GoString :=
  importESMRegex.findAllSubmatch source ++ importCJSRegex.findAllSubmatch source

/-- **`extractFunctions`**: declarations, function expressions, arrow functions. -/
def extractFunctions (source : GoString) : List GoString :=
  funcDeclRegex.findAllSubmatch source ++ funcExprRegex.findAllSubmatch source ++
    arrowFuncRegex.findAllSubmatch source

/-- **`extractClasses`**. -/
def extractClasses (source : GoString) : List GoString :=
  classDeclRegex.findAllSubmatch source

/-- One entry of a named-export list, trimmed and cut before its first ` as `. -/
def exportListName (name : GoString) : GoString :=
  let name := GoString.trimSpace name
  match GoString.index (bytes " as ") name with
  | some idx => GoString.trimSpace (name.take idx)
  | none => name

/-- **`extractExports`**: the non-empty entries of each named-export list, then declaration
exports, then default exports. -/
def extractExports (source : GoString) : List GoString :=
  (exportNamedRegex.findAllSubmatch source).flatMap
      (fun list => ((GoString.split list 44).map exportListName).filter (· != [])) ++
    exportDeclRegex.findAllSubmatch source ++ exportDefaultRegex.findAllSubmatch source

/-! ## Sorting and deduplication -/

/-- The loop of `deduplicate`: each element is kept when it differs from the one before it in
the input, `prev`. -/
def dedupFrom (prev : GoString) : List GoString → List GoString
  | [] => []
  | x :: xs => if x ≠ prev then x :: dedupFrom x xs else dedupFrom x xs

/-- **`deduplicate`**: an element equal to the one before it is dropped. An empty slice is
returned as it is, nil or not. -/
def deduplicate : Slice GoString → Slice GoString
  | some (x :: xs) => some (x :: dedupFrom x xs)
  | s => s

/-- What `Parse` does with each extractor's list: `sort.Strings`, then `deduplicate`. Every
extractor starts from `[]string{}`, so the slice is never nil. -/
def finish (names : List GoString) : Slice GoString :=
  deduplicate (sortSlice (some names))

/-- **`JSParser.Parse`**: the comments removed, the four extractors run, each list finished. -/
def parse (source : GoString) : FileStructure :=
  let source := removeComments source
  ⟨finish (extractImports source), finish (extractFunctions source),
    finish (extractClasses source), finish (extractExports source)⟩

/-- **`JSParser.SupportsExtension`**. -/
def supportsExtension (ext : GoString) : Bool :=
  ext == bytes ".js" || ext == bytes ".ts" || ext == bytes ".gs"

end JSParser

/-- **`NewJSParser()`**, as a `Parser`. -/
def newJSParser : Parser := ⟨fun s => .ok (JSParser.parse s), JSParser.supportsExtension⟩

/-- **A parser that never fails.** -/
def Parser.Total (p : Parser) : Prop := ∀ source, ∃ fs, p.parse source = .ok fs

theorem newJSParser_total : newJSParser.Total := fun _ => ⟨_, rfl⟩

namespace JSParser

/-! ## What every list of a parse is -/

/-- **A finished list**: a non-nil slice listing, strictly ascending and so each once, exactly the
names that satisfy `captured`. -/
def SortedDistinct (s : Slice GoString) (captured : GoString → Prop) : Prop :=
  ∃ l, s = some l ∧ l.Sorted (· < ·) ∧ ∀ x, x ∈ l ↔ captured x

theorem mem_dedupFrom {prev y : GoString} {xs : List GoString} :
    y ∈ prev :: dedupFrom prev xs ↔ y ∈ prev :: xs := by
  induction xs generalizing prev with
  | nil => rfl
  | cons x xs ih =>
    by_cases hx : x = prev
    · subst hx
      simp only [dedupFrom, ne_eq, not_true_eq_false, if_false]
      rw [ih, List.mem_cons, List.mem_cons, List.mem_cons]
      tauto
    · simp only [dedupFrom, hx, ne_eq, not_false_eq_true, if_true, List.mem_cons] at ih ⊢
      rw [ih]

/-- **`deduplicate` makes a sorted list strict.** Adjacent equal elements are exactly the
repeated ones of a sorted list, so keeping one of each run leaves a strictly ascending list. -/
theorem sorted_dedupFrom {prev : GoString} {xs : List GoString}
    (h : (prev :: xs).Sorted (· ≤ ·)) : (prev :: dedupFrom prev xs).Sorted (· < ·) := by
  induction xs generalizing prev with
  | nil => exact List.sorted_singleton _
  | cons x xs ih =>
    obtain ⟨hle, hxs⟩ := List.sorted_cons.mp h
    by_cases hx : x = prev
    · subst hx
      simp only [dedupFrom, ne_eq, not_true_eq_false, if_false]
      exact ih (List.sorted_cons.mpr ⟨fun b hb => hle b (List.mem_cons_of_mem _ hb),
        (List.sorted_cons.mp hxs).2⟩)
    · simp only [dedupFrom, hx, ne_eq, not_false_eq_true, if_true]
      have hlt : prev < x := lt_of_le_of_ne (hle x (List.mem_cons_self _ _)) (Ne.symm hx)
      refine List.sorted_cons.mpr ⟨fun b hb => ?_, ih hxs⟩
      rcases List.mem_cons.mp (mem_dedupFrom.mp hb) with rfl | hb
      · exact hlt
      · exact lt_of_lt_of_le hlt ((List.sorted_cons.mp hxs).1 b hb)

/-- **Sort, then deduplicate**: the distinct names, strictly ascending, in a non-nil slice. -/
theorem sortedDistinct_finish {names : List GoString} {captured : GoString → Prop}
    (h : ∀ x, x ∈ names ↔ captured x) : SortedDistinct (finish names) captured := by
  have hmem : ∀ x, x ∈ sortStrings names ↔ captured x := fun x => mem_sortStrings.trans (h x)
  have hsorted := sortStrings_sorted names
  simp only [finish, sortSlice, Option.map_some']
  generalize sortStrings names = l at hmem hsorted
  cases l with
  | nil => exact ⟨[], rfl, List.sorted_nil, hmem⟩
  | cons y ys =>
    exact ⟨y :: dedupFrom y ys, rfl, sorted_dedupFrom hsorted, fun x => mem_dedupFrom.trans (hmem x)⟩

/-- **What `Parse` returns for `source`**: each list holds, once each and strictly ascending,
exactly the names the category's patterns capture in the comment-stripped text. A name is the
group of a match `FindAllStringSubmatch` reports, or, for `export { … }`, a non-empty entry of a
list such a group captured, cut at its commas and trimmed as `extractExports` trims it. -/
def Finished (fs : FileStructure) (source : GoString) : Prop :=
  let text := removeComments source
  SortedDistinct fs.imports (fun x =>
      x ∈ importESMRegex.findAllSubmatch text ∨ x ∈ importCJSRegex.findAllSubmatch text) ∧
    SortedDistinct fs.functions (fun x => x ∈ funcDeclRegex.findAllSubmatch text ∨
      x ∈ funcExprRegex.findAllSubmatch text ∨ x ∈ arrowFuncRegex.findAllSubmatch text) ∧
    SortedDistinct fs.classes (· ∈ classDeclRegex.findAllSubmatch text) ∧
    SortedDistinct fs.exports (fun x =>
      (∃ list ∈ exportNamedRegex.findAllSubmatch text,
          x ∈ (GoString.split list 44).map exportListName ∧ x ≠ []) ∨
        x ∈ exportDeclRegex.findAllSubmatch text ∨ x ∈ exportDefaultRegex.findAllSubmatch text)

theorem finished_parse (source : GoString) : Finished (parse source) source := by
  simp only [Finished, parse]
  refine ⟨sortedDistinct_finish fun _ => List.mem_append, sortedDistinct_finish fun _ => ?_,
    sortedDistinct_finish fun _ => Iff.rfl, sortedDistinct_finish fun _ => ?_⟩
  · simp only [extractFunctions, List.mem_append, or_assoc]
  · simp only [extractExports, List.mem_append, List.mem_flatMap, List.mem_filter, bne_iff_ne,
      ne_eq, or_assoc]

/-- A finished list is its own `sort.Strings`. -/
theorem SortedDistinct.sortSlice_eq {s : Slice GoString} {captured : GoString → Prop}
    (h : SortedDistinct s captured) : sortSlice s = s := by
  obtain ⟨l, rfl, hl, -⟩ := h
  simp only [sortSlice, Option.map_some']
  exact congrArg some (sortStrings_eq_of_sorted (hl.imp le_of_lt))

/-! ## What the names are -/

open Regexp

/-- `name` is what the group of a match of `r` captured, the match lying in `text`. -/
def Captured (r : Regexp) (text name : GoString) : Prop :=
  ∃ w, w <:+: text ∧ r.Matches w none (some name)

theorem mem_finish {names : List GoString} {x : GoString} :
    x ∈ (finish names).getD [] ↔ x ∈ names := by
  obtain ⟨l, hl, -, hmem⟩ : SortedDistinct (finish names) (· ∈ names) :=
    sortedDistinct_finish fun _ => Iff.rfl
  rw [hl, Option.getD_some, hmem]

theorem captured_of_mem {r body : Regexp} {text name : GoString} (h : name ∈ r.findAllSubmatch text)
    (hr : r.mandatoryGroup = some body) : Captured r text name ∧ ∃ c₀ c₁, body.Matches name c₀ c₁ := by
  obtain ⟨w, c, hw, hm, rfl⟩ := Regexp.mem_findAllSubmatch h
  obtain ⟨g, c₀, c₁, rfl, hg⟩ := hm.capture_of_mandatory hr
  exact ⟨⟨w, hw, hm⟩, c₀, c₁, hg⟩

/-- What a pattern whose group is `([^'"]+)` reports is a non-empty text without quotes that it
captured. -/
theorem specifier_of_mem {r : Regexp} {text name : GoString} (h : name ∈ r.findAllSubmatch text)
    (hr : r.mandatoryGroup = some (plus notQuote)) :
    name ≠ [] ∧ 34 ∉ name ∧ 39 ∉ name ∧ Captured r text name :=
  let ⟨hc, _, _, hg⟩ := captured_of_mem h hr
  let ⟨hne, hq⟩ := hg.plus_byte
  ⟨hne, fun h34 => absurd (hq 34 h34) (by decide), fun h39 => absurd (hq 39 h39) (by decide), hc⟩

/-- **What `Parse` reports as imports**: each a non-empty module specifier without quotes, which
the group of `importESMRegex` or of `importCJSRegex` captured between quotes in the
comment-stripped text. -/
theorem parse_imports (source : GoString) :
    ∀ name ∈ (parse source).imports.getD [], name ≠ [] ∧ 34 ∉ name ∧ 39 ∉ name ∧
      (Captured importESMRegex (removeComments source) name ∨
        Captured importCJSRegex (removeComments source) name) := by
  intro name h
  simp only [parse] at h
  rcases List.mem_append.1 (mem_finish.1 h) with h | h
  · obtain ⟨h₁, h₂, h₃, hc⟩ := specifier_of_mem h rfl
    exact ⟨h₁, h₂, h₃, .inl hc⟩
  · obtain ⟨h₁, h₂, h₃, hc⟩ := specifier_of_mem h rfl
    exact ⟨h₁, h₂, h₃, .inr hc⟩

/-- A module importing `./a`. -/
def importSource : GoString := bytes "import x from \"./a\";"

theorem parse_imports_importSource :
    bytes "./a" ∈ (parse importSource).imports.getD [] ∧
      bytes "./a" ≠ [] ∧ 34 ∉ bytes "./a" ∧ 39 ∉ bytes "./a" ∧
        (Captured importESMRegex (removeComments importSource) (bytes "./a") ∨
          Captured importCJSRegex (removeComments importSource) (bytes "./a")) :=
  have h : bytes "./a" ∈ (parse importSource).imports.getD [] := by decide
  ⟨h, parse_imports importSource _ h⟩

/-- The braces a text opens and the braces it closes: the brace depth at its end is the
difference. -/
def braceCounts : GoString → Nat × Nat
  | [] => (0, 0)
  | b :: s =>
    let (opened, closed) := braceCounts s
    if b = 123 then (opened + 1, closed) else if b = 125 then (opened, closed + 1) else (opened, closed)

/-- A function declared in the body of another. -/
def nestedSource : GoString := bytes "function outer() \x7b\n  function inner() \x7b\x7d\n\x7d"

/-- **A nested declaration is reported.** `inner` is declared at brace depth one, in a text with
balanced braces and no literals, and `funcDeclRegex` finds it after the spaces that indent it. -/
theorem parse_nestedSource_functions :
    (parse nestedSource).functions = some [bytes "inner", bytes "outer"] ∧
      GoString.index (bytes "function inner") nestedSource = some 21 ∧
      braceCounts (nestedSource.take 21) = (1, 0) ∧ braceCounts nestedSource = (2, 2) := by
  decide

end JSParser
