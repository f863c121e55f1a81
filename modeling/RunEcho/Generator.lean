import RunEcho.Hasher
import RunEcho.Walk

/-!
# `Generate` and `Update`

`Generate` parses every file the walk reads and stores the result at the file's normalised path.
`Update` does the same, except that it first hashes each file and, when the prior representation
holds an entry with that hash at that path, stores the prior entry instead of parsing. Both end
with the root hash over what they stored. A run is a fold of one store per file over the walk's
list, `ir.Files[key] = entry` being `Finmap.insert`, so that a later store at a key replaces an
earlier one, as when two names normalise alike.

`parseFile` reads a file twice: once to parse it and once more, inside `HashFile`, to hash it.
`Update` adds a third read before both, its own `HashFile`. In a quiescent tree all the reads of a
file agree, and then:

* an entry `parseFile` builds holds the hash of the very content its lists come from
  (`consistent_generate`);
* for a prior that is itself such a run, and SHA-256 collision-free on the contents read, the
  prior entries `Update` reuses are the ones it would have parsed, so `Update` returns what
  `Generate` does (`update_eq_generate_of_consistent`);
* for any prior at all, `Update` stores the same hashes at the same keys as `Generate`, since a
  reused entry is reused only for its hash (`hashAt_update`).

Between the two reads of `parseFile` another process may write the file; the entry then pairs the
lists of one content with the hash of another, and a later `Update` reuses it for the second
content (`generate_racyTree_reuse`).
-/

/-- **`filepath.Rel(absRoot, path)`** for the path the walk reached by the names `names`: the
names joined with `/`, and `.` for the root itself. -/
def relPath : List GoString → GoString
  | [] => bytes "."
  | names => GoString.join names 47

theorem relPath_of_ne_nil {names : List GoString} (h : names ≠ []) :
    relPath names = GoString.join names 47 := by
  cases names
  · exact absurd rfl h
  · rfl

/-- **Distinct paths of listable names have distinct relative paths**: the names can be read back
at the `/`s, and `.` is not a name. -/
theorem relPath_injective {p₁ p₂ : List GoString} (h₁ : ∀ a ∈ p₁, ValidName a)
    (h₂ : ∀ a ∈ p₂, ValidName a) (h : relPath p₁ = relPath p₂) : p₁ = p₂ := by
  have split_relPath : ∀ {p : List GoString}, (∀ a ∈ p, ValidName a) → p ≠ [] →
      GoString.split (relPath p) 47 = p := fun hp hne => by
    rw [relPath_of_ne_nil hne]
    exact List.splitOn_intercalate _ 47 (fun a ha => (hp a ha).1) hne
  have ne_dot : ∀ {p : List GoString}, (∀ a ∈ p, ValidName a) → p ≠ [] → relPath p ≠ relPath [] :=
    fun {p} hp hne e => by
      have hdot : p = [bytes "."] := by rw [← split_relPath hp hne, e]; decide
      exact (hp _ (hdot ▸ List.mem_singleton_self _)).2 rfl
  rcases eq_or_ne p₁ [] with rfl | hne₁ <;> rcases eq_or_ne p₂ [] with rfl | hne₂
  · rfl
  · exact absurd h.symm (ne_dot h₂ hne₂)
  · exact absurd h (ne_dot h₁ hne₁)
  · rw [← split_relPath h₁ hne₁, h, split_relPath h₂ hne₂]

/-- **`normalizePath`**: `filepath.ToSlash`, which changes nothing where the separator is `/`,
then a leading `./` removed, then NFC. -/
def normalizePath (lib : Lib) (relPath : GoString) : GoString :=
  lib.nfc (GoString.trimPrefix relPath (bytes "./"))

/-- The normalised path of a file the walk reads, the key it is stored at. -/
def SourceFile.normalizedPath (lib : Lib) (f : SourceFile) : GoString :=
  normalizePath lib (relPath f.path)

/-- The `FileIR` that `parseFile` builds from a hash and a parse: the four lists sorted once
more. -/
def fileIROf (hash : GoString) (parsed : FileStructure) : FileIR :=
  ⟨hash, sortSlice parsed.imports, sortSlice parsed.functions, sortSlice parsed.classes,
    sortSlice parsed.exports⟩

/-- One store of a run's callback, `files[key] = fileIR`, when the callback has one. -/
def store (entry : SourceFile → Option (GoString × FileIR)) (files : FileMap) (f : SourceFile) :
    FileMap :=
  match entry f with
  | some (key, fileIR) => files.insert key fileIR
  | none => files

namespace Generator

variable (g : Generator) (lib : Lib)

/-- **`parseFile`**, on a file whose reads are numbered from `start`: read `start` is
`os.ReadFile`, read `start + 1` the one `HashFile` makes. The errors wrap what failed; the text of
an operating-system error is not modelled. -/
def parseFile (content : Nat → Option GoString) (start : Nat) : Except String FileIR :=
  match content start with
  | none => .error "failed to read file"
  | some data =>
    match hashFile lib (content (start + 1)) with
    | .error err => .error ("failed to hash file: " ++ err)
    | .ok hash =>
      match g.parser.parse data with
      | .error err => .error ("failed to parse file: " ++ err)
      | .ok parsed => .ok (fileIROf hash parsed)

/-- What `Generate`'s callback stores for a file the walk reads: its `parseFile` at its
normalised path, or nothing when `parseFile` fails. -/
def generateEntry (f : SourceFile) : Option (GoString × FileIR) :=
  match g.parseFile lib f.content 0 with
  | .ok fileIR => some (f.normalizedPath lib, fileIR)
  | .error _ => none

/-- What `Update`'s callback stores: nothing when `HashFile` fails; the prior entry at the same
path when its hash is the current one; otherwise the file's `parseFile`, whose reads come after
the one `HashFile` made, or nothing when it fails. -/
def updateEntry (existing : FileMap) (f : SourceFile) : Option (GoString × FileIR) :=
  let normalizedPath := f.normalizedPath lib
  let reparse :=
    match g.parseFile lib f.content 1 with
    | .ok fileIR => some (normalizedPath, fileIR)
    | .error _ => none
  match hashFile lib (f.content 0) with
  | .error _ => none
  | .ok currentHash =>
    match existing.lookup normalizedPath with
    | some existingFile =>
      if existingFile.hash = currentHash then some (normalizedPath, existingFile) else reparse
    | none => reparse

/-- **`Generator.Generate`** on the tree under the resolved root. -/
def generate (root : Node) : IR :=
  let files := (g.walk [] root).foldl (store (g.generateEntry lib)) ∅
  ⟨⟨1, by decide⟩, computeRootHash lib files, files⟩

/-- **`Generator.Update`** of `existingIR` on the tree under the resolved root. -/
def update (existingIR : IR) (root : Node) : IR :=
  let files := (g.walk [] root).foldl (store (g.updateEntry lib existingIR.files)) ∅
  ⟨⟨1, by decide⟩, computeRootHash lib files, files⟩

variable {g lib}

@[simp] theorem generate_files {root : Node} :
    (g.generate lib root).files = (g.walk [] root).foldl (store (g.generateEntry lib)) ∅ := rfl

@[simp] theorem generate_rootHash {root : Node} :
    (g.generate lib root).rootHash = computeRootHash lib (g.generate lib root).files := rfl

@[simp] theorem update_files {existingIR : IR} {root : Node} :
    (g.update lib existingIR root).files =
      (g.walk [] root).foldl (store (g.updateEntry lib existingIR.files)) ∅ := rfl

@[simp] theorem update_rootHash {existingIR : IR} {root : Node} :
    (g.update lib existingIR root).rootHash =
      computeRootHash lib (g.update lib existingIR root).files := rfl

/-! ## What `parseFile` returns -/

/-- **The one way `parseFile` succeeds**: both reads answer, and the parser accepts the first. -/
theorem parseFile_eq_ok {content : Nat → Option GoString} {start : Nat} {e : FileIR} :
    g.parseFile lib content start = .ok e ↔
      ∃ data hashed parsed, content start = some data ∧ content (start + 1) = some hashed ∧
        g.parser.parse data = .ok parsed ∧ e = fileIROf (hashBytes lib hashed) parsed := by
  unfold parseFile
  rcases content start with _ | data
  · simp
  rcases hh : content (start + 1) with _ | hashed
  · simp [hashFile]
  rcases hp : g.parser.parse data with err | parsed
  · simp [hashFile, hp]
  · simp [hashFile, hp, eq_comm]

/-- `parseFile` reads nothing of the generator but its parser. -/
theorem parseFile_eq_of_parser_eq {g' : Generator} (h : g'.parser = g.parser) :
    g'.parseFile lib = g.parseFile lib := by
  funext content start
  simp only [parseFile, h]

/-- Where all the reads agree, it does not matter which of them `parseFile` starts at. -/
theorem parseFile_of_stable {content : Nat → Option GoString} (hc : Node.Stable content)
    (start : Nat) : g.parseFile lib content start = g.parseFile lib (fun _ => content 0) 0 := by
  simp only [parseFile, hc start, hc (start + 1)]

theorem generateEntry_eq_some {f : SourceFile} {k : GoString} {e : FileIR} :
    g.generateEntry lib f = some (k, e) ↔ g.parseFile lib f.content 0 = .ok e ∧ f.normalizedPath lib = k := by
  unfold generateEntry
  rcases g.parseFile lib f.content 0 with _ | e'
  · simp
  · simp only [Option.some.injEq, Prod.mk.injEq, Except.ok.injEq]
    exact and_comm

/-- **`parseFile` fails only on a failed read**, for a parser that never fails. -/
theorem parseFile_isOk (hg : g.parser.Total) {content : Nat → Option GoString} {start : Nat}
    (h₀ : content start ≠ none) (h₁ : content (start + 1) ≠ none) :
    ∃ e, g.parseFile lib content start = .ok e := by
  obtain ⟨data, hd⟩ := Option.ne_none_iff_exists'.mp h₀
  obtain ⟨hashed, hh⟩ := Option.ne_none_iff_exists'.mp h₁
  obtain ⟨parsed, hp⟩ := hg data
  exact ⟨_, parseFile_eq_ok.mpr ⟨data, hashed, parsed, hd, hh, hp, rfl⟩⟩

/-! ## Runs as folds of stores -/

section Store

variable {entry entry₁ entry₂ : SourceFile → Option (GoString × FileIR)} {m m₁ m₂ : FileMap}
  {l : List SourceFile} {f : SourceFile} {k : GoString} {e : FileIR}

theorem mem_store : k ∈ store entry m f ↔ k ∈ m ∨ ∃ e, entry f = some (k, e) := by
  unfold store
  split
  · next k' e' h => simp [h, Finmap.mem_insert, eq_comm, or_comm]
  · next h => simp [h]

theorem mem_foldl_store :
    k ∈ l.foldl (store entry) m ↔ k ∈ m ∨ ∃ f ∈ l, ∃ e, entry f = some (k, e) := by
  induction l generalizing m with
  | nil => simp
  | cons f l ih =>
    rw [List.foldl_cons, ih, mem_store]
    simp only [List.mem_cons, or_and_right, exists_or, exists_eq_left, or_assoc]

theorem lookup_store (h : (store entry m f).lookup k = some e) :
    m.lookup k = some e ∨ entry f = some (k, e) := by
  unfold store at h
  split at h
  · next k' e' hf =>
    by_cases hk : k = k'
    · subst hk
      rw [Finmap.lookup_insert, Option.some.injEq] at h
      exact .inr (h ▸ hf)
    · exact .inl (by rwa [Finmap.lookup_insert_of_ne _ hk] at h)
  · exact .inl h

/-- **Every entry of a run comes from one store**, or was there before it. -/
theorem lookup_foldl_store (h : (l.foldl (store entry) m).lookup k = some e) :
    m.lookup k = some e ∨ ∃ f ∈ l, entry f = some (k, e) := by
  induction l generalizing m with
  | nil => exact .inl h
  | cons f l ih =>
    rcases ih h with h | ⟨f', hf', h⟩
    · exact (lookup_store h).imp_right fun h => ⟨f, List.mem_cons_self _ _, h⟩
    · exact .inr ⟨f', List.mem_cons_of_mem _ hf', h⟩

/-- A store's key and the hash of what it stores. -/
def keyHash (p : GoString × FileIR) : GoString × GoString := (p.1, p.2.hash)

/-- **Runs whose stores agree on keys and hashes store the same hashes at the same keys.** -/
theorem hashAt_foldl_store (he : ∀ f ∈ l, (entry₁ f).map keyHash = (entry₂ f).map keyHash)
    (hm : ∀ k, FileMap.hashAt m₁ k = FileMap.hashAt m₂ k) (k : GoString) :
    FileMap.hashAt (l.foldl (store entry₁) m₁) k = FileMap.hashAt (l.foldl (store entry₂) m₂) k := by
  induction l generalizing m₁ m₂ with
  | nil => exact hm k
  | cons f l ih =>
    refine ih (fun f' hf' => he f' (List.mem_cons_of_mem _ hf')) fun k' => ?_
    have hf := he f (List.mem_cons_self _ _)
    unfold store
    rcases h₁ : entry₁ f with _ | ⟨k₁, e₁⟩ <;> rcases h₂ : entry₂ f with _ | ⟨k₂, e₂⟩ <;>
      simp only [h₁, h₂, Option.map_none', Option.map_some', keyHash, reduceCtorEq,
        Option.some.injEq, Prod.mk.injEq] at hf
    · exact hm k'
    · obtain ⟨rfl, hh⟩ := hf
      simp [hh, hm k']

end Store

/-! ## Quiescent runs -/

/-- **A file that reads as one content of `S` throughout a run**, or fails throughout. -/
def ReadsIn (S : Set GoString) (content : Nat → Option GoString) : Prop :=
  Node.Stable content ∧ ∀ data, content 0 = some data → data ∈ S

/-- **Every entry is the parse of a content of `S`**: the `FileIR` that `parseFile` returns on a
file that reads as that content throughout. -/
def Consistent (g : Generator) (lib : Lib) (S : Set GoString) (files : FileMap) : Prop :=
  ∀ k e, files.lookup k = some e → ∃ data ∈ S, g.parseFile lib (fun _ => some data) 0 = .ok e

variable {S : Set GoString}

/-- Consistency depends on the parser alone. -/
theorem Consistent.of_parser_eq {g' : Generator} {files : FileMap} (h : g'.parser = g.parser)
    (hc : g'.Consistent lib S files) : g.Consistent lib S files := by
  rwa [Consistent, ← parseFile_eq_of_parser_eq h]

theorem readsIn_const {data : GoString} (h : data ∈ S) : ReadsIn S fun _ => some data :=
  ⟨fun _ => rfl, fun _ hd => Option.some.inj hd ▸ h⟩

/-- **A quiescent `Generate` stores only parses of what it read.** -/
theorem consistent_generate {root : Node} (hroot : root.AllFiles (ReadsIn S)) :
    g.Consistent lib S (g.generate lib root).files := by
  intro k e h
  rcases lookup_foldl_store h with h | ⟨f, hf, he⟩
  · simp at h
  unfold generateEntry at he
  split at he
  · next e' hparse =>
    obtain ⟨hs, hS⟩ := hroot.of_mem_walk hf
    obtain ⟨data, -, -, h0, -, -, -⟩ := parseFile_eq_ok.mp hparse
    simp only [Option.some.injEq, Prod.mk.injEq] at he
    obtain ⟨-, rfl⟩ := he
    exact ⟨data, hS data h0, by rw [← hparse, parseFile_of_stable hs, h0]⟩
  · simp at he

/-- **Collision-free hashes make a reused entry the one `Update` would parse.** For a file that
reads as one content of `S` throughout, against a prior whose entries are parses of contents of
`S`, `Update`'s callback stores what `Generate`'s does. -/
theorem updateEntry_eq_generateEntry (hS : S.InjOn (hashBytes lib)) {existing : FileMap}
    (hm : g.Consistent lib S existing) {f : SourceFile} (hf : ReadsIn S f.content) :
    g.updateEntry lib existing f = g.generateEntry lib f := by
  obtain ⟨hs, hfS⟩ := hf
  have hparse : ∀ i, g.parseFile lib f.content i = g.parseFile lib (fun _ => f.content 0) 0 :=
    parseFile_of_stable hs
  unfold updateEntry generateEntry
  rw [hparse 1, hparse 0, hs 0]
  rcases h0 : f.content 0 with _ | data
  · simp [hashFile, parseFile]
  simp only [hashFile]
  rcases hk : existing.lookup (f.normalizedPath lib) with _ | existingFile
  · rfl
  dsimp only
  split
  · next hh =>
    obtain ⟨data', hd', hparse'⟩ := hm _ _ hk
    obtain ⟨_, hashed, _, -, ⟨⟩, -, rfl⟩ := parseFile_eq_ok.mp hparse'
    obtain rfl : data' = data := hS hd' (hfS data h0) hh
    rw [hparse']
  · rfl

/-- **From a consistent prior, a quiescent `Update` returns what `Generate` returns.** -/
theorem update_eq_generate_of_consistent (hS : S.InjOn (hashBytes lib)) {existingIR : IR}
    (hm : g.Consistent lib S existingIR.files) {root : Node} (hroot : root.AllFiles (ReadsIn S)) :
    g.update lib existingIR root = g.generate lib root := by
  have hfiles : (g.update lib existingIR root).files = (g.generate lib root).files := by
    simp only [update_files, generate_files]
    exact List.foldl_ext _ _ _ fun m f hf => by
      simp only [store, updateEntry_eq_generateEntry hS hm (hroot.of_mem_walk hf)]
  simp only [update, generate] at hfiles ⊢
  rw [hfiles]

/-- **The representations quiescent runs can leave**: a `Generate`, or an `Update` of one, on
trees whose files read as contents of `S`, each run made by a generator with `g`'s parser and any
ignored set. -/
inductive Reachable (g : Generator) (lib : Lib) (S : Set GoString) : IR → Prop
  | generate {g' : Generator} {root : Node} : g'.parser = g.parser → root.AllFiles (ReadsIn S) →
      Reachable g lib S (g'.generate lib root)
  | update {g' : Generator} {existingIR : IR} {root : Node} : g'.parser = g.parser →
      Reachable g lib S existingIR → root.AllFiles (ReadsIn S) →
      Reachable g lib S (g'.update lib existingIR root)

/-- Every reachable representation is consistent. -/
theorem Reachable.consistent (hS : S.InjOn (hashBytes lib)) {ir : IR}
    (h : Reachable g lib S ir) : g.Consistent lib S ir.files := by
  induction h with
  | generate hp hroot => exact (consistent_generate hroot).of_parser_eq hp
  | update hp _ hroot ih =>
    rw [update_eq_generate_of_consistent hS (ih.of_parser_eq hp.symm) hroot]
    exact (consistent_generate hroot).of_parser_eq hp

/-- **`Update` is `Generate`** on every quiescent tree, from every representation a chain of
quiescent runs can leave, whatever ignored sets those runs were configured with, when SHA-256 does
not collide on the contents read. -/
theorem update_eq_generate (hS : S.InjOn (hashBytes lib)) {existingIR : IR}
    (hprior : Reachable g lib S existingIR) {root : Node} (hroot : root.AllFiles (ReadsIn S)) :
    g.update lib existingIR root = g.generate lib root :=
  update_eq_generate_of_consistent hS (hprior.consistent hS) hroot

/-- `NewGenerator` with no names configured, so with the default ignored set. -/
def defaultGenerator : Generator := newGenerator ⟨[]⟩

/-- A file declaring `a`. -/
def sourceA : GoString := bytes "function a() {}"

/-- A file declaring `b`. -/
def sourceB : GoString := bytes "function b() {}"

/-- A repository with one file, `a.js`, declaring `a`. -/
def earlierTree : Node := .dir (bytes "repo") (some [.file (bytes "a.js") fun _ => some sourceA])

/-- The repository after an edit and an addition: `a.js` now declares `b`, and `b.js` is new. -/
def laterTree : Node :=
  .dir (bytes "repo")
    (some [.file (bytes "a.js") fun _ => some sourceB, .file (bytes "b.js") fun _ => some sourceA])

theorem update_laterTree_eq_generate :
    ({sourceA, sourceB} : Set GoString).InjOn (hashBytes prefixLib) ∧
      Reachable defaultGenerator prefixLib {sourceA, sourceB}
        (defaultGenerator.generate prefixLib earlierTree) ∧
      laterTree.AllFiles (ReadsIn {sourceA, sourceB}) ∧
      defaultGenerator.update prefixLib (defaultGenerator.generate prefixLib earlierTree) laterTree =
        defaultGenerator.generate prefixLib laterTree :=
  have hS : ({sourceA, sourceB} : Set GoString).InjOn (hashBytes prefixLib) := by
    rintro x (rfl | rfl) y (rfl | rfl) h
    all_goals first | rfl | exact absurd h (by decide)
  have hprior : Reachable defaultGenerator prefixLib {sourceA, sourceB}
      (defaultGenerator.generate prefixLib earlierTree) :=
    .generate rfl (by simp [earlierTree, readsIn_const])
  have hroot : laterTree.AllFiles (ReadsIn {sourceA, sourceB}) := by
    simp [laterTree, readsIn_const]
  ⟨hS, hprior, hroot, update_eq_generate hS hprior hroot⟩

/-! ## Any prior -/

/-- For a parser that never fails, `Update`'s callback stores at the same key the same hash as
`Generate`'s, whatever the prior holds. -/
theorem updateEntry_keyHash (hg : g.parser.Total) (existing : FileMap) {f : SourceFile}
    (hs : Node.Stable f.content) :
    (g.updateEntry lib existing f).map keyHash = (g.generateEntry lib f).map keyHash := by
  have hparse : ∀ i, g.parseFile lib f.content i = g.parseFile lib (fun _ => f.content 0) 0 :=
    parseFile_of_stable hs
  unfold updateEntry generateEntry
  rw [hparse 1, hparse 0, hs 0]
  rcases h0 : f.content 0 with _ | data
  · simp [hashFile, parseFile]
  obtain ⟨parsed, hp⟩ := hg data
  have hok : g.parseFile lib (fun _ => some data) 0 = .ok (fileIROf (hashBytes lib data) parsed) :=
    parseFile_eq_ok.mpr ⟨data, data, parsed, rfl, rfl, hp, rfl⟩
  simp only [hashFile, hok]
  rcases existing.lookup (f.normalizedPath lib) with _ | existingFile
  · rfl
  dsimp only
  split
  · next hh => simp [keyHash, hh, fileIROf]
  · rfl

/-- **Whatever the prior, a quiescent `Update` has `Generate`'s files and hashes**, and so its
root hash, for a parser that never fails. -/
theorem hashAt_update (hg : g.parser.Total) {root : Node} (hq : root.Quiescent) (existingIR : IR) :
    (∀ k, FileMap.hashAt (g.update lib existingIR root).files k =
      FileMap.hashAt (g.generate lib root).files k) ∧
    (g.update lib existingIR root).rootHash = (g.generate lib root).rootHash := by
  have h : ∀ k, FileMap.hashAt (g.update lib existingIR root).files k =
      FileMap.hashAt (g.generate lib root).files k :=
    hashAt_foldl_store (fun f hf => updateEntry_keyHash hg existingIR.files (hq.of_mem_walk hf))
      fun _ => rfl
  exact ⟨h, by rw [update_rootHash, generate_rootHash, computeRootHash_congr lib h]⟩

/-- A prior written by hand: at `a.js`, the hash of `sourceB` with a list that is not its parse,
and an entry for a file that is gone. -/
def foreignIR : IR :=
  ⟨⟨7, by decide⟩, [],
    ((∅ : FileMap).insert (bytes "a.js") ⟨hashBytes prefixLib sourceB, none, some [bytes "x"], none, none⟩).insert
      (bytes "gone.js") default⟩

theorem hashAt_update_foreignIR :
    defaultGenerator.parser.Total ∧ laterTree.Quiescent ∧
      (∀ k, FileMap.hashAt (defaultGenerator.update prefixLib foreignIR laterTree).files k =
        FileMap.hashAt (defaultGenerator.generate prefixLib laterTree).files k) ∧
      (defaultGenerator.update prefixLib foreignIR laterTree).rootHash =
        (defaultGenerator.generate prefixLib laterTree).rootHash :=
  have hq : laterTree.Quiescent := by simp [Node.Quiescent, laterTree, Node.Stable]
  ⟨newJSParser_total, hq, hashAt_update newJSParser_total hq foreignIR⟩

/-! ## What `Generate` stores -/

/-- **The JavaScript parser supports a name's extension exactly when the name ends with `.js`,
`.ts` or `.gs`.** -/
theorem supportsExtension_ext_iff (name : GoString) :
    JSParser.supportsExtension (ext name) = true ↔
      bytes ".js" <:+ name ∨ bytes ".ts" <:+ name ∨ bytes ".gs" <:+ name := by
  have hjs : bytes ".js" = 46 :: bytes "js" := rfl
  have hts : bytes ".ts" = 46 :: bytes "ts" := rfl
  have hgs : bytes ".gs" = 46 :: bytes "gs" := rfl
  simp only [JSParser.supportsExtension, Bool.or_eq_true, beq_iff_eq, hjs, hts, hgs]
  rw [ext_eq_iff_suffix (by decide), ext_eq_iff_suffix (by decide), ext_eq_iff_suffix (by decide),
    or_assoc]

/-- **The files `NewGenerator`'s runs read**: those whose names end with `.js`, `.ts` or `.gs`,
under no ignored directory. -/
theorem eligible_newGenerator_iff {config : GeneratorConfig} {root : Node} {path : List GoString}
    {content : Nat → Option GoString} :
    (newGenerator config).Eligible root path content ↔
      ∃ dirs name, root.FileAt path dirs name content ∧
        (bytes ".js" <:+ name ∨ bytes ".ts" <:+ name ∨ bytes ".gs" <:+ name) ∧
        ∀ d ∈ dirs, d ∉ (newGenerator config).ignoredPaths :=
  exists₂_congr fun _ name => and_congr_right fun _ => and_congr_left fun _ => supportsExtension_ext_iff name

/-- **`Generate` stores the parse of every eligible file, at its normalised path.** Without a
failed read, and for a parser that never fails, the keys are exactly the normalised paths of the
eligible files, and each entry is the `parseFile` of one eligible file with that key. For
`NewGenerator` the eligible files are those whose names end with `.js`, `.ts` or `.gs`, under no
ignored directory (`eligible_newGenerator_iff`), and distinct paths of listable names have distinct
relative paths (`relPath_injective`). -/
theorem generate_files_iff (hg : g.parser.Total) {root : Node}
    (hio : root.AllFiles fun content => ∀ i, content i ≠ none) :
    (∀ k, k ∈ (g.generate lib root).files ↔
      ∃ path content, g.Eligible root path content ∧ normalizePath lib (relPath path) = k) ∧
    ∀ k e, (g.generate lib root).files.lookup k = some e →
      ∃ path content, g.Eligible root path content ∧ normalizePath lib (relPath path) = k ∧
        g.parseFile lib content 0 = .ok e := by
  refine ⟨fun k => ?_, fun k e h => ?_⟩
  · simp only [generate_files, mem_foldl_store, Finmap.not_mem_empty, false_or, generateEntry_eq_some]
    constructor
    · rintro ⟨f, hf, e, -, rfl⟩
      exact ⟨f.path, f.content, mem_walk.mp hf, rfl⟩
    · rintro ⟨path, content, he, rfl⟩
      have hf : (⟨path, content⟩ : SourceFile) ∈ g.walk [] root := mem_walk.mpr he
      obtain ⟨e, he⟩ := parseFile_isOk hg (hio.of_mem_walk hf 0) (hio.of_mem_walk hf 1)
      exact ⟨_, hf, e, he, rfl⟩
  · rcases lookup_foldl_store h with h | ⟨f, hf, he⟩
    · simp at h
    obtain ⟨hparse, rfl⟩ := generateEntry_eq_some.mp he
    exact ⟨f.path, f.content, mem_walk.mp hf, rfl, hparse⟩

theorem generate_files_iff_laterTree :
    defaultGenerator.parser.Total ∧ laterTree.AllFiles (fun content => ∀ i, content i ≠ none) ∧
      (∀ k, k ∈ (defaultGenerator.generate prefixLib laterTree).files ↔
        ∃ path content, defaultGenerator.Eligible laterTree path content ∧
          normalizePath prefixLib (relPath path) = k) ∧
      ∀ k e, (defaultGenerator.generate prefixLib laterTree).files.lookup k = some e →
        ∃ path content, defaultGenerator.Eligible laterTree path content ∧
          normalizePath prefixLib (relPath path) = k ∧
          defaultGenerator.parseFile prefixLib content 0 = .ok e :=
  have hio : laterTree.AllFiles (fun content => ∀ i, content i ≠ none) := by simp [laterTree]
  ⟨newJSParser_total, hio, generate_files_iff newJSParser_total hio⟩

/-! ## The lists of an entry -/

/-- **Every list `parseFile` returns is finished**: for the JavaScript parser, what `Parse`
returns for the content read and the lists of the entry built from it are each the distinct
names the category's patterns capture in the comment-stripped text, strictly ascending; the
second sort changes nothing. -/
theorem parseFile_sortedDistinct (lib : Lib) (config : GeneratorConfig)
    {content : Nat → Option GoString} {start : Nat} {source : GoString} {e : FileIR}
    (hread : content start = some source)
    (h : (newGenerator config).parseFile lib content start = .ok e) :
    JSParser.Finished (JSParser.parse source) source ∧
      JSParser.Finished ⟨e.imports, e.functions, e.classes, e.exports⟩ source := by
  obtain ⟨data, hashed, parsed, hd, -, hp, rfl⟩ := parseFile_eq_ok.mp h
  obtain rfl : data = source := Option.some.inj (hd.symm.trans hread)
  obtain rfl : JSParser.parse data = parsed := Except.ok.inj hp
  have hfin := JSParser.finished_parse data
  refine ⟨hfin, ?_⟩
  obtain ⟨h₁, h₂, h₃, h₄⟩ := hfin
  simp only [JSParser.Finished, fileIROf, h₁.sortSlice_eq, h₂.sortSlice_eq, h₃.sortSlice_eq,
    h₄.sortSlice_eq]
  exact ⟨h₁, h₂, h₃, h₄⟩

/-- What `parseFile` returns for `sourceA`: its hash, and `a` among the functions. -/
def entryA : FileIR := ⟨hashBytes prefixLib sourceA, some [], some [bytes "a"], some [], some []⟩

theorem parseFile_sortedDistinct_sourceA :
    (fun _ => some sourceA : Nat → Option GoString) 0 = some sourceA ∧
      (newGenerator ⟨[]⟩).parseFile prefixLib (fun _ => some sourceA) 0 = .ok entryA ∧
      JSParser.Finished (JSParser.parse sourceA) sourceA ∧
      JSParser.Finished ⟨entryA.imports, entryA.functions, entryA.classes, entryA.exports⟩ sourceA :=
  have hparse : (newGenerator ⟨[]⟩).parseFile prefixLib (fun _ => some sourceA) 0 = .ok entryA :=
    parseFile_eq_ok.mpr ⟨sourceA, sourceA, JSParser.parse sourceA, rfl, rfl, rfl, by decide⟩
  ⟨rfl, hparse, parseFile_sortedDistinct prefixLib ⟨[]⟩ rfl hparse⟩

/-! ## A write during a run -/

/-- A repository whose one file another process rewrites from `sourceA` to `sourceB` between the
two reads of `parseFile`. -/
def racyTree : Node :=
  .dir (bytes "repo") (some [.file (bytes "a.js") fun i => if i = 0 then some sourceA else some sourceB])

/-- The entry the racy run stores: the hash of `sourceB`, the functions of `sourceA`. -/
def mixedEntry : FileIR := ⟨hashBytes prefixLib sourceB, some [], some [bytes "a"], some [], some []⟩

/-- **A write between the two reads of `parseFile` is stored, and then kept.** `Generate` stores
at `a.js` the hash of the content `HashFile` read with the lists of the content `os.ReadFile`
read. A later `Update` of the settled tree finds that hash at that path and keeps the entry, so
its `a.js` lists `a` where `Generate` lists `b`. -/
theorem generate_racyTree_reuse :
    (defaultGenerator.generate prefixLib racyTree).files.lookup (bytes "a.js") = some mixedEntry ∧
      hashBytes prefixLib sourceA ≠ mixedEntry.hash ∧
      (defaultGenerator.update prefixLib (defaultGenerator.generate prefixLib racyTree)
        laterTree).files.lookup (bytes "a.js") = some mixedEntry ∧
      (defaultGenerator.generate prefixLib laterTree).files.lookup (bytes "a.js") ≠
        some mixedEntry := by
  decide

end Generator
