import RunEcho.Generator
import RunEcho.Storage

/-!
# Runs of the tool

`Generate`, `Update`, `Save` and `Load` are used in sequence: a first run generates the
representation and saves it, and each later run loads the last one and updates it. This module
follows the representation along such sequences.

**The data-model invariants hold along every run of the generator** (`Produced.wellFormed`):
version 1, the root hash over the files, every hash a SHA-256 in lowercase hex, and every list
non-nil and strictly ascending. `Generate` establishes them on every tree, even one that another
process writes while it is read (`generate_wellFormed`). `Update` keeps them
(`update_wellFormed`): what it does not parse again it takes from the prior, so it needs the
prior's entries to satisfy them, and nothing else. `Load` checks none of them, which is how a
prior the tool did not write can bring malformed lists into an `Update`. What `Update` takes from
the prior is only ever the entry at the path of a file it just hashed, with that hash
(`lookup_update_eq_some`): entries for files that are gone never survive.

**A run on a tree that does not change is a fixed point**: `Update` of its own result changes
nothing (`update_update`), from any prior and with any parser, and neither does `Update` of
`Generate`'s result (`update_generate`). Neither needs SHA-256 to be free of collisions: a second
run finds each entry the first stored at the file's path with the hash the file has, and keeps it.
The proofs go through what a walk leaves at a key, the entry its last store there made
(`lookup_foldl_store_eq`).

**A save and a load between quiescent runs change nothing** (`update_load_save_eq_generate`):
`Update` of what `Load` reads back from `Save` is `Generate`, as long as the names in the entries
are well-formed UTF-8. The paths need not be: `Load` reads a path back coerced, `Update` then
finds no entry at the file's own path, and parses the file again, which gives the same entry.
-/

/-- **A list as `Parse` leaves it**: non-nil, and strictly ascending in byte order. -/
def Ascending (s : Slice GoString) : Prop := ∃ l, s = some l ∧ l.Sorted (· < ·)

/-- **The data-model invariants of an entry.** -/
structure FileIR.WellFormed (f : FileIR) : Prop where
  /-- The hash is a SHA-256 in lowercase hex. -/
  hash : IsHexDigest f.hash
  /-- `Imports` is non-nil and strictly ascending. -/
  imports : Ascending f.imports
  /-- `Functions` is non-nil and strictly ascending. -/
  functions : Ascending f.functions
  /-- `Classes` is non-nil and strictly ascending. -/
  classes : Ascending f.classes
  /-- `Exports` is non-nil and strictly ascending. -/
  exports : Ascending f.exports

/-- **Every entry of a map satisfies the data-model invariants.** -/
def FileMap.WellFormed (m : FileMap) : Prop := ∀ k f, m.lookup k = some f → f.WellFormed

/-- **The data-model invariants of an IR.** -/
structure IR.WellFormed (lib : Lib) (ir : IR) : Prop where
  /-- The schema version is 1. -/
  version : ir.version.val = 1
  /-- The root hash is `ComputeRootHash` of the files. -/
  rootHash : ir.rootHash = computeRootHash lib ir.files
  /-- Every entry is well formed. -/
  files : FileMap.WellFormed ir.files

theorem JSParser.SortedDistinct.ascending_sortSlice {s : Slice GoString} {captured : GoString → Prop}
    (h : JSParser.SortedDistinct s captured) : Ascending (sortSlice s) := by
  rw [h.sortSlice_eq]
  obtain ⟨l, hs, hl, -⟩ := h
  exact ⟨l, hs, hl⟩

/-- An entry built from a finished parse is well formed. -/
theorem fileIROf_wellFormed {hash source : GoString} {fs : FileStructure} (hh : IsHexDigest hash)
    (hf : JSParser.Finished fs source) : (fileIROf hash fs).WellFormed :=
  let ⟨h₁, h₂, h₃, h₄⟩ := hf
  ⟨hh, h₁.ascending_sortSlice, h₂.ascending_sortSlice, h₃.ascending_sortSlice, h₄.ascending_sortSlice⟩

namespace Generator

/-! ## The invariants along runs -/

variable {config : GeneratorConfig} {lib : Lib}

/-- **Every entry `parseFile` returns is well formed**, for the JavaScript parser, whatever the
two reads return. -/
theorem parseFile_wellFormed {content : Nat → Option GoString} {start : Nat} {e : FileIR}
    (h : (newGenerator config).parseFile lib content start = .ok e) : e.WellFormed := by
  obtain ⟨data, hashed, parsed, -, -, hp, rfl⟩ := parseFile_eq_ok.mp h
  obtain rfl : JSParser.parse data = parsed := Except.ok.inj hp
  exact fileIROf_wellFormed (hashBytes_isHexDigest lib hashed) (JSParser.finished_parse data)

/-- **`Generate` establishes the invariants**, on every tree, however its files are written
while it reads them. -/
theorem generate_wellFormed (root : Node) : ((newGenerator config).generate lib root).WellFormed lib where
  version := rfl
  rootHash := rfl
  files k e h := by
    rcases lookup_foldl_store h with h | ⟨f, -, he⟩
    · cases h
    · exact parseFile_wellFormed (generateEntry_eq_some.mp he).1

section UpdateEntry

variable {g : Generator} {existing : FileMap} {f : SourceFile} {k : GoString} {e : FileIR}

/-- **What `Update`'s callback stores, and the tests that chose it**: at the file's key, after a
`HashFile` that succeeded, the prior's entry there when its hash is the current one, or a parse of
the file. -/
theorem updateEntry_eq_some (h : g.updateEntry lib existing f = some (k, e)) :
    k = f.normalizedPath lib ∧ ∃ hash, hashFile lib (f.content 0) = .ok hash ∧
      (existing.lookup k = some e ∧ e.hash = hash ∨ g.parseFile lib f.content 1 = .ok e) := by
  have hre : (match g.parseFile lib f.content 1 with
      | .ok fileIR => some (f.normalizedPath lib, fileIR)
      | .error _ => none) = some (k, e) →
      k = f.normalizedPath lib ∧ g.parseFile lib f.content 1 = .ok e := by
    split <;> simp_all
  dsimp only [updateEntry] at h
  rcases hh : hashFile lib (f.content 0) with _ | hash <;> simp only [hh, reduceCtorEq] at h
  rcases hk : existing.lookup (f.normalizedPath lib) with _ | existingFile <;> simp only [hk] at h
  · obtain ⟨rfl, hp⟩ := hre h
    exact ⟨rfl, hash, rfl, .inr hp⟩
  split at h
  · next he =>
    obtain ⟨rfl, rfl⟩ := Prod.mk.inj (Option.some.inj h)
    exact ⟨rfl, hash, rfl, .inl ⟨hk, he⟩⟩
  · obtain ⟨rfl, hp⟩ := hre h
    exact ⟨rfl, hash, rfl, .inr hp⟩

/-- **`Update`'s callback stores nothing** only when `HashFile` fails, or the parse does. -/
theorem updateEntry_eq_none (h : g.updateEntry lib existing f = none) :
    (∀ hash, hashFile lib (f.content 0) ≠ .ok hash) ∨ ∀ e, g.parseFile lib f.content 1 ≠ .ok e := by
  dsimp only [updateEntry] at h
  rcases hh : hashFile lib (f.content 0) with _ | hash
  · exact .inl fun _ h' => by cases h'
  refine .inr fun e hp => ?_
  rcases hk : existing.lookup (f.normalizedPath lib) with _ | existingFile <;>
    simp only [hh, hk, hp, reduceCtorEq] at h
  split at h <;> cases h

theorem updateEntry_reuse {hash : GoString} (hh : hashFile lib (f.content 0) = .ok hash)
    (hk : existing.lookup (f.normalizedPath lib) = some e) (he : e.hash = hash) :
    g.updateEntry lib existing f = some (f.normalizedPath lib, e) := by
  simp [updateEntry, hh, hk, he]

end UpdateEntry

/-- **Every entry `Update` returns is at the path of an eligible file of the tree, whose
`HashFile` succeeded, and is the prior's entry there carrying the hash just read, or a parse of the
file**: from every prior, for every parser, on every tree however its files are written. So an
entry of the prior for a file that is gone, or ignored, or whose hash has changed, never
survives. -/
theorem lookup_update_eq_some {g : Generator} {existingIR : IR} {root : Node} {k : GoString} {e : FileIR}
    (h : (g.update lib existingIR root).files.lookup k = some e) :
    ∃ path content, g.Eligible root path content ∧ normalizePath lib (relPath path) = k ∧
      ∃ hash, hashFile lib (content 0) = .ok hash ∧
        (existingIR.files.lookup k = some e ∧ e.hash = hash ∨ g.parseFile lib content 1 = .ok e) := by
  rw [update_files] at h
  rcases lookup_foldl_store h with h | ⟨f, hf, he⟩
  · cases h
  obtain ⟨rfl, hash, hh, hcases⟩ := updateEntry_eq_some he
  exact ⟨f.path, f.content, mem_walk.mp hf, rfl, hash, hh, hcases⟩

theorem lookup_update_foreignIR :
    (defaultGenerator.update prefixLib foreignIR laterTree).files.lookup (bytes "a.js") =
        some ⟨hashBytes prefixLib sourceB, none, some [bytes "x"], none, none⟩ ∧
      ∃ path content, defaultGenerator.Eligible laterTree path content ∧
        normalizePath prefixLib (relPath path) = bytes "a.js" ∧
        ∃ hash, hashFile prefixLib (content 0) = .ok hash ∧
          (foreignIR.files.lookup (bytes "a.js") =
              some ⟨hashBytes prefixLib sourceB, none, some [bytes "x"], none, none⟩ ∧
            hashBytes prefixLib sourceB = hash ∨
          defaultGenerator.parseFile prefixLib content 1 =
            .ok ⟨hashBytes prefixLib sourceB, none, some [bytes "x"], none, none⟩) :=
  have h : (defaultGenerator.update prefixLib foreignIR laterTree).files.lookup (bytes "a.js") =
      some ⟨hashBytes prefixLib sourceB, none, some [bytes "x"], none, none⟩ := by decide
  ⟨h, lookup_update_eq_some h⟩

/-- **`Update` keeps the invariants**: from every prior whose entries satisfy them, whatever its
version and root hash, on every tree. -/
theorem update_wellFormed {existingIR : IR} (hprior : FileMap.WellFormed existingIR.files)
    (root : Node) : ((newGenerator config).update lib existingIR root).WellFormed lib where
  version := rfl
  rootHash := rfl
  files k e h := by
    rcases lookup_foldl_store h with h | ⟨f, -, he⟩
    · cases h
    · obtain ⟨-, _, -, ⟨hk, -⟩ | hp⟩ := updateEntry_eq_some he
      exacts [hprior k e hk, parseFile_wellFormed hp]

/-- **The representations the tool leaves**: a `Generate`, or an `Update` of one, on any trees,
read while other processes write them. -/
inductive Produced (config : GeneratorConfig) (lib : Lib) : IR → Prop
  | generate (root : Node) : Produced config lib ((newGenerator config).generate lib root)
  | update {existingIR : IR} (root : Node) : Produced config lib existingIR →
      Produced config lib ((newGenerator config).update lib existingIR root)

/-- **The data-model invariants hold along every run**: version 1, the root hash over the files,
SHA-256 hashes in lowercase hex, and non-nil, strictly ascending lists. -/
theorem Produced.wellFormed {ir : IR} (h : Produced config lib ir) : ir.WellFormed lib := by
  induction h with
  | generate root => exact generate_wellFormed root
  | update root _ ih => exact update_wellFormed ih.files root

theorem produced_racyTree_update :
    Produced ⟨[]⟩ prefixLib ((newGenerator ⟨[]⟩).update prefixLib
        ((newGenerator ⟨[]⟩).generate prefixLib racyTree) laterTree) ∧
      ((newGenerator ⟨[]⟩).update prefixLib ((newGenerator ⟨[]⟩).generate prefixLib racyTree)
        laterTree).WellFormed prefixLib :=
  ⟨.update laterTree (.generate racyTree), Produced.wellFormed (.update laterTree (.generate racyTree))⟩

/-! ## Runs on a tree that does not change -/

/-- The entry a store of `entry` for the file `f` makes at `k`, if it makes one there. -/
def storedAt (entry : SourceFile → Option (GoString × FileIR)) (k : GoString) (f : SourceFile) :
    Option FileIR :=
  match entry f with
  | some (k', e) => if k' = k then some e else none
  | none => none

section Rerun

variable {entry : SourceFile → Option (GoString × FileIR)} {k : GoString} {f : SourceFile} {e : FileIR}

theorem storedAt_eq_some : storedAt entry k f = some e ↔ entry f = some (k, e) := by
  unfold storedAt
  rcases entry f with _ | ⟨k', e'⟩ <;> simp

theorem lookup_store_eq (m : FileMap) : (store entry m f).lookup k = (storedAt entry k f).or (m.lookup k) := by
  unfold store storedAt
  rcases entry f with _ | ⟨k', e'⟩
  · rfl
  · by_cases h : k' = k
    · subst h
      simp
    · simp [h, Finmap.lookup_insert_of_ne _ (Ne.symm h)]

/-- **What a run leaves at a key is what its last store there stored**, or what was there
before. -/
theorem lookup_foldl_store_eq : ∀ (m : FileMap) (l : List SourceFile),
    (l.foldl (store entry) m).lookup k = (l.reverse.findSome? (storedAt entry k)).or (m.lookup k)
  | m, [] => rfl
  | m, f :: l => by
    have hf : [f].findSome? (storedAt entry k) = storedAt entry k f := by
      rw [List.findSome?_cons]
      rcases storedAt entry k f <;> rfl
    rw [List.foldl_cons, lookup_foldl_store_eq _ l, lookup_store_eq, List.reverse_cons,
      List.findSome?_append, Option.or_assoc, hf]

/-- **Two searches of a list find the same thing** when, up to the first find of the first, the
second finds nothing but what the first finds, and finds that where the first does. -/
theorem findSome?_eq_of_hits {α β : Type} {g₁ g₂ : α → Option β} : ∀ {r : List α},
    (∀ x ∈ r, g₁ x = none → ∀ b, g₂ x = some b → r.findSome? g₁ = some b) →
    (∀ x ∈ r, ∀ b, g₁ x = some b → r.findSome? g₁ = some b → g₂ x = some b) →
    r.findSome? g₂ = r.findSome? g₁
  | [], _, _ => rfl
  | x :: r, h₁, h₂ => by
    rcases hx₁ : g₁ x with _ | b
    · have e : (x :: r).findSome? g₁ = r.findSome? g₁ := by rw [List.findSome?_cons, hx₁]
      rcases hx₂ : g₂ x with _ | b
      · rw [List.findSome?_cons, hx₂, e]
        exact findSome?_eq_of_hits
          (fun y hy hy₁ b hb => e.symm.trans (h₁ y (List.mem_cons_of_mem _ hy) hy₁ b hb))
          (fun y hy b hb he => h₂ y (List.mem_cons_of_mem _ hy) b hb (e.trans he))
      · rw [List.findSome?_cons, hx₂]
        exact (h₁ x (List.mem_cons_self _ _) hx₁ b hx₂).symm
    · have e : (x :: r).findSome? g₁ = some b := by rw [List.findSome?_cons, hx₁]
      rw [e, List.findSome?_cons, h₂ x (List.mem_cons_self _ _) b hx₁ e]

variable {g : Generator} {lib : Lib}

/-- **`Update` stores again what a run stored**, over the same files read the same way, when the run
stored each file at its own key with the hash its content has, and stored nothing for a file only
when `HashFile` or the parse fails. -/
theorem foldl_store_updateEntry_of_run {l : List SourceFile}
    (hsome : ∀ f ∈ l, ∀ k e, entry f = some (k, e) →
      k = f.normalizedPath lib ∧ hashFile lib (f.content 0) = .ok e.hash)
    (hnone : ∀ f ∈ l, entry f = none →
      (∀ hash, hashFile lib (f.content 0) ≠ .ok hash) ∨ ∀ e, g.parseFile lib f.content 1 ≠ .ok e) :
    l.foldl (store (g.updateEntry lib (l.foldl (store entry) ∅))) ∅ = l.foldl (store entry) ∅ := by
  set m := l.foldl (store entry) ∅ with hm
  have hlookup : ∀ k, m.lookup k = l.reverse.findSome? (storedAt entry k) := fun k => by
    rw [hm, lookup_foldl_store_eq, Finmap.lookup_empty, Option.or_none]
  refine Finmap.ext_lookup fun k => ?_
  rw [lookup_foldl_store_eq, Finmap.lookup_empty, Option.or_none, hlookup]
  refine findSome?_eq_of_hits (fun f hf h₁ e h₂ => ?_) (fun f hf e h₁ hfind => ?_) <;>
    rw [List.mem_reverse] at hf
  · obtain ⟨rfl, hash, hh, ⟨hk, -⟩ | hp⟩ := updateEntry_eq_some (storedAt_eq_some.mp h₂)
    · rwa [← hlookup]
    · exfalso
      rcases he : entry f with _ | ⟨k', e'⟩
      · rcases hnone f hf he with h | h
        exacts [h hash hh, h e hp]
      · obtain ⟨rfl, -⟩ := hsome f hf k' e' he
        rw [storedAt_eq_some.mpr he] at h₁
        cases h₁
  · obtain ⟨rfl, hh⟩ := hsome f hf k e (storedAt_eq_some.mp h₁)
    exact storedAt_eq_some.mpr (updateEntry_reuse hh (by rwa [hlookup]) rfl)

theorem parseFile_hash {content : Nat → Option GoString} (hs : Node.Stable content) {start : Nat}
    (h : g.parseFile lib content start = .ok e) : hashFile lib (content 0) = .ok e.hash := by
  obtain ⟨data, hashed, parsed, -, hh, -, rfl⟩ := parseFile_eq_ok.mp h
  rw [← hs (start + 1), hh]
  rfl

/-- **`Update` of what `Generate` returned, on the same unchanged tree, is what `Generate`
returned**, for every parser and whether or not SHA-256 collides: every entry is found at its path
with its hash, and kept. -/
theorem update_generate {root : Node} (hq : root.Quiescent) :
    g.update lib (g.generate lib root) root = g.generate lib root := by
  have hfiles : (g.update lib (g.generate lib root) root).files = (g.generate lib root).files := by
    rw [update_files, generate_files]
    refine foldl_store_updateEntry_of_run (fun f hf k e he => ?_) (fun f hf he => .inr fun e hp => ?_)
    · obtain ⟨hp, rfl⟩ := generateEntry_eq_some.mp he
      exact ⟨rfl, parseFile_hash (hq.of_mem_walk hf) hp⟩
    · rw [parseFile_of_stable (hq.of_mem_walk hf), ← parseFile_of_stable (hq.of_mem_walk hf) 0] at hp
      simp [generateEntry, hp] at he
  simp only [update, generate] at hfiles ⊢
  rw [hfiles]

theorem update_generate_laterTree :
    laterTree.Quiescent ∧
      defaultGenerator.update prefixLib (defaultGenerator.generate prefixLib laterTree) laterTree =
        defaultGenerator.generate prefixLib laterTree :=
  have hq : laterTree.Quiescent := by simp [Node.Quiescent, laterTree, Node.Stable]
  ⟨hq, update_generate hq⟩

/-- **`Update` is idempotent on a tree that does not change**, from every prior: a second run
finds every entry the first stored at its path with its hash, and keeps it. -/
theorem update_update {root : Node} (hq : root.Quiescent) (existingIR : IR) :
    g.update lib (g.update lib existingIR root) root = g.update lib existingIR root := by
  have hfiles : (g.update lib (g.update lib existingIR root) root).files =
      (g.update lib existingIR root).files := by
    rw [update_files, update_files]
    refine foldl_store_updateEntry_of_run (fun f hf k e he => ?_) (fun f hf he => updateEntry_eq_none he)
    obtain ⟨rfl, hash, hh, ⟨-, rfl⟩ | hp⟩ := updateEntry_eq_some he
    · exact ⟨rfl, hh⟩
    · exact ⟨rfl, parseFile_hash (hq.of_mem_walk hf) hp⟩
  simp only [update] at hfiles ⊢
  rw [hfiles]

theorem update_update_foreignIR :
    laterTree.Quiescent ∧
      defaultGenerator.update prefixLib (defaultGenerator.update prefixLib foreignIR laterTree) laterTree =
        defaultGenerator.update prefixLib foreignIR laterTree :=
  have hq : laterTree.Quiescent := by simp [Node.Quiescent, laterTree, Node.Stable]
  ⟨hq, update_update hq foreignIR⟩

end Rerun

/-! ## A save and a load between runs -/

variable {g : Generator} {S : Set GoString}

/-- **A consistent map stays consistent through a save and a load**, when the names in its entries
are well formed: each entry comes back as it was, at its path coerced. -/
theorem Consistent.coerce {ir : IR} (hm : g.Consistent lib S ir.files)
    (hnames : ∀ k f, ir.files.lookup k = some f → f.ValidUTF8) : g.Consistent lib S ir.coerce.files := by
  intro x e h
  obtain ⟨k, f, hf, -, rfl⟩ := IR.lookup_coerce h
  rw [FileIR.coerce_of_validUTF8 (hnames k f hf)]
  exact hm k f hf

/-- **`Update` of a saved and loaded representation is `Generate`**, on every quiescent tree, from
every representation a chain of quiescent runs can leave whose entries' names are well-formed
UTF-8, when SHA-256 does not collide on the contents read. The paths may hold any bytes. -/
theorem update_load_save_eq_generate (hS : S.InjOn (hashBytes lib)) {ir : IR} (hprior : Reachable g lib S ir)
    (hnames : ∀ k f, ir.files.lookup k = some f → f.ValidUTF8) (path : GoString) {root : Node}
    (hroot : root.AllFiles (ReadsIn S)) :
    (IR.load lib (.ok (ir.save path).2)).map (g.update lib · root) = .ok (g.generate lib root) := by
  rw [IR.save_snd, IR.load_ok.mpr (IR.unmarshal_marshal_coerce lib ir)]
  exact congrArg Except.ok
    (update_eq_generate_of_consistent hS ((hprior.consistent hS).coerce hnames) hroot)

theorem update_load_save_laterTree :
    ({sourceA, sourceB} : Set GoString).InjOn (hashBytes prefixLib) ∧
      Reachable defaultGenerator prefixLib {sourceA, sourceB}
        (defaultGenerator.generate prefixLib earlierTree) ∧
      (∀ k f, (defaultGenerator.generate prefixLib earlierTree).files.lookup k = some f → f.ValidUTF8) ∧
      laterTree.AllFiles (ReadsIn {sourceA, sourceB}) ∧
      (IR.load prefixLib (.ok ((defaultGenerator.generate prefixLib earlierTree).save []).2)).map
          (defaultGenerator.update prefixLib · laterTree) = .ok (defaultGenerator.generate prefixLib laterTree) :=
  have hS : ({sourceA, sourceB} : Set GoString).InjOn (hashBytes prefixLib) := by
    rintro x (rfl | rfl) y (rfl | rfl) h
    all_goals first | rfl | exact absurd h (by decide)
  have hprior : Reachable defaultGenerator prefixLib {sourceA, sourceB}
      (defaultGenerator.generate prefixLib earlierTree) :=
    .generate rfl (by simp [earlierTree, readsIn_const])
  have hfiles : (defaultGenerator.generate prefixLib earlierTree).files =
      (∅ : FileMap).insert (bytes "a.js") entryA := by decide
  have hnames : ∀ k f, (defaultGenerator.generate prefixLib earlierTree).files.lookup k = some f →
      f.ValidUTF8 := by
    intro k f h
    have hascii : ∀ s ∈ entryA.strings, ∀ b ∈ s, b.toNat < 0x80 := by decide
    rw [hfiles] at h
    by_cases hk : k = bytes "a.js"
    · rw [hk, Finmap.lookup_insert] at h
      cases h
      exact fun s hs => Utf8.valid_of_ascii (hascii s hs)
    · rw [Finmap.lookup_insert_of_ne _ hk] at h
      cases h
  have hroot : laterTree.AllFiles (ReadsIn {sourceA, sourceB}) := by
    simp [laterTree, readsIn_const]
  ⟨hS, hprior, hnames, hroot, update_load_save_eq_generate hS hprior hnames [] hroot⟩

end Generator
