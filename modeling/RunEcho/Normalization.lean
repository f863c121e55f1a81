import RunEcho.Generator

/-!
# Canonically equivalent names

A file system may store a name composed (NFC) or decomposed (NFD), and `normalizePath` passes
every relative path through NFC so that both spellings give one key. Here two names are
canonically equivalent when the normalizer gives them the same NFC form, and `Renamed lib t t'`
says that `t'` is `t` with any names replaced by equivalent ones; each directory of `t'` is listed
in its own order, since `readDirNames` sorts by the new names.

The key is not the only thing the walk reads from a name. The callbacks test the raw name of a
directory against the ignored set and the raw name of a file for its extension, before any
normalisation. A configured ignored name stored in one spelling then misses the directory that
carries the other (`generate_cafeTree_ne`). When the generator's two tests answer alike for
equivalent names, and NFC works on each side of a `/` apart, renaming changes nothing:
`generate_eq_of_renamed`.

The proof follows the walk. The two trees' walks list corresponding files, which answer alike
and get the same key, in orders that differ by a permutation (`walk_renamed`). No directory
lists two equivalent names, so no two files of a tree share a key (`normalizedPath_injOn`), so
the order in which their stores are made does not matter.
-/

namespace Node

variable (lib : Lib)

mutual

/-- **A tree whose listings a directory could give**, up to equivalence: every listed name is
valid, and no directory lists two canonically equivalent names. -/
def Proper : Node → Prop
  | dir _ (some entries) => (entries.map fun n => lib.nfc n.name).Nodup ∧ ProperEntries entries
  | _ => True

/-- Every entry of a listing has a valid name and is proper. -/
def ProperEntries : List Node → Prop
  | [] => True
  | n :: ns => ValidName n.name ∧ Proper n ∧ ProperEntries ns

end

variable {lib}

theorem properEntries_iff {entries : List Node} :
    ProperEntries lib entries ↔ ∀ n ∈ entries, ValidName n.name ∧ n.Proper lib := by
  induction entries with
  | nil => simp [ProperEntries]
  | cons n ns ih => simp [ProperEntries, ih, and_assoc]

/-- **The paths of a proper tree are made of valid names.** -/
theorem FileAt.validName {t : Node} {path dirs : List GoString} {name : GoString}
    {content : Nat → Option GoString} (h : t.FileAt path dirs name content) (ht : t.Proper lib) :
    ∀ a ∈ path, ValidName a := by
  induction h with
  | file => simp
  | dir hn _ ih =>
    obtain ⟨hv, hp⟩ := properEntries_iff.mp ht.2 _ hn
    exact List.forall_mem_cons.mpr ⟨hv, ih hp⟩

/-- **In a proper tree, equivalent paths are one path**, to one file. -/
theorem FileAt.unique {t : Node} {path₁ path₂ dirs₁ dirs₂ : List GoString} {name₁ name₂ : GoString}
    {c₁ c₂ : Nat → Option GoString} (h₁ : t.FileAt path₁ dirs₁ name₁ c₁)
    (h₂ : t.FileAt path₂ dirs₂ name₂ c₂) (ht : t.Proper lib)
    (hp : path₁.map lib.nfc = path₂.map lib.nfc) : path₁ = path₂ ∧ c₁ = c₂ := by
  induction h₁ generalizing path₂ dirs₂ with
  | file => cases h₂; exact ⟨rfl, rfl⟩
  | dir hn _ ih =>
    cases h₂ with
    | dir hn' h₂ =>
      simp only [List.map_cons, List.cons.injEq] at hp
      obtain rfl := List.inj_on_of_nodup_map ht.1 hn hn' hp.1
      obtain ⟨rfl, rfl⟩ := ih h₂ (properEntries_iff.mp ht.2 _ hn).2 hp.2
      exact ⟨rfl, rfl⟩

/-- One tree's files are all at the root, or all below it. -/
theorem FileAt.nil_iff {t : Node} {p₁ p₂ d₁ d₂ : List GoString} {n₁ n₂ : GoString}
    {c₁ c₂ : Nat → Option GoString} (h₁ : t.FileAt p₁ d₁ n₁ c₁) (h₂ : t.FileAt p₂ d₂ n₂ c₂) :
    p₁ = [] ↔ p₂ = [] := by
  cases h₁ <;> cases h₂ <;> simp

end Node

/-- **What the core needs of NFC.** It works on each side of a `/` apart, and makes no `/`. Both
hold of `norm.NFC`: `/` is a starter that composes with nothing, and no decomposition holds
it. -/
structure NfcLaws (lib : Lib) : Prop where
  /-- NFC on each side of a `/`. -/
  nfc_slash : ∀ a b, lib.nfc (a ++ 47 :: b) = lib.nfc a ++ 47 :: lib.nfc b
  /-- NFC makes no `/`. -/
  slash_not_mem_nfc : ∀ a, 47 ∉ a → 47 ∉ lib.nfc a

/-- **A generator whose tests see through spelling**: canonically equivalent names are both
ignored or neither, and have supported extensions or not alike. -/
def Generator.RespectsNfc (g : Generator) (lib : Lib) : Prop :=
  ∀ a b, lib.nfc a = lib.nfc b →
    (a ∈ g.ignoredPaths ↔ b ∈ g.ignoredPaths) ∧
      g.parser.supportsExtension (ext a) = g.parser.supportsExtension (ext b)

mutual

/-- **`t'` is `t` with names replaced by canonically equivalent ones**, each directory listed in
an order of its own. -/
inductive Renamed (lib : Lib) : Node → Node → Prop
  | file {name name' : GoString} {content : Nat → Option GoString} :
      lib.nfc name = lib.nfc name' → Renamed lib (.file name content) (.file name' content)
  | symlink {name name' : GoString} :
      lib.nfc name = lib.nfc name' → Renamed lib (.symlink name) (.symlink name')
  | unlisted {name name' : GoString} :
      lib.nfc name = lib.nfc name' → Renamed lib (.dir name none) (.dir name' none)
  | dir {name name' : GoString} {entries renamed entries' : List Node} :
      lib.nfc name = lib.nfc name' → RenamedEntries lib entries renamed → renamed.Perm entries' →
        Renamed lib (.dir name (some entries)) (.dir name' (some entries'))
  | broken {name name' : GoString} :
      lib.nfc name = lib.nfc name' → Renamed lib (.broken name) (.broken name')

/-- Two listings renamed entry by entry. -/
inductive RenamedEntries (lib : Lib) : List Node → List Node → Prop
  | nil : RenamedEntries lib [] []
  | cons {n n' : Node} {ns ns' : List Node} :
      Renamed lib n n' → RenamedEntries lib ns ns' → RenamedEntries lib (n :: ns) (n' :: ns')

end

theorem Renamed.nfc_name {lib : Lib} {n n' : Node} (h : Renamed lib n n') :
    lib.nfc n.name = lib.nfc n'.name := by
  cases h <;> assumption

/-! ## Keys of equivalent paths -/

section Keys

variable {lib : Lib}

theorem nfc_join (hl : NfcLaws lib) (a : GoString) (l : List GoString) :
    lib.nfc (GoString.join (a :: l) 47) = GoString.join ((a :: l).map lib.nfc) 47 := by
  induction l generalizing a with
  | nil => simp [GoString.join, List.intercalate]
  | cons b l ih =>
    rw [GoString.join_cons_cons, hl.nfc_slash, ih]
    simp only [List.map_cons, GoString.join_cons_cons]

/-- A path of valid names does not start with `./`, so `normalizePath` leaves it whole before
NFC. -/
theorem trimPrefix_join {a : GoString} (ha : ValidName a) (l : List GoString) :
    GoString.trimPrefix (GoString.join (a :: l) 47) (bytes "./") = GoString.join (a :: l) 47 := by
  have hpre : (bytes "./").isPrefixOf (GoString.join (a :: l) 47) = false := by
    obtain ⟨tail, heq, htail⟩ : ∃ tail, GoString.join (a :: l) 47 = a ++ tail ∧
        ∀ x ∈ tail.head?, x = 47 := by
      cases l with
      | nil => exact ⟨[], by simp [GoString.join, List.intercalate], by simp⟩
      | cons b l => exact ⟨_, GoString.join_cons_cons a b l 47, by simp⟩
    rw [heq, show bytes "./" = [46, 47] from rfl]
    rcases a with _ | ⟨x, _ | ⟨y, r⟩⟩
    · rcases tail with _ | ⟨z, tail⟩
      · rfl
      · obtain rfl := htail z rfl
        rfl
    · have hx : x ≠ 46 := fun h => ha.2 (by rw [h]; rfl)
      simp [List.isPrefixOf, Ne.symm hx]
    · have hy : y ≠ 47 := fun h => ha.1 (by simp [h])
      simp [List.isPrefixOf, Ne.symm hy]
  simp [GoString.trimPrefix, hpre]

/-- The key of a path of valid names: NFC name by name. -/
theorem normalizePath_relPath (hl : NfcLaws lib) {path : List GoString}
    (hv : ∀ a ∈ path, ValidName a) :
    normalizePath lib (relPath path) =
      if path = [] then lib.nfc (bytes ".") else GoString.join (path.map lib.nfc) 47 := by
  cases path with
  | nil => rfl
  | cons a l =>
    simp only [normalizePath, relPath, reduceCtorEq, if_false,
      trimPrefix_join (hv a (List.mem_cons_self _ _)), nfc_join hl]

/-- **Two paths of valid names, equivalent name by name.** -/
def Twin (lib : Lib) (path path' : List GoString) : Prop :=
  List.Forall₂ (fun a b => lib.nfc a = lib.nfc b) path path' ∧ (∀ a ∈ path, ValidName a) ∧
    ∀ b ∈ path', ValidName b

theorem Twin.map_nfc {path path' : List GoString} (h : Twin lib path path') :
    path.map lib.nfc = path'.map lib.nfc := by
  obtain ⟨h, -, -⟩ := h
  induction h with
  | nil => rfl
  | cons hab _ ih => simp only [List.map_cons, hab, ih]

/-- **Equivalent paths get one key.** -/
theorem Twin.normalizePath_eq (hl : NfcLaws lib) {path path' : List GoString}
    (h : Twin lib path path') :
    normalizePath lib (relPath path) = normalizePath lib (relPath path') := by
  have hnil : path = [] ↔ path' = [] := by
    rw [← List.length_eq_zero, ← List.length_eq_zero, h.1.length_eq]
  rw [normalizePath_relPath hl h.2.1, normalizePath_relPath hl h.2.2, h.map_nfc]
  simp only [hnil]

theorem Twin.snoc {path path' : List GoString} (h : Twin lib path path') {a b : GoString}
    (hab : lib.nfc a = lib.nfc b) (ha : ValidName a) (hb : ValidName b) :
    Twin lib (path ++ [a]) (path' ++ [b]) := by
  exact ⟨List.rel_append h.1 (List.Forall₂.cons hab .nil),
    List.forall_mem_append.mpr ⟨h.2.1, List.forall_mem_singleton.mpr ha⟩,
    List.forall_mem_append.mpr ⟨h.2.2, List.forall_mem_singleton.mpr hb⟩⟩

/-- **Inequivalent nonempty paths get different keys**: the names can be read back from the
key, at its `/`s. -/
theorem map_nfc_eq_of_normalizePath_eq (hl : NfcLaws lib) {p₁ p₂ : List GoString}
    (hv₁ : ∀ a ∈ p₁, ValidName a) (hv₂ : ∀ a ∈ p₂, ValidName a) (hne₁ : p₁ ≠ []) (hne₂ : p₂ ≠ [])
    (h : normalizePath lib (relPath p₁) = normalizePath lib (relPath p₂)) :
    p₁.map lib.nfc = p₂.map lib.nfc := by
  rw [normalizePath_relPath hl hv₁, normalizePath_relPath hl hv₂, if_neg hne₁, if_neg hne₂] at h
  have hfree : ∀ {p : List GoString}, (∀ a ∈ p, ValidName a) → ∀ l ∈ p.map lib.nfc, 47 ∉ l := by
    intro p hv l hl'
    obtain ⟨a, ha, rfl⟩ := List.mem_map.mp hl'
    exact hl.slash_not_mem_nfc a (hv a ha).1
  unfold GoString.join at h
  rw [← List.splitOn_intercalate _ 47 (hfree hv₁) (by simpa using hne₁), h,
    List.splitOn_intercalate _ 47 (hfree hv₂) (by simpa using hne₂)]

end Keys

/-! ## The walks of renamed trees -/

namespace Generator

variable {g : Generator} {lib : Lib}

/-- **Files a run treats alike**: they answer every read alike and are stored at one key. -/
def Matches (lib : Lib) (f f' : SourceFile) : Prop :=
  f.content = f'.content ∧ f.normalizedPath lib = f'.normalizedPath lib

theorem walkEntries_eq_flatMap (rel : List GoString) (entries : List Node) :
    g.walkEntries rel entries = entries.flatMap fun n => g.walk (rel ++ [n.name]) n := by
  induction entries with
  | nil => rfl
  | cons n ns ih => rw [walkEntries, ih, List.flatMap_cons]

mutual

/-- **Renamed trees are walked alike**: the files of one walk match those of the other, in an
order that differs by a permutation. -/
theorem walk_renamed (hl : NfcLaws lib) (hg : g.RespectsNfc lib) :
    ∀ (t t' : Node) (rel rel' : List GoString), Renamed lib t t' → t.Proper lib →
      t'.Proper lib → Twin lib rel rel' →
      ∃ l, List.Forall₂ (Matches lib) (g.walk rel t) l ∧ l.Perm (g.walk rel' t')
  | .file name c, .file name' _, rel, rel', .file hname, _, _, hrel => by
    simp only [walk, (hg name name' hname).2]
    split
    · exact ⟨[⟨rel', c⟩], .cons ⟨rfl, hrel.normalizePath_eq hl⟩ .nil, List.Perm.refl _⟩
    · exact ⟨[], .nil, List.Perm.refl _⟩
  | .symlink _, .symlink _, _, _, .symlink _, _, _, _ => ⟨[], .nil, List.Perm.refl _⟩
  | .dir _ none, .dir _ none, _, _, .unlisted _, _, _, _ => ⟨[], .nil, List.Perm.refl _⟩
  | .dir name (some entries), .dir name' (some entries'), rel, rel', h, hp, hp', hrel => by
    cases h with
    | dir hname hrs hperm =>
      simp only [walk, (hg name name' hname).1]
      split
      · exact ⟨[], .nil, List.Perm.refl _⟩
      · have hp'' := Node.properEntries_iff.mpr fun n hn =>
          Node.properEntries_iff.mp hp'.2 n (hperm.subset hn)
        obtain ⟨l, hl₁, hl₂⟩ := walkEntries_renamed hl hg _ _ rel rel' hrs hp.2 hp'' hrel
        refine ⟨l, hl₁, hl₂.trans ?_⟩
        rw [walkEntries_eq_flatMap, walkEntries_eq_flatMap]
        exact hperm.flatMap_right _
  | .broken _, .broken _, _, _, .broken _, _, _, _ => ⟨[], .nil, List.Perm.refl _⟩

/-- The walks of two listings renamed entry by entry. -/
theorem walkEntries_renamed (hl : NfcLaws lib) (hg : g.RespectsNfc lib) :
    ∀ (entries entries' : List Node) (rel rel' : List GoString),
      RenamedEntries lib entries entries' → Node.ProperEntries lib entries →
      Node.ProperEntries lib entries' → Twin lib rel rel' →
      ∃ l, List.Forall₂ (Matches lib) (g.walkEntries rel entries) l ∧
        l.Perm (g.walkEntries rel' entries')
  | [], [], _, _, .nil, _, _, _ => ⟨[], .nil, List.Perm.refl _⟩
  | n :: ns, n' :: ns', rel, rel', .cons hn hns, ⟨hv, hp, hps⟩, ⟨hv', hp', hps'⟩, hrel => by
    obtain ⟨l₁, h₁, p₁⟩ :=
      walk_renamed hl hg n n' _ _ hn hp hp' (hrel.snoc hn.nfc_name hv hv')
    obtain ⟨l₂, h₂, p₂⟩ := walkEntries_renamed hl hg ns ns' rel rel' hns hps hps' hrel
    exact ⟨l₁ ++ l₂, List.rel_append h₁ h₂, p₁.append p₂⟩

end

/-! ## Stores in another order -/

section Fold

variable {entry : SourceFile → Option (GoString × FileIR)}

theorem foldl_store_forall₂ {l l' : List SourceFile}
    (h : List.Forall₂ (fun f f' => entry f = entry f') l l') (m : FileMap) :
    l.foldl (store entry) m = l'.foldl (store entry) m := by
  induction h generalizing m with
  | nil => rfl
  | cons hf _ ih =>
    rw [List.foldl_cons, List.foldl_cons, store, store, hf]
    exact ih _

/-- Stores at different keys commute. -/
theorem store_comm {f₁ f₂ : SourceFile}
    (h : ∀ k₁ e₁ k₂ e₂, entry f₁ = some (k₁, e₁) → entry f₂ = some (k₂, e₂) → k₁ ≠ k₂)
    (m : FileMap) : store entry (store entry m f₁) f₂ = store entry (store entry m f₂) f₁ := by
  unfold store
  rcases h₁ : entry f₁ with _ | ⟨k₁, e₁⟩ <;> rcases h₂ : entry f₂ with _ | ⟨k₂, e₂⟩
  · rfl
  · rfl
  · rfl
  · exact Finmap.insert_insert_of_ne _ (h _ _ _ _ h₁ h₂)

end Fold

theorem generateEntry_congr {f f' : SourceFile} (h : Matches lib f f') :
    g.generateEntry lib f = g.generateEntry lib f' := by
  unfold generateEntry
  rw [h.1, h.2]

/-- **No two files of a proper tree share a key.** -/
theorem normalizedPath_injOn (hl : NfcLaws lib) {t : Node} (ht : t.Proper lib)
    {f₁ f₂ : SourceFile} (h₁ : f₁ ∈ g.walk [] t) (h₂ : f₂ ∈ g.walk [] t)
    (h : f₁.normalizedPath lib = f₂.normalizedPath lib) : f₁ = f₂ := by
  obtain ⟨_, _, hat₁, -⟩ := mem_walk.mp h₁
  obtain ⟨_, _, hat₂, -⟩ := mem_walk.mp h₂
  have hmap : f₁.path.map lib.nfc = f₂.path.map lib.nfc := by
    by_cases hnil : f₁.path = []
    · rw [hnil, (hat₁.nil_iff hat₂).mp hnil]
    · exact map_nfc_eq_of_normalizePath_eq hl (hat₁.validName ht) (hat₂.validName ht) hnil
        (fun h => hnil ((hat₁.nil_iff hat₂).mpr h)) h
  obtain ⟨hp, hc⟩ := hat₁.unique hat₂ ht hmap
  exact SourceFile.ext hp hc

/-- **Renaming with equivalent names changes nothing `Generate` returns**, when NFC obeys its
laws and the generator's tests answer alike for equivalent names. -/
theorem generate_eq_of_renamed (hl : NfcLaws lib) (hg : g.RespectsNfc lib) {t t' : Node}
    (hp : t.Proper lib) (hp' : t'.Proper lib) (hr : Renamed lib t t') :
    g.generate lib t = g.generate lib t' := by
  obtain ⟨l, hmatch, hperm⟩ := walk_renamed hl hg t t' [] [] hr hp hp' ⟨.nil, by simp, by simp⟩
  have hfiles : (g.generate lib t).files = (g.generate lib t').files := by
    rw [generate_files, generate_files,
      foldl_store_forall₂ (hmatch.imp fun _ _ h => generateEntry_congr h)]
    refine hperm.foldl_eq' (fun f₁ h₁ f₂ h₂ m => ?_) ∅
    by_cases hf : f₁ = f₂
    · rw [hf]
    refine store_comm (fun k₁ e₁ k₂ e₂ he₁ he₂ hk => hf ?_) m
    obtain ⟨-, rfl⟩ := generateEntry_eq_some.mp he₁
    obtain ⟨-, rfl⟩ := generateEntry_eq_some.mp he₂
    exact normalizedPath_injOn hl hp' (hperm.subset h₁) (hperm.subset h₂) hk
  simp only [generate] at hfiles ⊢
  rw [hfiles]

/-- `laterTree` with its directory listed in the other order. -/
def laterTreeSwapped : Node :=
  .dir (bytes "repo")
    (some [.file (bytes "b.js") fun _ => some sourceA, .file (bytes "a.js") fun _ => some sourceB])

theorem generate_laterTree_eq_swapped :
    NfcLaws prefixLib ∧ defaultGenerator.RespectsNfc prefixLib ∧ laterTree.Proper prefixLib ∧
      laterTreeSwapped.Proper prefixLib ∧ Renamed prefixLib laterTree laterTreeSwapped ∧
      defaultGenerator.generate prefixLib laterTree =
        defaultGenerator.generate prefixLib laterTreeSwapped :=
  have hl : NfcLaws prefixLib := ⟨fun _ _ => rfl, fun _ h => h⟩
  have hg : defaultGenerator.RespectsNfc prefixLib := fun a _ (h : a = _) => h ▸ ⟨Iff.rfl, rfl⟩
  have hp : laterTree.Proper prefixLib :=
    ⟨by decide, by decide, trivial, by decide, trivial, trivial⟩
  have hp' : laterTreeSwapped.Proper prefixLib :=
    ⟨by decide, by decide, trivial, by decide, trivial, trivial⟩
  have hr : Renamed prefixLib laterTree laterTreeSwapped :=
    .dir rfl (.cons (.file rfl) (.cons (.file rfl) .nil)) (List.Perm.swap _ _ _)
  ⟨hl, hg, hp, hp', hr, generate_eq_of_renamed hl hg hp hp' hr⟩

end Generator

/-! ## An ignored name in the other spelling -/

/-- NFC on the names at hand: each `e` followed by U+0301 composed into `é`. -/
def composeAcute : GoString → GoString
  | [] => []
  | b :: s =>
    let rest := composeAcute s
    if b = 0x65 ∧ rest.take 2 = [0xCC, 0x81] then 0xC3 :: 0xA9 :: rest.drop 2 else b :: rest

/-- `prefixLib` with `composeAcute` for NFC. -/
def composeLib : Lib := ⟨prefixLib.sha256, composeAcute, prefixLib.caseFold⟩

/-- `café`, composed. -/
def cafeNFC : GoString := bytes "caf\u00e9"

/-- `café`, decomposed. -/
def cafeNFD : GoString := bytes "cafe\u0301"

/-- A generator configured to ignore `café`, composed. -/
def cafeGenerator : Generator := newGenerator ⟨[cafeNFC]⟩

/-- A repository whose one directory, named `name`, holds `a.js`. -/
def cafeTree (name : GoString) : Node :=
  .dir (bytes "repo") (some [.dir name (some [.file (bytes "a.js") fun _ => some Generator.sourceA])])

/-- **The ignored set reads raw names.** With `café` configured composed, the directory is skipped
when its name is stored composed, and walked when it is stored decomposed, where its file gets the
composed key `café/a.js`. The two spellings of one tree give two representations, where
`normalizePath` means NFD and NFC names to produce identical output. -/
theorem generate_cafeTree_ne :
    Renamed composeLib (cafeTree cafeNFC) (cafeTree cafeNFD) ∧
      (cafeTree cafeNFC).Proper composeLib ∧ (cafeTree cafeNFD).Proper composeLib ∧
      (cafeGenerator.generate composeLib (cafeTree cafeNFC)).files = ∅ ∧
      (cafeGenerator.generate composeLib (cafeTree cafeNFD)).files.lookup (cafeNFC ++ bytes "/a.js") =
        some Generator.entryA ∧
      cafeGenerator.generate composeLib (cafeTree cafeNFC) ≠
        cafeGenerator.generate composeLib (cafeTree cafeNFD) :=
  ⟨.dir rfl (.cons (.dir (by decide) (.cons (.file rfl) .nil) (List.Perm.refl _)) .nil)
      (List.Perm.refl _),
    ⟨by decide, by decide, ⟨by decide, by decide, trivial, trivial⟩, trivial⟩,
    ⟨by decide, by decide, ⟨by decide, by decide, trivial, trivial⟩, trivial⟩,
    by decide, by decide, by decide⟩
