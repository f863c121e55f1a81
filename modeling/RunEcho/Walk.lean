import Mathlib.Data.Finset.Card
import RunEcho.Parser

/-!
# The walk

`Generate` and `Update` both visit the tree under the root with `filepath.Walk`, and their
callbacks skip the same entries before they do anything with one: a symbolic link, whatever it
points to; a directory whose base name is in the generator's ignored set, with everything under
it; a file whose extension the parser does not support; and an entry the walk could not stat or
list, after a warning. What is left is the list of files a run reads, in walk order.

A tree is a `Node`, and a directory holds its entries as `readDirNames` lists them, sorted by
name. A regular file carries no content of its own but the answers to the reads a run makes of
it: `content i` is what the `i`-th read returns. A file no other process writes answers the same
at every read; another process writing it between two reads is a file whose answers differ. This
lets one model cover both a quiescent tree and every interleaving of a run's reads with writes.

`Node.FileAt` describes the regular files of a tree without the walk's order or its recursion:
the path of names that leads to each, and the names of the directories passed on the way, the
root's included. `Generator.Eligible` adds the callbacks' two tests, and `mem_walk` says that the
walk reads exactly the eligible files, each once per path.
-/

/-- **A file tree, as `filepath.Walk` finds it.** -/
inductive Node where
  /-- A regular file. `content i` is what its `i`-th read in a run returns, `none` when opening
  or reading it fails. -/
  | file (name : GoString) (content : Nat → Option GoString)
  /-- A symbolic link, to a file or a directory. -/
  | symlink (name : GoString)
  /-- A directory, with its entries in the order `readDirNames` lists them, or `none` when the
  listing cannot be read. -/
  | dir (name : GoString) (entries : Option (List Node))
  /-- An entry that `os.Lstat` cannot stat. -/
  | broken (name : GoString)

namespace Node

/-- The entry's name in its directory; for the root, the base name of the absolute root path. -/
def name : Node → GoString
  | file name _ | symlink name | dir name _ | broken name => name

/-- **The regular files of a tree.** `root.FileAt path dirs name content` holds when the names
`path` lead from `root` to a regular file `name` read as `content`, through directories whose
listing reads; `dirs` are the names of those directories, the root's first. When the root is the
file, `path` and `dirs` are empty. -/
inductive FileAt : Node → List GoString → List GoString → GoString → (Nat → Option GoString) → Prop
  | file (name : GoString) (content : Nat → Option GoString) :
      FileAt (file name content) [] [] name content
  | dir {name : GoString} {entries : List Node} {n : Node} {path dirs : List GoString}
      {fname : GoString} {content : Nat → Option GoString} :
      n ∈ entries → FileAt n path dirs fname content →
        FileAt (dir name (some entries)) (n.name :: path) (name :: dirs) fname content

variable {path dirs : List GoString} {name fname : GoString} {c content : Nat → Option GoString}

@[simp] theorem fileAt_file_iff :
    (file name c).FileAt path dirs fname content ↔
      path = [] ∧ dirs = [] ∧ fname = name ∧ content = c := by
  constructor
  · rintro ⟨⟩
    exact ⟨rfl, rfl, rfl, rfl⟩
  · rintro ⟨rfl, rfl, rfl, rfl⟩
    exact .file _ _

@[simp] theorem fileAt_dir_iff {entries : List Node} :
    (dir name (some entries)).FileAt path dirs fname content ↔
      ∃ n ∈ entries, ∃ path' dirs', path = n.name :: path' ∧ dirs = name :: dirs' ∧
        n.FileAt path' dirs' fname content := by
  constructor
  · rintro ⟨⟩
    next n path' dirs' hn h => exact ⟨n, hn, path', dirs', rfl, rfl, h⟩
  · rintro ⟨n, hn, path', dirs', rfl, rfl, h⟩
    exact .dir hn h

@[simp] theorem not_fileAt_dir_none : ¬(dir name none).FileAt path dirs fname content := by
  rintro ⟨⟩

@[simp] theorem not_fileAt_symlink : ¬(symlink name).FileAt path dirs fname content := by
  rintro ⟨⟩

@[simp] theorem not_fileAt_broken : ¬(broken name).FileAt path dirs fname content := by
  rintro ⟨⟩

/-- **Every file of the tree satisfies `P`**, a condition on the answers to its reads. -/
def AllFiles (P : (Nat → Option GoString) → Prop) (root : Node) : Prop :=
  ∀ path dirs name content, root.FileAt path dirs name content → P content

variable {P : (Nat → Option GoString) → Prop}

@[simp] theorem allFiles_file : (file name c).AllFiles P ↔ P c := by
  refine ⟨fun h => h [] [] name c (.file _ _), fun h _ _ _ _ hf => ?_⟩
  obtain ⟨-, -, -, rfl⟩ := fileAt_file_iff.mp hf
  exact h

@[simp] theorem allFiles_dir {entries : List Node} :
    (dir name (some entries)).AllFiles P ↔ ∀ n ∈ entries, n.AllFiles P := by
  simp only [AllFiles, fileAt_dir_iff]
  constructor
  · intro h n hn path dirs fname content hf
    exact h _ _ fname content ⟨n, hn, path, dirs, rfl, rfl, hf⟩
  · rintro h _ _ fname content ⟨n, hn, path, dirs, rfl, rfl, hf⟩
    exact h n hn path dirs fname content hf

/-- A file every read of which, during a run, returns the same: no other process writes it. -/
def Stable (content : Nat → Option GoString) : Prop := ∀ i, content i = content 0

/-- **A quiescent tree**: no file changes while a run reads it. -/
def Quiescent (root : Node) : Prop := root.AllFiles Stable

end Node

/-! ## The generator and its tests -/

/-- **`ir.Generator`**: the parser and the set of ignored directory names. -/
structure Generator where
  /-- The parser every file is read with. -/
  parser : Parser
  /-- The keys of `ignoredPaths`, a `map[string]bool` whose values are all `true`. -/
  ignoredPaths : Finset GoString

/-- **`ir.GeneratorConfig`**. -/
structure GeneratorConfig where
  /-- Directory names to ignore. -/
  ignoredPaths : List GoString

/-- The names `NewGenerator` ignores when it is given none. -/
def defaultIgnoredPaths : Finset GoString :=
  {bytes "node_modules", bytes "dist", bytes ".git", bytes ".cursor", bytes ".vscode"}

/-- **`NewGenerator`**: the configured names, or the defaults when there are none, and the
JavaScript parser. -/
def newGenerator (config : GeneratorConfig) : Generator :=
  let ignored := config.ignoredPaths.toFinset
  ⟨newJSParser, if ignored.card = 0 then defaultIgnoredPaths else ignored⟩

/-- **`filepath.Ext`**: the suffix of `path` from the last `.` of its last element, or the empty
string when that element holds none. -/
def ext (path : GoString) : GoString :=
  match path.reverse.span fun b => b != 46 && b != 47 with
  | (rest, 46 :: _) => 46 :: rest.reverse
  | _ => []

/-- **`filepath.Ext` finds an extension exactly where the path ends with it**: a `.` followed
by bytes that are neither `.` nor `/`. -/
theorem ext_eq_iff_suffix {path t : GoString} (ht : ∀ b ∈ t, b ≠ 46 ∧ b ≠ 47) :
    ext path = 46 :: t ↔ 46 :: t <:+ path := by
  have hp : ∀ b ∈ t.reverse, (b != 46 && b != 47) = true := fun b hb => by
    obtain ⟨h₁, h₂⟩ := ht b (List.mem_reverse.1 hb)
    simp [h₁, h₂]
  unfold ext
  rw [List.span_eq_take_drop]
  constructor
  · intro h
    split at h
    · next rest q hs =>
      obtain ⟨hrest, hq⟩ := Prod.mk.inj hs
      obtain rfl : rest = t.reverse := by rw [← (List.cons.inj h).2, List.reverse_reverse]
      have e := List.takeWhile_append_dropWhile (fun b => b != 46 && b != 47) path.reverse
      rw [hrest, hq] at e
      refine ⟨q.reverse, ?_⟩
      rw [← List.reverse_reverse path, ← e]
      simp
    · cases h
  · rintro ⟨q, rfl⟩
    rw [List.reverse_append, List.reverse_cons, List.append_assoc, List.singleton_append,
      List.takeWhile_append_of_pos hp, List.dropWhile_append_of_pos hp]
    simp

example : ext (bytes "lib.d.ts") = bytes ".ts" ∧ ext (bytes "x.ts/Makefile") = [] ∧
    ext (bytes ".js") = bytes ".js" := by
  decide

/-- **A name a directory can list**: it holds no `/` and is not `.`. -/
def ValidName (n : GoString) : Prop := 47 ∉ n ∧ n ≠ bytes "."

instance (n : GoString) : Decidable (ValidName n) := inferInstanceAs (Decidable (_ ∧ _))

/-- A file the walk hands to the callback's work: the names that lead to it from the root, and
the answers to its reads. -/
@[ext]
structure SourceFile where
  /-- The names from the root, the file's own last. -/
  path : List GoString
  /-- What the `i`-th read of the file returns. -/
  content : Nat → Option GoString

namespace Generator

variable (g : Generator)

mutual

/-- **`filepath.Walk` with the callbacks' skips**: the files a run reads under the node reached
by `rel`, in walk order. The extension test reads the node's name, which is the last element of
the path the callback is given. A directory's name is tested once its listing has been read: an
unreadable one is skipped with a warning either way. -/
def walk (rel : List GoString) : Node → List SourceFile
  | .file name content => if g.parser.supportsExtension (ext name) then [⟨rel, content⟩] else []
  | .symlink _ => []
  | .dir _ none => []
  | .dir name (some entries) => if name ∈ g.ignoredPaths then [] else walkEntries rel entries
  | .broken _ => []

/-- The walk over a directory's entries, in listing order. -/
def walkEntries (rel : List GoString) : List Node → List SourceFile
  | [] => []
  | n :: ns => walk (rel ++ [n.name]) n ++ walkEntries rel ns

end

/-- **The files a run reads**: a regular file at `path`, whose extension the parser supports,
under no directory whose name is ignored, the root included. -/
def Eligible (root : Node) (path : List GoString) (content : Nat → Option GoString) : Prop :=
  ∃ dirs name, root.FileAt path dirs name content ∧ g.parser.supportsExtension (ext name) ∧
    ∀ d ∈ dirs, d ∉ g.ignoredPaths

variable {g}

mutual

theorem mem_walk_iff (rel : List GoString) :
    ∀ (n : Node) (f : SourceFile),
      f ∈ g.walk rel n ↔ ∃ path, f.path = rel ++ path ∧ g.Eligible n path f.content
  | .file name c, f => by
    by_cases hs : g.parser.supportsExtension (ext name)
    · simp only [walk, hs, if_true, List.mem_singleton, Eligible, Node.fileAt_file_iff]
      constructor
      · rintro rfl
        exact ⟨[], (List.append_nil _).symm, [], name, ⟨rfl, rfl, rfl, rfl⟩, hs, by simp⟩
      · rintro ⟨_, hp, _, _, ⟨rfl, rfl, rfl, hc⟩, -⟩
        exact SourceFile.ext (by simpa using hp) hc
    · simp only [walk, hs, Bool.false_eq_true, if_false, List.not_mem_nil, false_iff]
      rintro ⟨_, -, _, _, hat, hs', -⟩
      obtain ⟨-, -, rfl, -⟩ := Node.fileAt_file_iff.mp hat
      exact hs hs'
  | .symlink _, f => by simp [walk, Eligible]
  | .dir _ none, f => by simp [walk, Eligible]
  | .dir name (some entries), f => by
    by_cases hi : name ∈ g.ignoredPaths
    · simp only [walk, hi, if_true, List.not_mem_nil, false_iff]
      rintro ⟨_, -, _, _, hat, -, hd⟩
      obtain ⟨_, -, _, _, -, rfl, -⟩ := Node.fileAt_dir_iff.mp hat
      exact hd name (List.mem_cons_self _ _) hi
    · simp only [walk, hi, if_false, mem_walkEntries_iff, Eligible, Node.fileAt_dir_iff]
      constructor
      · rintro ⟨n, hn, path, hp, dirs, fname, hf, hs, hd⟩
        exact ⟨n.name :: path, by simp [hp], name :: dirs, fname,
          ⟨n, hn, path, dirs, rfl, rfl, hf⟩, hs, List.forall_mem_cons.mpr ⟨hi, hd⟩⟩
      · rintro ⟨_, hp, _, fname, ⟨n, hn, path, dirs, rfl, rfl, hf⟩, hs, hd⟩
        exact ⟨n, hn, path, by simp [hp], dirs, fname, hf, hs, (List.forall_mem_cons.mp hd).2⟩
  | .broken _, f => by simp [walk, Eligible]

theorem mem_walkEntries_iff (rel : List GoString) :
    ∀ (entries : List Node) (f : SourceFile),
      f ∈ g.walkEntries rel entries ↔
        ∃ n ∈ entries, ∃ path, f.path = rel ++ n.name :: path ∧ g.Eligible n path f.content
  | [], f => by simp [walkEntries]
  | n :: ns, f => by
    simp only [walkEntries, List.mem_append, mem_walk_iff, mem_walkEntries_iff, List.mem_cons,
      exists_eq_or_imp, List.append_assoc, List.singleton_append]

end

/-- **The walk reads exactly the eligible files**, each under the path that leads to it. -/
theorem mem_walk {root : Node} {f : SourceFile} :
    f ∈ g.walk [] root ↔ g.Eligible root f.path f.content := by
  simp [mem_walk_iff]

end Generator

/-- A condition every file of the tree meets holds of every file a run reads. -/
theorem Node.AllFiles.of_mem_walk {P : (Nat → Option GoString) → Prop} {root : Node}
    (h : root.AllFiles P) {g : Generator} {f : SourceFile} (hf : f ∈ g.walk [] root) :
    P f.content := by
  obtain ⟨dirs, name, hat, -⟩ := Generator.mem_walk.mp hf
  exact h _ _ _ _ hat
