import Mathlib.Data.List.Basic
import SerialCompletion.Files.Tree

/-!
# Reading and writing in a file tree

A file that is put into a tree takes the place of a file or of nothing, so
every directory stays where it is and keeps the names in it.  Whatever leads
through directories leads on to the same place, and a file that was written is
read back with its content.  Making directories touches no file at all.
-/

namespace SerialCompletion.Files

/-! ## Entries of a directory -/

namespace Node

variable {name other : Text} {entries : List (Text × Node)}

theorem lookup_store (name : Text) (node : Node) (entries : List (Text × Node)) :
    lookup name (store name node entries) = some node := by
  induction entries with
  | nil => simp [store, lookup]
  | cons entry rest ih =>
      obtain ⟨found, old⟩ := entry
      by_cases same : found = name
      · simp [store, lookup, same]
      · simp [store, lookup, same, ih]

theorem lookup_store_of_ne (differs : other ≠ name) (node : Node) :
    lookup other (store name node entries) = lookup other entries := by
  induction entries with
  | nil => simp [store, lookup, differs.symm]
  | cons entry rest ih =>
      obtain ⟨found, old⟩ := entry
      by_cases same : found = name
      · subst same
        simp [store, lookup, differs.symm]
      · simp [store, lookup, same, ih]

def KeepsNames (entries kept : List (Text × Node)) : Prop :=
  ∀ name, (lookup name entries).isSome → (lookup name kept).isSome

theorem keepsNames_store (name : Text) (node : Node) (entries : List (Text × Node)) :
    KeepsNames entries (store name node entries) := by
  intro other present
  by_cases same : other = name
  · rw [same, lookup_store]
    rfl
  · rwa [lookup_store_of_ne same]

/-! ## Replacing the node at a place -/

theorem descend?_append (root : Node) (first rest : List Text) :
    root.descend? (first ++ rest) = (root.descend? first).bind fun node => node.descend? rest := by
  induction first generalizing root with
  | nil =>
      rw [List.nil_append, descend?]
      rfl
  | cons name first ih =>
      cases root with
      | file content => rfl
      | directory entries =>
          rw [List.cons_append, descend?, descend?]
          cases lookup name entries with
          | none => rfl
          | some child => exact ih child

theorem descend?_concat {root : Node} {place : List Text}
    (found : root.descend? place = some (.directory entries)) (name : Text) :
    root.descend? (place ++ [name]) = lookup name entries := by
  rw [descend?_append, found, Option.bind_some, descend?]
  cases lookup name entries <;> rfl

/-- Nothing but the entry with the first name of the place is replaced in a directory. -/
theorem exists_replaceAt_cons (entries : List (Text × Node)) (name : Text) (rest : List Text)
    (new : Node) :
    ∃ kept, (Node.directory entries).replaceAt (name :: rest) new = .directory kept ∧
      KeepsNames entries kept ∧ (∀ other, other ≠ name → lookup other kept = lookup other entries) ∧
      ∀ child, lookup name entries = some child →
        lookup name kept = some (child.replaceAt rest new) := by
  cases known : lookup name entries with
  | some child =>
      refine ⟨store name (child.replaceAt rest new) entries, by simp only [replaceAt, known],
        keepsNames_store _ _ _, fun _ differs => lookup_store_of_ne differs _, ?_⟩
      intro found same
      rw [Option.some.inj same, lookup_store]
  | none =>
      cases rest with
      | nil =>
          refine ⟨store name new entries, by simp only [replaceAt, known],
            keepsNames_store _ _ _, fun _ differs => lookup_store_of_ne differs _, ?_⟩
          intro found same
          cases same
      | cons next rest =>
          refine ⟨entries, by simp only [replaceAt, known], fun _ => id, fun _ _ => rfl, ?_⟩
          intro found same
          cases same

/-- A node on the way to the place is replaced further down. -/
theorem descend?_replaceAt_append {root node : Node} {place : List Text}
    (found : root.descend? place = some node) (rest : List Text) (new : Node) :
    (root.replaceAt (place ++ rest) new).descend? place = some (node.replaceAt rest new) := by
  induction place generalizing root with
  | nil =>
      cases Option.some.inj found
      rw [List.nil_append, descend?]
  | cons name more ih =>
      cases root with
      | file content => cases found
      | directory entries =>
          obtain ⟨kept, whole, -, -, replaced⟩ :=
            exists_replaceAt_cons entries name (more ++ rest) new
          rw [descend?] at found
          cases known : lookup name entries with
          | none => simp [known] at found
          | some child =>
              rw [known] at found
              rw [List.cons_append, whole, descend?, replaced child known]
              exact ih found

/-- A node that lies neither on the way to the place nor behind it is not touched. -/
theorem descend?_replaceAt_apart {root node new : Node} {place target : List Text}
    (found : root.descend? place = some node) (before : ¬ place <+: target)
    (behind : ¬ target <+: place) : (root.replaceAt target new).descend? place = some node := by
  induction place generalizing root target with
  | nil => exact absurd List.nil_prefix before
  | cons name more ih =>
      cases target with
      | nil => exact absurd List.nil_prefix behind
      | cons first rest =>
          cases root with
          | file content => cases found
          | directory entries =>
              obtain ⟨kept, whole, -, others, replaced⟩ :=
                exists_replaceAt_cons entries first rest new
              rw [descend?] at found
              rw [whole, descend?]
              by_cases same : name = first
              · subst same
                rw [List.cons_prefix_cons] at before behind
                cases known : lookup name entries with
                | none => simp [known] at found
                | some child =>
                    rw [known] at found
                    rw [replaced child known]
                    exact ih found (fun begins => before ⟨rfl, begins⟩)
                      fun begins => behind ⟨rfl, begins⟩
              · rwa [others name same]

/-- A directory stays where it is, with its names, when no directory is replaced. -/
theorem descend?_replaceAt_directory {root : Node} {place target : List Text} (new : Node)
    (found : root.descend? place = some (.directory entries))
    (free : ∀ entries, root.descend? target ≠ some (.directory entries)) :
    ∃ kept, (root.replaceAt target new).descend? place = some (.directory kept) ∧
      KeepsNames entries kept := by
  by_cases before : place <+: target
  · obtain ⟨rest, rfl⟩ := before
    rw [descend?_replaceAt_append found]
    cases rest with
    | nil => exact absurd (by rwa [List.append_nil]) (free entries)
    | cons name rest =>
        obtain ⟨kept, whole, names, -⟩ := exists_replaceAt_cons entries name rest new
        exact ⟨kept, congrArg some whole, names⟩
  · by_cases behind : target <+: place
    · obtain ⟨rest, rfl⟩ := behind
      rw [descend?_append] at found
      obtain ⟨node, there, below⟩ := Option.bind_eq_some_iff.mp found
      cases node with
      | directory outer => exact absurd there (free outer)
      | file content => cases rest <;> cases below
    · exact ⟨entries, descend?_replaceAt_apart found before behind, fun _ => id⟩

/-- A file stays as it is when nothing is replaced. -/
theorem descend?_replaceAt_file {root : Node} {place target : List Text} {content : Text}
    (new : Node) (found : root.descend? place = some (.file content))
    (free : root.descend? target = none) :
    (root.replaceAt target new).descend? place = some (.file content) := by
  by_cases before : place <+: target
  · obtain ⟨rest, rfl⟩ := before
    rw [descend?_replaceAt_append found]
    cases rest with
    | nil =>
        rw [List.append_nil, found] at free
        cases free
    | cons name rest => rw [replaceAt]
  · refine descend?_replaceAt_apart found before ?_
    rintro ⟨rest, rfl⟩
    rw [descend?_append, free] at found
    cases found

theorem descend?_replaceAt {root : Node} {place : List Text}
    (found : root.descend? place = some (.directory entries)) (name : Text) (new : Node) :
    (root.replaceAt (place ++ [name]) new).descend? (place ++ [name]) = some new := by
  have there := descend?_replaceAt_append found [name] new
  cases known : lookup name entries with
  | none =>
      simp only [replaceAt, known] at there
      rw [descend?_concat there, lookup_store]
  | some child =>
      simp only [replaceAt, known] at there
      rw [descend?_concat there, lookup_store]

end Node

/-! ## Following a path -/

namespace Tree

variable {tree after : Tree}

/-- Whether the directories of a tree are directories of another one, with all their names. -/
structure KeepsDirectories (tree after : Tree) : Prop where
  working : after.working = tree.working
  directory : ∀ place entries, tree.root.descend? place = some (.directory entries) →
    ∃ kept, after.root.descend? place = some (.directory kept) ∧ Node.KeepsNames entries kept

theorem step_name {place : List Text} {name : Text} {entries : List (Text × Node)} {node : Node}
    (there : tree.root.descend? place = some (.directory entries))
    (found : tree.root.descend? (place ++ [name]) = some node) :
    tree.step place (.name name) = .ok (place ++ [name]) := by
  rw [Node.descend?_concat there] at found
  simp only [step, there, found]

namespace KeepsDirectories

theorem refl (tree : Tree) : KeepsDirectories tree tree :=
  ⟨rfl, fun _ entries found => ⟨entries, found, fun _ => id⟩⟩

theorem trans {between : Tree} (first : KeepsDirectories tree between)
    (second : KeepsDirectories between after) : KeepsDirectories tree after where
  working := second.working.trans first.working
  directory := by
    intro place entries found
    obtain ⟨kept, there, names⟩ := first.directory place entries found
    obtain ⟨last, here, more⟩ := second.directory place kept there
    exact ⟨last, here, fun name present => more name (names name present)⟩

theorem put {target : List Text} (node : Node)
    (free : ∀ entries, tree.root.descend? target ≠ some (.directory entries)) :
    KeepsDirectories tree (tree.put target node) :=
  ⟨rfl, fun _ _ found => Node.descend?_replaceAt_directory node found free⟩

theorem step (keeps : KeepsDirectories tree after) {place next : List Text} {part : Part}
    (stepped : tree.step place part = .ok next) : after.step place part = .ok next := by
  unfold Tree.step at stepped
  split at stepped
  case h_1 entries found =>
    obtain ⟨kept, there, names⟩ := keeps.directory place entries found
    rw [Tree.step, there]
    cases part with
    | above => exact stepped
    | name name =>
        cases known : Node.lookup name entries with
        | none => simp [known] at stepped
        | some child =>
            obtain ⟨node, kept⟩ := Option.isSome_iff_exists.mp (names name (by rw [known]; rfl))
            simp only [known] at stepped
            simp only [kept]
            exact stepped
  case h_2 => cases stepped
  case h_3 => cases stepped

theorem follow (keeps : KeepsDirectories tree after) {parts : List Part} {place last : List Text}
    (followed : parts.foldlM tree.step place = .ok last) :
    parts.foldlM after.step place = .ok last := by
  induction parts generalizing place with
  | nil => exact followed
  | cons part parts ih =>
      rw [List.foldlM_cons] at followed ⊢
      cases stepped : tree.step place part with
      | error fault =>
          rw [stepped] at followed
          cases followed
      | ok next =>
          rw [stepped] at followed
          rw [keeps.step stepped]
          exact ih followed

end KeepsDirectories

/-! ## Reading -/

theorem bind_eq_ok_iff {α β : Type} {first : Except Fault α} {next : α → Except Fault β} {last : β} :
    first >>= next = .ok last ↔ ∃ found, first = .ok found ∧ next found = .ok last := by
  cases first <;> simp [bind, Except.bind]

theorem locate_eq_ok_iff {path : Path} {place : List Text} {node : Node} :
    tree.locate path = .ok (place, node) ↔
      path.parts.foldlM tree.step (tree.origin path) = .ok place ∧
        tree.root.descend? place = some node ∧ (path.ending = .name ∨ node.isDirectory = true) := by
  unfold locate
  rw [bind_eq_ok_iff]
  constructor
  · rintro ⟨reached, followed, located⟩
    split at located
    case h_1 => cases located
    case h_2 found known =>
      by_cases refused : (path.ending ≠ .name && !found.isDirectory) = true
      · rw [if_pos refused] at located
        cases located
      · rw [if_neg refused] at located
        cases located
        refine ⟨followed, known, ?_⟩
        by_cases named : path.ending = .name
        · exact .inl named
        · simpa [named] using refused
  · rintro ⟨followed, known, fits⟩
    refine ⟨place, followed, ?_⟩
    have taken : ¬ (path.ending ≠ .name && !node.isDirectory) = true := by
      rcases fits with named | directory
      · simp [named]
      · simp [directory]
    simp only [known, if_neg taken]
    rfl

/-- A path is read if its parts lead to a file and it ends in a name. -/
theorem read_eq_ok_iff {text content : Text} :
    tree.read text = .ok content ↔ ∃ path place, Path.ofText text = .ok path ∧
      tree.locate path = .ok (place, .file content) := by
  unfold Tree.read
  rw [bind_eq_ok_iff]
  constructor
  · rintro ⟨⟨place, node⟩, located, read⟩
    obtain ⟨path, named, located⟩ := bind_eq_ok_iff.mp located
    cases node with
    | directory entries => cases read
    | file found =>
        cases read
        exact ⟨path, place, named, located⟩
  · rintro ⟨path, place, named, located⟩
    exact ⟨(place, .file content), bind_eq_ok_iff.mpr ⟨path, named, located⟩, rfl⟩

theorem contains_of_read {text content : Text} (read : tree.read text = .ok content) :
    tree.contains text = true := by
  obtain ⟨path, place, named, located⟩ := read_eq_ok_iff.mp read
  rw [contains, named]
  change (tree.locate path).isOk = true
  rw [located]
  rfl

/-! ## Writing -/

theorem eq_of_lastName? {path : Path} {name : Text} (last : path.lastName? = some name) :
    path.ending ≠ .dots ∧ path.parts.getLast? = some (.name name) := by
  unfold Path.lastName? at last
  split at last
  case h_1 ending found | h_2 ending found =>
    cases last
    exact ⟨by rw [ending]; exact Ending.noConfusion, found⟩
  case h_3 => cases last

/-- A path that opens ends in the name of a file, or of nothing, behind the path of a directory. -/
theorem exists_of_openFile {path : Path} {place : List Text} {old : Text}
    (opened : tree.openFile path = .ok (place, old)) :
    ∃ directory name entries, place = directory ++ [name] ∧ path.ending = .name ∧
      path.parts = path.parts.dropLast ++ [.name name] ∧
      path.parts.dropLast.foldlM tree.step (tree.origin path) = .ok directory ∧
      tree.root.descend? directory = some (.directory entries) ∧
      ∀ inner, Node.lookup name entries ≠ some (.directory inner) := by
  unfold openFile at opened
  split at opened
  case h_1 =>
    obtain ⟨_, _, refused⟩ := bind_eq_ok_iff.mp opened
    cases refused
  case h_2 name last =>
    obtain ⟨noDots, tail⟩ := eq_of_lastName? last
    obtain ⟨⟨directory, node⟩, located, opened⟩ := bind_eq_ok_iff.mp opened
    obtain ⟨followed, known, -⟩ := locate_eq_ok_iff.mp located
    cases node with
    | file content => cases opened
    | directory entries =>
        by_cases slash : path.ending = .slash
        · simp [slash, throw, throwThe, MonadExceptOf.throw, bind, Except.bind] at opened
        · have named : path.ending = .name := by
            cases ending : path.ending <;> simp_all
          have whole : path.parts = path.parts.dropLast ++ [.name name] :=
            (List.dropLast_append_getLast? _ tail).symm
          simp only [if_neg slash] at opened
          split at opened
          case h_1 present | h_2 content present =>
            cases opened
            exact ⟨directory, name, entries, rfl, named, whole, followed, known, by simp [present]⟩
          case h_3 => cases opened

/-- A file that was written is read back with its content. -/
theorem read_write {text content : Text} (written : tree.write text content = .ok after) :
    after.read text = .ok content := by
  obtain ⟨⟨place, old⟩, opened, stored⟩ := bind_eq_ok_iff.mp written
  obtain ⟨path, named, opened⟩ := bind_eq_ok_iff.mp opened
  cases stored
  obtain ⟨directory, name, entries, rfl, ending, parts, followed, known, free⟩ :=
    exists_of_openFile opened
  have keeps : KeepsDirectories tree (tree.put (directory ++ [name]) (.file content)) := by
    refine .put _ fun inner there => free inner ?_
    rwa [Node.descend?_concat known] at there
  have found := Node.descend?_replaceAt known name (.file content)
  have reached : path.parts.foldlM (tree.put (directory ++ [name]) (.file content)).step
      (tree.origin path) = .ok (directory ++ [name]) := by
    rw [parts, List.foldlM_append, keeps.follow followed]
    obtain ⟨kept, there, -⟩ := keeps.directory _ _ known
    exact congrArg (· >>= pure) (step_name there found)
  exact read_eq_ok_iff.mpr
    ⟨path, directory ++ [name], named, locate_eq_ok_iff.mpr ⟨reached, found, .inl ending⟩⟩

/-! ## Making directories -/

/-- Whether the directories and the files of a tree are those of another one, which may have more. -/
structure Extends (tree after : Tree) : Prop extends KeepsDirectories tree after where
  file : ∀ place content, tree.root.descend? place = some (.file content) →
    after.root.descend? place = some (.file content)

theorem Extends.refl (tree : Tree) : Extends tree tree :=
  ⟨.refl tree, fun _ _ => id⟩

theorem Extends.read (extended : Extends tree after) {text content : Text}
    (found : tree.read text = .ok content) : after.read text = .ok content := by
  obtain ⟨path, place, named, located⟩ := read_eq_ok_iff.mp found
  obtain ⟨followed, file, fits⟩ := locate_eq_ok_iff.mp located
  refine read_eq_ok_iff.mpr ⟨path, place, named, locate_eq_ok_iff.mpr ⟨?_, ?_, fits⟩⟩
  · rw [origin, extended.working]
    exact extended.follow followed
  · exact extended.file place content file

theorem extends_makeDirectories {place : List Text} {parts : List Part}
    (made : tree.makeDirectories place parts = .ok after) : Extends tree after := by
  induction parts generalizing tree place with
  | nil =>
      cases made
      exact .refl _
  | cons part rest ih =>
      cases part with
      | above => exact ih made
      | name name =>
          simp only [makeDirectories] at made
          split at made
          case h_1 => exact ih made
          case h_2 => cases made
          case h_3 => cases made
          case h_4 absent =>
            have further := ih made
            refine ⟨.trans (.put _ fun entries => by simp [absent]) further.toKeepsDirectories, ?_⟩
            intro file content found
            exact further.file file content (Node.descend?_replaceAt_file _ found absent)

theorem extends_createParents {path : Text} (made : tree.createParents path = .ok after) :
    Extends tree after := by
  unfold createParents at made
  split at made
  case h_1 => exact extends_makeDirectories made
  case h_2 =>
    cases made
    exact .refl _
  case h_3 => cases made

/-! ## Operations that may fail -/

/-- An operation that fails leaves the tree as it was. -/
theorem run_change (operation : Tree → Except Fault Tree) (tree : Tree) :
    (change operation).run tree =
      match operation tree with
      | .ok after => (.ok (), after)
      | .error fault => (.error fault, tree) := by
  change StateT.run (match operation tree with
    | .ok after => (do set after; return .ok () : StateM Tree (Except Fault Unit))
    | .error fault => return .error fault) tree = _
  cases operation tree <;> rfl

end Tree

end SerialCompletion.Files
