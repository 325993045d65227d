import SerialCompletion.Proofs.Files.Tree
import SerialCompletion.Proofs.Settings.Documents

/-!
# Loading and saving settings

Loading gives the settings in the file, and says why there are none: a file
that was asked for is missing, cannot be read, or is no settings document.
Only the file in the home directory may be missing, for the standard settings.
Settings that were saved are loaded back, and a save that fails leaves what
could be read as it was.
-/

namespace SerialCompletion.Settings

open Files

/-! ## Loading -/

/-- What loading gives in a tree of files. -/
inductive Loads (tree : Tree) (home : Text) : Option Text → Except Failure Settings → Prop where
  | missing {path : Text} (absent : tree.contains path = false) :
      Loads tree home (some path) (.error (.settings (.fileNotFound path)))
  | standard (absent : tree.contains (standardPath home) = false) :
      Loads tree home none (.ok (Settings.standard home))
  | unreadable {path? : Option Text} {fault : Files.Fault}
      (present : tree.contains (path?.getD (standardPath home)) = true)
      (read : tree.read (path?.getD (standardPath home)) = .error fault) :
      Loads tree home path? (.error (.files fault))
  | malformed {path? : Option Text} {text : Text} {fault : Toml.Fault}
      (read : tree.read (path?.getD (standardPath home)) = .ok text)
      (refused : (Toml.read text >>= ofEntries home) = .error fault) :
      Loads tree home path? (.error (.settings (.invalidFormat fault.message)))
  | document {path? : Option Text} {text : Text} {settings : Settings}
      (read : tree.read (path?.getD (standardPath home)) = .ok text)
      (accepted : (Toml.read text >>= ofEntries home) = .ok settings) :
      Loads tree home path? (.ok settings)

section Loading

variable {tree : Tree} {home : Text} {path? : Option Text} {loaded : Except Failure Settings}

theorem run_load_of_present (present : tree.contains (path?.getD (standardPath home)) = true) :
    (load Tree.access home path?).run tree =
      (ofContent home (tree.read (path?.getD (standardPath home))), tree) := by
  rw [load, StateT.run_bind]
  change StateT.run (if tree.contains _ = true then _ else _) tree = _
  rw [if_pos present]
  rfl

theorem run_load_of_absent (absent : tree.contains (path?.getD (standardPath home)) = false) :
    (load Tree.access home path?).run tree =
      (match path? with
        | some path => .error (.settings (.fileNotFound path))
        | none => .ok (standard home), tree) := by
  rw [load, StateT.run_bind]
  change StateT.run (if tree.contains _ = true then _ else _) tree = _
  rw [absent]
  cases path? <;> rfl

/-- Loading finds one of these, and leaves the files as they are. -/
theorem loads_load (tree : Tree) (home : Text) (path? : Option Text) :
    ∃ loaded, (load Tree.access home path?).run tree = (loaded, tree) ∧
      Loads tree home path? loaded := by
  cases present : tree.contains (path?.getD (standardPath home)) with
  | false =>
      refine ⟨_, run_load_of_absent present, ?_⟩
      cases path? with
      | none => exact .standard present
      | some path => exact .missing present
  | true =>
      refine ⟨_, run_load_of_present present, ?_⟩
      cases read : tree.read (path?.getD (standardPath home)) with
      | error fault => exact .unreadable present read
      | ok text =>
          rw [ofContent, ofDocument]
          cases accepted : Toml.read text >>= ofEntries home with
          | error fault => exact .malformed read accepted
          | ok settings => exact .document read accepted

/-- What loading gives is settled by the files. -/
theorem load_eq_iff :
    (load Tree.access home path?).run tree = (loaded, tree) ↔ Loads tree home path? loaded := by
  constructor
  · intro run
    obtain ⟨found, same, loads⟩ := loads_load tree home path?
    rw [run] at same
    cases same
    exact loads
  · intro loads
    cases loads with
    | @missing path absent => exact @run_load_of_absent tree home (some path) absent
    | standard absent => exact run_load_of_absent absent
    | unreadable present read => rw [run_load_of_present present, read, ofContent]
    | malformed read refused =>
        rw [run_load_of_present (Tree.contains_of_read read), read, ofContent, ofDocument, refused]
        rfl
    | document read accepted =>
        rw [run_load_of_present (Tree.contains_of_read read), read, ofContent, ofDocument, accepted]
        rfl

end Loading

/-! ## Saving -/

section Saving

variable {tree after : Tree} {settings : Settings} {path : Text} {failure : Failure}

theorem run_save_of_blocked {fault : Files.Fault} (blocked : tree.createParents path = .error fault) :
    (save Tree.access settings path).run tree = (.error (.files fault), tree) := by
  have making : (Tree.access.createParents path).run tree = _ := Tree.run_change _ tree
  rw [save, StateT.run_bind, making, blocked]
  rfl

/-- Once the directories above the file are there, a save writes the document to it. -/
theorem run_save_of_made {made : Tree} (parents : tree.createParents path = .ok made) :
    (save Tree.access settings path).run tree =
      match made.write path settings.document with
      | .error fault => (.error (.files fault), made)
      | .ok after => (.ok (), after) := by
  have making : (Tree.access.createParents path).run tree = _ := Tree.run_change _ tree
  have writing : (Tree.access.write path settings.document).run made = _ := Tree.run_change _ made
  rw [save, StateT.run_bind, making, parents]
  change StateT.run (Tree.access.write path settings.document >>= _) made = _
  rw [StateT.run_bind, writing]
  cases made.write path settings.document <;> rfl

/-- Settings that were saved are loaded back from their file. -/
theorem load_save (saved : (save Tree.access settings path).run tree = (.ok (), after)) {home : Text}
    {path? : Option Text} (same : path?.getD (standardPath home) = path) :
    (load Tree.access home path?).run after = (.ok settings, after) := by
  cases parents : tree.createParents path with
  | error fault =>
      rw [run_save_of_blocked parents] at saved
      cases saved
  | ok made =>
      rw [run_save_of_made parents] at saved
      split at saved
      case h_1 => cases saved
      case h_2 last written =>
        obtain rfl : last = after := congrArg Prod.snd saved
        have read := Tree.read_write written
        rw [← same] at read
        refine load_eq_iff.mpr (.document read ?_)
        rw [read_document]
        exact ofEntries_sections home settings

/-- The directories above the file are made on the way. -/
example :
    let saved := (save Tree.access (standard "home") "notes/settings").run (Tree.withWorking "cwd")
    let loaded := (load Tree.access "other" (some "notes/settings")).run saved.2
    loaded.1.toOption = some (standard "home") := by
  decide +kernel

/-- A save that fails has no fault but those of files, and what could be read before is read still. -/
theorem extends_of_failed
    (failed : (save Tree.access settings path).run tree = (.error failure, after)) :
    (∃ fault, failure = .files fault) ∧ Tree.Extends tree after := by
  cases parents : tree.createParents path with
  | error fault =>
      rw [run_save_of_blocked parents] at failed
      cases failed
      exact ⟨⟨fault, rfl⟩, .refl _⟩
  | ok made =>
      rw [run_save_of_made parents] at failed
      split at failed
      case h_1 fault _ =>
        cases failed
        exact ⟨⟨fault, rfl⟩, Tree.extends_createParents parents⟩
      case h_2 => cases failed

end Saving

end SerialCompletion.Settings
