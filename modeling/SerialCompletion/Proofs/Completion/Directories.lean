import Mathlib.Data.List.Nodup
import SerialCompletion.Completion.Offer
import SerialCompletion.Completion.Session
import SerialCompletion.Proofs.Text.ByteOrder
import SerialCompletion.Proofs.Text.Pieces

/-!
# Candidates out of directories

The order in which a directory is listed has no meaning.  Devices and paths
are picked out of a listing, put behind a directory and sorted by what they
have become, so only what the directory holds decides.  A slash ends the path
of a directory and stands in no name, and so two entries never have the same
path.
-/

namespace SerialCompletion.Completion

open Files

/-! ## The paths of devices -/

section Devices

variable {directory path : Text} {beginnings names others : List Text}

theorem joinPath_injective (directory : Text) : Function.Injective (joinPath directory) := by
  intro first second same
  unfold joinPath at same
  split at same
  · exact List.append_cancel_left same
  · exact List.append_cancel_left same

theorem mem_devicePaths :
    path ∈ devicePaths directory beginnings names ↔
      ∃ name ∈ names, (∃ beginning ∈ beginnings, beginning <+: name) ∧
        path = joinPath directory name := by
  simp only [devicePaths, Text.sorted, List.mem_mergeSort, List.mem_map, List.mem_filter,
    isDeviceName, List.any_eq_true, List.isPrefixOf_iff_prefix, and_assoc, @eq_comm _ path]

/-- The devices of a directory, which holds no name twice, ascend in the order of their bytes. -/
theorem pairwise_devicePaths (distinct : names.Nodup) :
    (devicePaths directory beginnings names).Pairwise fun first second =>
      Text.bytes first < Text.bytes second :=
  Text.pairwise_bytes_sorted ((distinct.filter _).map (joinPath_injective directory))

theorem nodup_devicePaths (distinct : names.Nodup) :
    (devicePaths directory beginnings names).Nodup :=
  Text.nodup_of_ascending (pairwise_devicePaths distinct)

theorem devicePaths_eq_of_perm (reordered : names.Perm others) :
    devicePaths directory beginnings names = devicePaths directory beginnings others :=
  Text.sorted_eq_of_perm ((reordered.filter _).map _)

end Devices

/-! ## The paths of entries -/

/-- What a directory holds: no name stands in it twice, and no name has a slash. -/
structure IsContents (entries : List Entry) : Prop where
  distinct : (entries.map Entry.name).Nodup
  slashFree : ∀ entry ∈ entries, '/' ∉ entry.name

section Paths

variable {directory name path : Text} {first second : Entry} {entries others : List Entry}

/-- A name completes another one that it begins, which is not hidden unless the name is. -/
theorem completesName_iff {entry : Entry} :
    completesName name entry = true ↔
      name <+: entry.name ∧ (entry.name.head? = some '.' → name.head? = some '.') := by
  simp only [completesName, Bool.and_eq_true, List.isPrefixOf_iff_prefix, Bool.not_eq_true',
    Bool.and_eq_false_iff, beq_eq_false_iff_ne, bne_eq_false_iff_eq]
  rw [imp_iff_not_or]

theorem mem_pathCandidates :
    path ∈ pathCandidates directory name entries ↔
      ∃ entry ∈ entries, completesName name entry = true ∧ path = entryPath directory entry := by
  simp only [pathCandidates, Text.sorted, List.mem_mergeSort, List.mem_map, List.mem_filter,
    and_assoc, @eq_comm _ path]

theorem pathCandidates_eq_of_perm (reordered : entries.Perm others) :
    pathCandidates directory name entries = pathCandidates directory name others :=
  Text.sorted_eq_of_perm ((reordered.filter _).map _)

theorem name_eq_of_entryPath_eq (firstFree : '/' ∉ first.name) (secondFree : '/' ∉ second.name)
    (same : entryPath directory first = entryPath directory second) :
    first.name = second.name := by
  have upToSlash {entry : Entry} (free : '/' ∉ entry.name) :
      (entry.name ++ if entry.isDirectory then ['/'] else []).takeWhile (· != '/') = entry.name := by
    have passed : ∀ c ∈ entry.name, (c != '/') = true := by
      intro c member
      rw [bne_iff_ne]
      rintro rfl
      exact free member
    rw [List.takeWhile_append_of_pos passed]
    split <;> simp
  rw [entryPath, entryPath, List.append_assoc, List.append_assoc] at same
  have behind := List.append_cancel_left same
  rw [← upToSlash firstFree, behind, upToSlash secondFree]

/-- The paths out of a directory ascend in the order of their bytes, slashes included. -/
theorem pairwise_pathCandidates (contents : IsContents entries) :
    (pathCandidates directory name entries).Pairwise fun first second =>
      Text.bytes first < Text.bytes second := by
  apply Text.pairwise_bytes_sorted
  have names : entries.Pairwise fun first second => first.name ≠ second.name :=
    List.pairwise_map.mp contents.distinct
  have picked := names.filter (completesName name)
  rw [List.Nodup, List.pairwise_map]
  refine picked.imp_of_mem ?_
  intro first second firstPicked secondPicked differ same
  have firstFree := contents.slashFree first (List.mem_filter.mp firstPicked).1
  have secondFree := contents.slashFree second (List.mem_filter.mp secondPicked).1
  exact differ (name_eq_of_entryPath_eq firstFree secondFree same)

/-- An entry that completes a name has a path that begins with the typed directory and the name. -/
theorem prefix_entryPath {entry : Entry} (begins : name <+: entry.name) :
    directory ++ name <+: entryPath directory entry := by
  rw [entryPath, List.append_assoc, List.prefix_append_right_inj]
  exact begins.trans (List.prefix_append _ _)

end Paths

/-! ## Listings in any order -/

/-- The candidates for a typed text out of a directory: the texts that match, in the strictly
ascending order of their bytes, each beginning with the typed text. -/
structure Enumerates (typed : Text) (candidates : List Text) (Matches : Text → Prop) : Prop where
  ascending : candidates.Pairwise fun first second => Text.bytes first < Text.bytes second
  distinct : candidates.Nodup
  begins : ∀ candidate ∈ candidates, typed <+: candidate
  mem_iff : ∀ candidate, candidate ∈ candidates ↔ Matches candidate

theorem enumerates_devices {directory : Text} {names : List Text} (distinct : names.Nodup)
    (beginnings : List Text) (typed : Text) :
    Enumerates typed (Text.beginningWith typed (devicePaths directory beginnings names))
      fun path => typed <+: path ∧
        ∃ name ∈ names, (∃ beginning ∈ beginnings, beginning <+: name) ∧
          path = joinPath directory name where
  ascending := (pairwise_devicePaths distinct).filter _
  distinct := (nodup_devicePaths distinct).filter _
  begins _ member := List.isPrefixOf_iff_prefix.mp (List.mem_filter.mp member).2
  mem_iff path := by
    rw [Text.beginningWith, List.mem_filter, List.isPrefixOf_iff_prefix, and_comm, mem_devicePaths]

theorem enumerates_paths {entries : List Entry} (contents : IsContents entries)
    (directory name : Text) :
    Enumerates (directory ++ name) (pathCandidates directory name entries)
      fun path => ∃ entry ∈ entries,
        (name <+: entry.name ∧ (entry.name.head? = some '.' → name.head? = some '.')) ∧
          path = directory ++ entry.name ++ (if entry.isDirectory then ['/'] else []) where
  ascending := pairwise_pathCandidates contents
  distinct := Text.nodup_of_ascending (pairwise_pathCandidates contents)
  begins path member := by
    obtain ⟨entry, _, completes, rfl⟩ := mem_pathCandidates.mp member
    exact prefix_entryPath (completesName_iff.mp completes).1
  mem_iff path := by
    simp only [mem_pathCandidates, completesName_iff, entryPath]

/--
Completion out of directories depends on what they hold and not on the order of
their listings.  The devices for a typed text and the paths for it ascend
strictly in the order of their bytes, begin with the typed text, and are
exactly what matches.  A device is the path of a name that begins like one, by
whichever beginnings.  A path is the directory part of the typed text, up to its
last slash, with an entry of that directory that the rest begins and a slash
behind a directory; hidden entries match only if the rest begins with a dot.
-/
theorem directory_order_irrelevant {list other : Lister}
    (contents : ∀ path, IsContents (list path)) (reordered : ∀ path, (other path).Perm (list path))
    (directory : Text) (beginnings : List Text) (typed : Text) :
    let devices (list : Lister) := (Source.picocom
      (devicePaths directory beginnings ((list directory).map Entry.name))).devices typed
    (devices other = devices list ∧
        Enumerates typed (devices list) fun path => typed <+: path ∧
          ∃ name ∈ (list directory).map Entry.name,
            (∃ beginning ∈ beginnings, beginning <+: name) ∧ path = joinPath directory name) ∧
      completePath other typed = completePath list typed ∧
        ∃ front name, typed = front ++ name ∧ Text.EndsAt '/' front ∧ '/' ∉ name ∧
          Enumerates typed (completePath list typed) fun path =>
            ∃ entry ∈ list (if front.isEmpty then ['.'] else front),
              (name <+: entry.name ∧ (entry.name.head? = some '.' → name.head? = some '.')) ∧
                path = front ++ entry.name ++ (if entry.isDirectory then ['/'] else []) := by
  intro devices
  constructor
  · constructor
    · have same : devicePaths directory beginnings _ = devicePaths directory beginnings _ :=
        devicePaths_eq_of_perm ((reordered directory).map Entry.name)
      exact congrArg (Text.beginningWith typed) same
    · exact enumerates_devices (contents directory).distinct beginnings typed
  · have cut := Text.cutAfterLast_append '/' typed
    have ends := Text.cutAfterLast_fst '/' typed
    have free := Text.not_mem_cutAfterLast_snd '/' typed
    have paths (list : Lister) : completePath list typed =
        pathCandidates (Text.cutAfterLast '/' typed).1 (Text.cutAfterLast '/' typed).2
          (list (if (Text.cutAfterLast '/' typed).1.isEmpty then ['.']
            else (Text.cutAfterLast '/' typed).1)) := rfl
    rw [paths list, paths other]
    generalize (Text.cutAfterLast '/' typed).1 = front at *
    generalize (Text.cutAfterLast '/' typed).2 = name at *
    subst cut
    exact ⟨pathCandidates_eq_of_perm (reordered _), front, name, rfl, ends, free,
      enumerates_paths (contents _) front name⟩

/-- The slash behind a directory puts its path behind that of a longer name, and a device whose
name begins in two ways is listed once. -/
theorem directory_order_irrelevant_slash :
    let entries : List Entry := [⟨"a", true⟩, ⟨"a-b", false⟩, ⟨".a", false⟩]
    let list : Lister := fun _ => entries
    let other : Lister := fun _ => entries.reverse
    let devices (list : Lister) := (Source.picocom
      (devicePaths "dev" ["a", "a-"] ((list "dev").map Entry.name))).devices "dev/a"
    (∀ path, IsContents (list path)) ∧ (∀ path, (other path).Perm (list path)) ∧
      devices other = devices list ∧ devices list = [("dev/a" : Text), "dev/a-b"] ∧
      completePath other "dev/a" = completePath list "dev/a" ∧
      completePath list "dev/a" = [("dev/a-b" : Text), "dev/a/"] := by
  intro entries list other devices
  have contents : ∀ path, IsContents (list path) := fun _ => ⟨by decide +kernel, by decide +kernel⟩
  have reordered : ∀ path, (other path).Perm (list path) := fun _ => entries.reverse_perm
  obtain ⟨⟨sameDevices, _⟩, samePaths, _⟩ :=
    directory_order_irrelevant contents reordered "dev" ["a", "a-"] "dev/a"
  refine ⟨contents, reordered, sameDevices, ?_, samePaths, ?_⟩
  · have found : ((((list "dev").map Entry.name).filter (isDeviceName ["a", "a-"])).map
        (joinPath "dev")) = [("dev/a" : Text), "dev/a-b"] := by
      decide +kernel
    have listed : devicePaths "dev" ["a", "a-"] ((list "dev").map Entry.name) =
        [("dev/a" : Text), "dev/a-b"] := by
      simp only [devicePaths, Text.sorted, found]
      simp [List.mergeSort, List.MergeSort.Internal.splitInTwo, Text.notAfter]
    simp only [devices, Source.picocom, listed]
    decide +kernel
  · have found : (entries.filter (completesName "a")).map (entryPath "dev/") =
        [("dev/a/" : Text), "dev/a-b"] := by
      decide +kernel
    have listed : completePath list "dev/a" = Text.sorted [("dev/a/" : Text), "dev/a-b"] :=
      congrArg Text.sorted found
    rw [listed]
    simp [Text.sorted, List.mergeSort, List.MergeSort.Internal.splitInTwo, Text.notAfter]

end SerialCompletion.Completion
