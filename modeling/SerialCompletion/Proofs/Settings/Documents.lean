import SerialCompletion.Proofs.Toml.Documents
import SerialCompletion.Settings.Storage

/-!
# Settings survive their document

The document of any settings is read as four tables, and each field finds its
written value there under its own key.  A log file that is not set is left
out, and then its standard value, which is that there is none, takes its place.
-/

namespace SerialCompletion

open Toml

/-! ## The tables of a document -/

def Line.Classes.entries (classes : Line.Classes) : Entries :=
  [("delimiters", .text classes.delimiters), ("separators", .text classes.separators)]

def CompletionSettings.entries (settings : CompletionSettings) : Entries :=
  [("program", .text settings.program), ("device_dir", .text settings.deviceDirectory),
    ("device_prefixes", .array (settings.deviceBeginnings.map .text))]

def HistorySettings.entries (settings : HistorySettings) : Entries :=
  [("max_size", .integer (.ofNat settings.maxSize.toNat)), ("file_path", .text settings.filePath),
    ("persist", .boolean settings.persist)]

def LoggingSettings.entries (settings : LoggingSettings) : Entries :=
  match settings.filePath with
  | none => [("level", .text settings.level.name), ("timestamps", .boolean settings.timestamps)]
  | some path =>
      [("level", .text settings.level.name), ("file_path", .text path),
        ("timestamps", .boolean settings.timestamps)]

/-- The tables that the document of some settings is read as. -/
def Settings.sections (settings : Settings) : List Section :=
  [("lexer", settings.lexer.entries), ("completion", settings.completion.entries),
    ("history", settings.history.entries), ("logging", settings.logging.entries)]

/-! ## The document is read as its tables -/

section Reading

variable {key : Text}

theorem writesPair_string (bare : isBareKey key = true) (content : Text) :
    WritesPair (writePair key (writeString content)) (key, .text content) :=
  .intro bare (writes_string content)

theorem writesPair_boolean (bare : isBareKey key = true) (flag : Bool) :
    WritesPair (writePair key (writeBoolean flag)) (key, .boolean flag) :=
  .intro bare (writes_boolean flag)

theorem writesPair_size (bare : isBareKey key = true) (size : UInt64) :
    WritesPair (writePair key (Text.ofNat size.toNat)) (key, .integer (.ofNat size.toNat)) := by
  refine .intro bare (writes_ofNat ?_)
  calc size.toNat < Nat.pow 2 64 := size.toNat_lt
    _ < Nat.pow 2 128 := by decide

end Reading

namespace Settings

/-- Every table of a document has its entries on lines of their own. -/
theorem writesTable_tables (settings : Settings) :
    List.Forall₂ WritesTable settings.tables settings.sections := by
  refine .cons (.intro (by decide) ?_) (.cons (.intro (by decide) ?_)
    (.cons (.intro (by decide) ?_) (.cons (.intro (by decide) ?_) .nil)))
  case refine_1 =>
    exact .cons (writesPair_string (by decide) _) (.cons (writesPair_string (by decide) _) .nil)
  case refine_2 =>
    exact .cons (writesPair_string (by decide) _) (.cons (writesPair_string (by decide) _)
      (.cons (.intro (by decide) (writes_texts _)) .nil))
  case refine_3 =>
    exact .cons (writesPair_size (by decide) _) (.cons (writesPair_string (by decide) _)
      (.cons (writesPair_boolean (by decide) _) .nil))
  case refine_4 =>
    simp only [LoggingSettings.entries]
    cases settings.logging.filePath with
    | none =>
        exact .cons (writesPair_string (by decide) _)
          (.cons (writesPair_boolean (by decide) _) .nil)
    | some path =>
        exact .cons (writesPair_string (by decide) _) (.cons (writesPair_string (by decide) path)
          (.cons (writesPair_boolean (by decide) _) .nil))

theorem nodup_keys {settings : Settings} {part : Section} (member : part ∈ settings.sections) :
    (part.2.map Prod.fst).Nodup := by
  simp only [sections, List.mem_cons, List.not_mem_nil, or_false] at member
  rcases member with rfl | rfl | rfl | rfl
  · show (["delimiters", "separators"] : List Text).Nodup
    decide
  · show (["program", "device_dir", "device_prefixes"] : List Text).Nodup
    decide
  · show (["max_size", "file_path", "persist"] : List Text).Nodup
    decide
  · simp only [LoggingSettings.entries]
    cases settings.logging.filePath with
    | none =>
        show (["level", "timestamps"] : List Text).Nodup
        decide
    | some path =>
        show (["level", "file_path", "timestamps"] : List Text).Nodup
        decide

/-- The document of some settings is read as their tables. -/
theorem read_document (settings : Settings) :
    Toml.read settings.document = .ok (settings.sections.map Section.entry) := by
  have names : (settings.sections.map Prod.fst).Nodup := by
    show (["lexer", "completion", "history", "logging"] : List Text).Nodup
    decide
  exact read_join settings.writesTable_tables names fun part => nodup_keys

end Settings

/-! ## The tables give the settings -/

theorem ok_bind {α β : Type} (found : α) (next : α → Except Fault β) :
    (Except.ok found >>= next) = next found :=
  rfl

theorem Line.Classes.ofFields_entries (classes standard : Line.Classes) :
    standard.ofFields (fun _ key => Entries.lookup? key classes.entries) = .ok classes := by
  simp [ofFields, Fields.get, entries, Entries.lookup?, Value.text?, ok_bind]

theorem CompletionSettings.ofFields_entries (settings standard : CompletionSettings) :
    standard.ofFields (fun _ key => Entries.lookup? key settings.entries) = .ok settings := by
  have beginnings : Value.texts? (.array (settings.deviceBeginnings.map .text)) =
      some settings.deviceBeginnings := by
    rw [Value.texts?, List.mapM_map]
    exact (Text.mapM_of_forall fun _ _ => rfl).trans (congrArg some (List.map_id _))
  simp [ofFields, Fields.get, entries, Entries.lookup?, Value.text?, beginnings, ok_bind]

theorem HistorySettings.ofFields_entries (settings standard : HistorySettings) :
    standard.ofFields (fun _ key => Entries.lookup? key settings.entries) = .ok settings := by
  have size : Value.size? (.integer (.ofNat settings.maxSize.toNat)) = some settings.maxSize := by
    rw [Value.size?, if_pos settings.maxSize.toNat_lt_size, UInt64.ofNat_toNat]
  simp only [entries]
  generalize Value.integer (.ofNat settings.maxSize.toNat) = written at size ⊢
  simp [ofFields, Fields.get, Entries.lookup?, size, Value.text?, Value.boolean?, ok_bind]

theorem LoggingSettings.ofFields_entries (settings standard : LoggingSettings)
    (unset : standard.filePath = none) :
    standard.ofFields (fun _ key => Entries.lookup? key settings.entries) = .ok settings := by
  have chosen : LogLevel.ofValue? (.text settings.level.name) = some settings.level := by
    cases settings.level <;> rfl
  obtain ⟨level, filePath, timestamps⟩ := settings
  cases filePath with
  | none =>
      simp [ofFields, Fields.get, entries, Entries.lookup?, chosen, Value.boolean?, unset, ok_bind]
  | some path =>
      simp [ofFields, Fields.get, entries, Entries.lookup?, chosen, Value.text?, Value.boolean?,
        ok_bind]

theorem Settings.ofEntries_sections (home : Text) (settings : Settings) :
    ofEntries home (settings.sections.map Section.entry) = .ok settings := by
  have logging := settings.logging.ofFields_entries (standard home).logging rfl
  simp [ofEntries, Entries.section, sections, Section.entry, Entries.lookup?, Value.fields?,
    settings.lexer.ofFields_entries, settings.completion.ofFields_entries,
    settings.history.ofFields_entries, logging, ok_bind]

/-- Settings of any kind are read back from their document. -/
theorem Settings.ofDocument_document (home : Text) (settings : Settings) :
    ofDocument home settings.document = .ok settings := by
  rw [ofDocument, read_document, ok_bind, ofEntries_sections]

end SerialCompletion
