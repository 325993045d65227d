import SerialCompletion.Toml.Reader

/-!
# Tables that statements build

A header with a new name, and pairs with new keys behind it, add one table at
the end of what has been built before, and leave everything else as it is.
-/

namespace SerialCompletion.Toml

variable {key name : Text} {entries front : Entries} {found : Value}

/-! ## Entries at the end -/

namespace Entries

theorem lookup?_eq_none (absent : key ∉ entries.map Prod.fst) : lookup? key entries = none := by
  induction entries with
  | nil => rfl
  | cons entry entries ih =>
      rw [List.map_cons, List.mem_cons, not_or] at absent
      rw [lookup?, if_neg (Ne.symm absent.1), ih absent.2]

theorem lookup?_append_singleton (absent : key ∉ entries.map Prod.fst) :
    lookup? key (entries ++ [(key, found)]) = some found := by
  induction entries with
  | nil => simp [lookup?]
  | cons entry entries ih =>
      rw [List.map_cons, List.mem_cons, not_or] at absent
      rw [List.cons_append, lookup?, if_neg (Ne.symm absent.1), ih absent.2]

theorem store_append_singleton (absent : key ∉ entries.map Prod.fst) (changed : Value) :
    store key changed (entries ++ [(key, found)]) = entries ++ [(key, changed)] := by
  induction entries with
  | nil => simp [store]
  | cons entry entries ih =>
      rw [List.map_cons, List.mem_cons, not_or] at absent
      rw [List.cons_append, store, if_neg (Ne.symm absent.1), ih absent.2, List.cons_append]

theorem insert_singleton (absent : key ∉ entries.map Prod.fst) :
    insert entries found [key] = .ok (entries ++ [(key, found)]) := by
  rw [insert, lookup?_eq_none absent]

theorem defineTable_eq (absent : key ∉ entries.map Prod.fst) :
    defineTable key entries = .ok (entries ++ [(key, .table .defined [])]) := by
  rw [defineTable, lookup?_eq_none absent]

end Entries

/-! ## The statements of tables -/

abbrev Section := Text × Entries

namespace Section

def statements (part : Section) : List Statement :=
  .header [part.1] :: part.2.map fun entry => .pair [entry.1] entry.2

def entry (part : Section) : Text × Value :=
  (part.1, .table .defined part.2)

end Section

namespace Building

/-- The building with a table at its end that is open. -/
def opened (front : Entries) (part : Section) : Building :=
  ⟨front ++ [part.entry], [part.1]⟩

theorem add_header (absent : name ∉ front.map Prod.fst) (header : List Text) :
    add ⟨front, header⟩ (.header [name]) = .ok (opened front (name, [])) := by
  simp only [add, openTable, List.dropLast_singleton, Entries.changeUnder]
  rw [show [name].getLast?.getD [] = name from rfl, Entries.defineTable_eq absent]
  rfl

theorem add_pair (unique : name ∉ front.map Prod.fst) (absent : key ∉ entries.map Prod.fst)
    (found : Value) :
    add (opened front (name, entries)) (.pair [key] found) =
      .ok (opened front (name, entries ++ [(key, found)])) := by
  simp only [add, opened, Section.entry, Entries.changeUnder,
    Entries.lookup?_append_singleton unique, Entries.insert_singleton absent, bind, Except.bind,
    pure, Except.pure, Entries.store_append_singleton unique]

theorem foldlM_pairs (unique : name ∉ front.map Prod.fst) {before behind : Entries}
    (distinct : ((before ++ behind).map Prod.fst).Nodup) :
    (behind.map fun entry => Statement.pair [entry.1] entry.2).foldlM add
        (opened front (name, before)) =
      .ok (opened front (name, before ++ behind)) := by
  induction behind generalizing before with
  | nil => simp [pure, Except.pure]
  | cons entry behind ih =>
      have moved : before ++ entry :: behind = (before ++ [entry]) ++ behind := by simp
      have absent : entry.1 ∉ before.map Prod.fst := by
        rw [List.map_append, List.map_cons, List.nodup_append] at distinct
        exact fun member => distinct.2.2 _ member _ List.mem_cons_self rfl
      rw [List.map_cons, List.foldlM_cons, add_pair unique absent, moved]
      exact ih (moved ▸ distinct)

/-- The statements of a table with a new name add the table at the end. -/
theorem foldlM_statements {part : Section} (absent : part.1 ∉ front.map Prod.fst)
    (distinct : (part.2.map Prod.fst).Nodup) (header : List Text) :
    part.statements.foldlM add ⟨front, header⟩ = .ok ⟨front ++ [part.entry], [part.1]⟩ := by
  rw [Section.statements, List.foldlM_cons, add_header absent]
  exact foldlM_pairs absent distinct

theorem foldlM_flatMap_statements {parts : List Section}
    (names : ((front ++ parts.map Section.entry).map Prod.fst).Nodup)
    (distinct : ∀ part ∈ parts, (part.2.map Prod.fst).Nodup) (header : List Text) :
    ∃ last, (parts.flatMap Section.statements).foldlM add ⟨front, header⟩ =
      .ok ⟨front ++ parts.map Section.entry, last⟩ := by
  induction parts generalizing front header with
  | nil => exact ⟨header, by simp [pure, Except.pure]⟩
  | cons part parts ih =>
      obtain ⟨first, others⟩ := List.forall_mem_cons.mp distinct
      have moved : front ++ (part :: parts).map Section.entry =
          (front ++ [part.entry]) ++ parts.map Section.entry := by simp
      have absent : part.1 ∉ front.map Prod.fst := by
        rw [List.map_append, List.map_cons, List.map_cons, List.nodup_append] at names
        exact fun member => names.2.2 _ member _ List.mem_cons_self rfl
      rw [List.flatMap_cons, List.foldlM_append, foldlM_statements absent first, moved]
      exact ih (moved ▸ names) others [part.1]

end Building

/-- Statements of tables with distinct names and distinct keys build these tables. -/
theorem Entries.ofStatements_flatMap {parts : List Section}
    (names : (parts.map Prod.fst).Nodup)
    (distinct : ∀ part ∈ parts, (part.2.map Prod.fst).Nodup) :
    ofStatements (parts.flatMap Section.statements) = .ok (parts.map Section.entry) := by
  have keys : ([] ++ parts.map Section.entry).map Prod.fst = parts.map Prod.fst := by
    rw [List.nil_append, List.map_map]
    rfl
  obtain ⟨last, built⟩ := Building.foldlM_flatMap_statements (keys ▸ names) distinct []
  rw [ofStatements, built]
  rfl

end SerialCompletion.Toml
