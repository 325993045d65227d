import SerialCompletion.Text.Quoted

/-!
# TOML values and tables

Tables keep their entries in the order of the document.  A table remembers
how it came about, because that decides what may still be added to it: a
header may define a table that only longer headers implied, dotted keys may
extend tables made by dotted keys, and an inline table is closed.
-/

namespace SerialCompletion.Toml

/-!
## Faults of TOML documents

Why a text is no TOML document, or why a document does not have the shape
that its reader asks for.
-/

inductive Fault where
  | unexpectedEnd
  | unexpected (c : Char)
  | badEscape
  | badScalar (lexeme : Text)
  | outOfRange (lexeme : Text)
  | nestedTooDeeply
  | duplicateKey (key : Text)
  | closedValue (key : Text)
  | wrongType (key : Text)
  deriving DecidableEq, Repr

def Fault.message : Fault → Text
  | .unexpectedEnd => "unexpected end of the document"
  | .unexpected c => "unexpected character ".toList ++ Text.quoted [c]
  | .badEscape => "invalid escape in a string"
  | .badScalar lexeme => "invalid value ".toList ++ Text.quoted lexeme
  | .outOfRange lexeme => "number out of range ".toList ++ Text.quoted lexeme
  | .nestedTooDeeply => "values are nested too deeply"
  | .duplicateKey key => "duplicate key ".toList ++ Text.quoted key
  | .closedValue key => "cannot extend the value of key ".toList ++ Text.quoted key
  | .wrongType key => "wrong type for key ".toList ++ Text.quoted key

/-! ## Values and entries -/

/-- How a table came about. -/
inductive Origin where
  /-- Only as the way to a longer header. -/
  | implied
  | defined
  /-- By a dotted key. -/
  | dotted
  | inline
  deriving DecidableEq, Repr

inductive Value where
  | text (content : Text)
  | integer (number : Int)
  | float (lexeme : Text)
  | boolean (flag : Bool)
  | moment (lexeme : Text)
  | array (items : List Value)
  | table (origin : Origin) (entries : List (Text × Value))
  /-- The tables that headers in double brackets made. -/
  | tables (members : List (List (Text × Value)))
  deriving Repr

abbrev Entries := List (Text × Value)

namespace Entries

def lookup? (key : Text) : Entries → Option Value
  | [] => none
  | (found, value) :: rest => if found = key then some value else lookup? key rest

def store (key : Text) (value : Value) : Entries → Entries
  | [] => [(key, value)]
  | (found, old) :: rest =>
      if found = key then (key, value) :: rest else (found, old) :: store key value rest

/-- Whether a dotted key may lead through a table to a further table, or end in it. -/
def admitsDotted (origin : Origin) (ends : Bool) : Bool :=
  match origin with
  | .dotted => true
  | .implied => !ends
  | .defined | .inline => false

def changeLast (change : Entries → Except Fault Entries) :
    List Entries → Except Fault (List Entries)
  | [] => .ok []
  | [member] => return [← change member]
  | member :: rest => return member :: (← changeLast change rest)

/-- Add a value under a dotted key. -/
def insert (entries : Entries) (value : Value) : List Text → Except Fault Entries
  | [] => .ok entries
  | [key] =>
      match lookup? key entries with
      | none => .ok (entries ++ [(key, value)])
      | some _ => .error (.duplicateKey key)
  | key :: rest =>
      match lookup? key entries with
      | none => do
          let inner ← insert [] value rest
          return entries ++ [(key, .table .dotted inner)]
      | some (.table origin inner) =>
          if admitsDotted origin (rest.length == 1) then do
            let changed ← insert inner value rest
            return store key (.table origin changed) entries
          else .error (.duplicateKey key)
      | some (.tables members) =>
          if rest.length == 1 then .error (.duplicateKey key)
          else do
            let changed ← changeLast (fun inner => insert inner value rest) members
            return store key (.tables changed) entries
      | some _ => .error (.closedValue key)

/-- Change the table that a header names, making the tables on the way to it. -/
def changeUnder (entries : Entries) (change : Entries → Except Fault Entries) :
    List Text → Except Fault Entries
  | [] => change entries
  | key :: rest =>
      match lookup? key entries with
      | none => do
          let inner ← changeUnder [] change rest
          return entries ++ [(key, .table .implied inner)]
      | some (.table .inline _) => .error (.closedValue key)
      | some (.table origin inner) => do
          let changed ← changeUnder inner change rest
          return store key (.table origin changed) entries
      | some (.tables members) => do
          let changed ← changeLast (fun inner => changeUnder inner change rest) members
          return store key (.tables changed) entries
      | some _ => .error (.closedValue key)

def defineTable (key : Text) (entries : Entries) : Except Fault Entries :=
  match lookup? key entries with
  | none => .ok (entries ++ [(key, .table .defined [])])
  | some (.table .implied inner) => .ok (store key (.table .defined inner) entries)
  | some _ => .error (.duplicateKey key)

def beginMember (key : Text) (entries : Entries) : Except Fault Entries :=
  match lookup? key entries with
  | none => .ok (entries ++ [(key, .tables [[]])])
  | some (.tables members) => .ok (store key (.tables (members ++ [[]])) entries)
  | some _ => .error (.duplicateKey key)

end Entries

end SerialCompletion.Toml
