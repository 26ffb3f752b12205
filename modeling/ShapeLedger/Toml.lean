/-!
TOML documents. A document is a tree of tables; every table remembers how it
came about, because that decides what later lines may add to it. Of numbers
with a fraction and of dates only the kind is kept.
-/

namespace ShapeLedger.Toml

/-- How a table came about. -/
inductive Origin where
  /-- By a header of its own. -/
  | header
  /-- On the way to a header further down. -/
  | implicit
  /-- On the way to the last part of a dotted key. -/
  | dotted
  /-- In braces, which closes it for good. -/
  | inline
deriving DecidableEq

inductive Node where
  | text (s : String)
  | integer (n : Int)
  | float
  | boolean
  | dateTime
  | array (items : List Node)
  | table (origin : Origin) (entries : List (String × Node))
  /-- An array of tables with headers of their own, the last one first. -/
  | tables (elements : List (List (String × Node)))

abbrev Entries := List (String × Node)

/-- A line of a document that is neither blank nor a comment. -/
inductive Statement where
  /-- Opens the table at a path. -/
  | header (path : List String)
  /-- Adds a table to the array at a path and opens it. -/
  | element (path : List String)
  /-- Files a value in the open table. -/
  | assign (path : List String) (value : Node)

namespace Entries

def find? (t : Entries) (key : String) : Option Node := t.lookup key

/-- Puts a value in the place of what is filed under `key`. -/
def replace (key : String) (v : Node) : Entries → Entries
  | [] => []
  | (k, w) :: t => if k = key then (k, v) :: t else (k, w) :: replace key v t

/-- Files a value under a dotted key. The tables on the way are made if they
are missing; those that have headers are not extended, and the one that the
value goes into must itself have been made by a dotted key. -/
def assign (v : Node) : List String → Entries → Option Entries
  | [], _ => none
  | [key], t =>
    match find? t key with
    | none => some (t ++ [(key, v)])
    | some _ => none
  | key :: next :: rest, t =>
    match find? t key with
    | none => (assign v (next :: rest) []).map fun es => t ++ [(key, .table .dotted es)]
    | some (.table .dotted es) =>
      (assign v (next :: rest) es).map fun es => replace key (.table .dotted es) t
    | some (.table .implicit es) =>
      if rest.isEmpty then none
      else (assign v (next :: rest) es).map fun es => replace key (.table .implicit es) t
    | some (.tables (es :: earlier)) =>
      if rest.isEmpty then none
      else (assign v (next :: rest) es).map fun es => replace key (.tables (es :: earlier)) t
    | _ => none

/-- Files a value under a dotted key in the table that the last header opened. -/
def assignBelow (path : List String) (v : Node) : List String → Entries → Option Entries
  | [], t => assign v path t
  | key :: rest, t =>
    match find? t key with
    | some (.table origin es) =>
      (assignBelow path v rest es).map fun es => replace key (.table origin es) t
    | some (.tables (es :: earlier)) =>
      (assignBelow path v rest es).map fun es => replace key (.tables (es :: earlier)) t
    | _ => none

/-- Opens what a header names. `last` says what becomes of what is filed under
the last part of the path. -/
def openAt (last : Option Node → Option Node) : List String → Entries → Option Entries
  | [], _ => none
  | [key], t =>
    match find? t key with
    | none => (last none).map fun v => t ++ [(key, v)]
    | some v => (last (some v)).map fun v => replace key v t
  | key :: next :: rest, t =>
    match find? t key with
    | none => (openAt last (next :: rest) []).map fun es => t ++ [(key, .table .implicit es)]
    | some (.table .inline _) => none
    | some (.table origin es) =>
      (openAt last (next :: rest) es).map fun es => replace key (.table origin es) t
    | some (.tables (es :: earlier)) =>
      (openAt last (next :: rest) es).map fun es => replace key (.tables (es :: earlier)) t
    | _ => none

/-- A table has one header, which may follow the headers of its subtables. -/
def openTable : Option Node → Option Node
  | none => some (.table .header [])
  | some (.table .implicit es) => some (.table .header es)
  | _ => none

def openElement : Option Node → Option Node
  | none => some (.tables [[]])
  | some (.tables ts) => some (.tables ([] :: ts))
  | _ => none

/-- The entries of a table in braces. -/
def ofPairs? (pairs : List (List String × Node)) : Option Entries :=
  pairs.foldlM (fun t p => assign p.2 p.1 t) []

end Entries

/-- A document up to some line: the path of the last header and all entries. -/
structure Document where
  header : List String
  entries : Entries

namespace Document

def empty : Document := ⟨[], []⟩

def add (d : Document) : Statement → Option Document
  | .header path => (Entries.openAt Entries.openTable path d.entries).map (⟨path, ·⟩)
  | .element path => (Entries.openAt Entries.openElement path d.entries).map (⟨path, ·⟩)
  | .assign path v => (Entries.assignBelow path v d.header d.entries).map (⟨d.header, ·⟩)

def ofStatements? (ss : List Statement) : Option Document := ss.foldlM add empty

end Document

end ShapeLedger.Toml
