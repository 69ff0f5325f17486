import ComponentDocs.Number.Double
/-! The values of a TOML document. Tables keep their entries in the order of the
document, and remember how they came about: that decides what may extend them. -/
namespace ComponentDocs.Toml

inductive TableKind
  | header
  /-- A table that only occurs in the headers of tables below it. -/
  | implied
  /-- A table made by dotted keys. -/
  | dotted
  | closed
deriving DecidableEq, Repr

inductive Value
  | string (text : String)
  | integer (n : Int)
  | float (x : Double)
  | boolean (b : Bool)
  | moment
  | array (items : List Value)
  | table (kind : TableKind) (entries : List (String × Value))
  /-- Tables under one header in double brackets. -/
  | tables (items : List (List (String × Value)))
deriving Repr

abbrev Entries := List (String × Value)

namespace Entries

def replace (es : Entries) (key : String) (v : Value) : Entries :=
  es.map fun e => if e.1 == key then (key, v) else e

/-- Adds an entry below tables made by dotted keys. Such keys make tables and extend those that
dotted keys made, but no others. -/
def insert (key : String) (v : Value) : List String → Entries → Option Entries
  | [], es => if (es.lookup key).isSome then none else some (es ++ [(key, v)])
  | k :: path, es =>
    match es.lookup k with
    | none => (insert key v path []).map fun sub => es ++ [(k, .table .dotted sub)]
    | some (.table .dotted sub) =>
      (insert key v path sub).map fun sub => es.replace k (.table .dotted sub)
    | some (.table .implied sub) =>
      if path.isEmpty then none
      else (insert key v path sub).map fun sub => es.replace k (.table .implied sub)
    | some (.tables items) =>
      if path.isEmpty then none
      else
        (insert key v path (items.getLast?.getD [])).map fun sub =>
          es.replace k (.tables (items.dropLast ++ [sub]))
    | some _ => none

/-- Changes the table that the keys of a header lead to. Tables that are missing are made. -/
def under {α : Type} (change : Entries → Option (Entries × α)) : List String → Entries → Option (Entries × α)
  | [], es => change es
  | k :: path, es =>
    match es.lookup k with
    | none => (under change path []).map fun (sub, a) => (es ++ [(k, .table .implied sub)], a)
    | some (.tables items) =>
      (under change path (items.getLast?.getD [])).map fun (sub, a) =>
        (es.replace k (.tables (items.dropLast ++ [sub])), a)
    | some (.table .closed _) => none
    | some (.table kind sub) =>
      (under change path sub).map fun (sub, a) => (es.replace k (.table kind sub), a)
    | some _ => none

/-- Takes out the table that a header begins: a new one, or one that is implied so far. -/
def beginTable (key : String) (es : Entries) : Option (Entries × Entries) :=
  match es.lookup key with
  | none => some (es, [])
  | some (.table .implied sub) => some (es.filter (·.1 != key), sub)
  | some _ => none

def beginItem (key : String) (es : Entries) : Option (Entries × Entries) :=
  match es.lookup key with
  | none => some (es ++ [(key, .tables [])], [])
  | some (.tables _) => some (es, [])
  | some _ => none

def endTable (key : String) (table es : Entries) : Option (Entries × Unit) :=
  if (es.lookup key).isSome then none else some (es ++ [(key, .table .header table)], ())

def endItem (key : String) (table es : Entries) : Option (Entries × Unit) :=
  match es.lookup key with
  | some (.tables items) => some (es.replace key (.tables (items ++ [table])), ())
  | _ => none

end Entries

end ComponentDocs.Toml
