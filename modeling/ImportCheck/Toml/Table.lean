import ImportCheck.Value.Basic

/-!
Tables while they are written. A table is given once: by a header, by dotted keys, or as a value. A header
may also give a table that so far only stands around others; dotted keys may only pass through it.
-/
namespace ImportCheck.Toml

/-- Who has given a table so far: nobody, when only tables inside it were named by headers. -/
inductive Origin
  | inner
  | header
  | dotted
deriving DecidableEq

/-- What stands under a key. -/
inductive Node
  | value (v : Value)
  | table (origin : Origin) (entries : List (String × Node))
  | elements (items : List (List (String × Node)))

abbrev Entries := List (String × Node)

namespace Entries

def get? (es : Entries) (key : String) : Option Node := (es.find? (·.1 == key)).map (·.2)

def put (es : Entries) (key : String) (node : Node) : Entries :=
  if (get? es key).isSome then es.map fun e => if e.1 == key then (key, node) else e
  else es ++ [(key, node)]

end Entries

/-- Assigns a value under keys in a section. The keys may lead through tables that no header has given and
through the last element of an array of tables, and tables that are not there yet come into being; but the
value itself is put in the section or in a table that dotted keys have given. -/
def assignIn? (v : Value) : List String → Entries → Option Entries
  | [], _ => none
  | [key], es =>
    match Entries.get? es key with
    | none => some (Entries.put es key (.value v))
    | some _ => none
  | key :: keys, es =>
    match Entries.get? es key with
    | none => (assignIn? v keys []).map fun inner => Entries.put es key (.table .dotted inner)
    | some (.table .dotted inner) =>
      (assignIn? v keys inner).map fun inner => Entries.put es key (.table .dotted inner)
    | some (.table .inner inner) =>
      if keys.length = 1 then none
      else (assignIn? v keys inner).map fun inner => Entries.put es key (.table .inner inner)
    | some (.elements items) =>
      if keys.length = 1 then none
      else (assignIn? v keys (items.getLast?.getD [])).map fun inner =>
        Entries.put es key (.elements (items.dropLast ++ [inner]))
    | some _ => none

namespace Node

mutual
def toValue : Node → Value
  | .value v => v
  | .table _ entries => .object (toFields entries)
  | .elements items => .array (toItems items)

def toFields : List (String × Node) → Fields
  | [] => []
  | (key, node) :: rest => Fields.set (toFields rest) key (toValue node)

def toItems : List (List (String × Node)) → List Value
  | [] => []
  | entries :: rest => .object (toFields entries) :: toItems rest
end

end Node

end ImportCheck.Toml
