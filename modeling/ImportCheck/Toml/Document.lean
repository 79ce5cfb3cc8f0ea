import ImportCheck.Toml.Reader

/-!
The table that the statements of a settings file make up. A header may come before or after those of the
tables inside it.
-/
namespace ImportCheck.Toml

/-- Changes the table that keys lead to. An array of tables leads to its last element, and tables that
are not there yet come into being. -/
def descend? (change : Entries → Option Entries) : List String → Entries → Option Entries
  | [], es => change es
  | key :: keys, es =>
    match Entries.get? es key with
    | none => (descend? change keys []).map fun inner => Entries.put es key (.table .inner inner)
    | some (.table origin inner) =>
      (descend? change keys inner).map fun inner => Entries.put es key (.table origin inner)
    | some (.elements items) =>
      (descend? change keys (items.getLast?.getD [])).map fun inner =>
        Entries.put es key (.elements (items.dropLast ++ [inner]))
    | some (.value _) => none

def openTable? (key : String) (es : Entries) : Option Entries :=
  match Entries.get? es key with
  | none => some (Entries.put es key (.table .header []))
  | some (.table .inner inner) => some (Entries.put es key (.table .header inner))
  | some _ => none

def openElement? (key : String) (es : Entries) : Option Entries :=
  match Entries.get? es key with
  | none => some (Entries.put es key (.elements [[]]))
  | some (.elements items) => some (Entries.put es key (.elements (items ++ [[]])))
  | some _ => none

/-- The entries after a statement, and the section that it leaves open. -/
def extend? (state : Entries × List String) : Statement → Option (Entries × List String)
  | .table keys =>
    (descend? (openTable? (keys.getLastD "")) keys.dropLast state.1).map (·, keys)
  | .element keys =>
    (descend? (openElement? (keys.getLastD "")) keys.dropLast state.1).map (·, keys)
  | .assign keys v => (descend? (assignIn? v keys) state.2 state.1).map (·, state.2)

/-- The fields of a settings file; none if it is broken. -/
def document? (text : String) : Option Fields := do
  let statements ← read? text
  let (entries, _) ← statements.foldlM extend? (([] : Entries), ([] : List String))
  return Node.toFields entries

end ImportCheck.Toml
