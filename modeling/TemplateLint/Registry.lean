/-!
# Registries

Rulesets and reporters are chosen by name. A registry keeps its entries in the order of their names,
which is the order of the code points, and has one entry for each name: registering a name again
replaces what it stood for.
-/

namespace TemplateLint

/-- Named things. -/
structure Registry (α : Type) where
  entries : List (String × α) := []

namespace Registry

variable {α : Type}

/-- A registry with no names. -/
def empty : Registry α := ⟨[]⟩

/-- Entries in the order of their names, with one more. -/
def insertEntry (name : String) (value : α) : List (String × α) → List (String × α)
  | [] => [(name, value)]
  | (other, old) :: rest =>
    if name < other then (name, value) :: (other, old) :: rest
    else if name = other then (name, value) :: rest
    else (other, old) :: insertEntry name value rest

/-- The registry in which a name stands for a thing. -/
def register (registry : Registry α) (name : String) (value : α) : Registry α :=
  ⟨insertEntry name value registry.entries⟩

/-- The registry of a list of named things. -/
def ofList (entries : List (String × α)) : Registry α :=
  entries.foldl (fun registry (name, value) => registry.register name value) empty

/-- The names in their order. -/
def names (registry : Registry α) : List String :=
  registry.entries.map Prod.fst

/-- What a name stands for. -/
def find? (registry : Registry α) (name : String) : Option α :=
  registry.entries.lookup name

end Registry

end TemplateLint
