-- SUMMARY: Lists of named entries kept in ascending order of their names.

/-!
# Entries

Objects, collections and stores are finite maps from names to values. They are
held as lists of pairs in ascending order of the names (by code point), the
order in which they are read, written and checked. `Entries.Sorted` says that a
list is in that order and names nothing twice; `insert` and `erase` keep it.
-/

namespace DocSchema

/-- Named entries. -/
abbrev Entries (α : Type) := List (String × α)

namespace Entries

variable {α β : Type}

/-- Each name stands before all later ones. -/
def Sorted (entries : Entries α) : Prop := entries.Pairwise fun a b => a.1 < b.1

/-- The value under a name. -/
def get? : Entries α → String → Option α
  | [], _ => none
  | (name, value) :: rest, key => if name = key then some value else get? rest key

def contains (entries : Entries α) (key : String) : Bool := (get? entries key).isSome

/-- Puts a value under a name, in place of the one that stood there. -/
def insert : Entries α → String → α → Entries α
  | [], key, new => [(key, new)]
  | (name, value) :: rest, key, new =>
    if name = key then (key, new) :: rest
    else if key < name then (key, new) :: (name, value) :: rest
    else (name, value) :: insert rest key new

/-- Takes a name away. -/
def erase (entries : Entries α) (key : String) : Entries α := entries.filter fun e => e.1 ≠ key

/-- The entries of a list; of two with one name the later one stays. -/
def ofList (entries : List (String × α)) : Entries α :=
  entries.foldl (fun done e => insert done e.1 e.2) []

def keys (entries : Entries α) : List String := entries.map Prod.fst

def values (entries : Entries α) : List α := entries.map Prod.snd

end Entries

end DocSchema
