import ElevatorFleet.Toml.Value

/-!
# Building TOML tables

A table can come about in three ways, and which it was decides what may still be added
to it. A header, a pair of braces and the document itself define a table for good. A
longer header implies the tables on its way, which a header of their own may define
later. Dotted keys open tables that other dotted keys may go on with.
-/
namespace ElevatorFleet.Toml

/-- How a table came about. -/
inductive TableKind where
  | defined
  | implied
  | dotted
deriving DecidableEq, Repr

inductive Item where
  | leaf (v : Value)
  | table (kind : TableKind) (entries : List (String × Item))
  /-- An array of tables: the last, and those before it in reverse. -/
  | tables (last : List (String × Item)) (before : List (List (String × Item)))
deriving Inhabited, Repr

abbrev Entries := List (String × Item)

def put (key : String) (item : Item) (entries : Entries) : Entries :=
  (key,item) :: entries.filter fun e => e.1 ≠ key

/-- Does something to the table at the end of a path, and opens the tables on the way
    that are not there yet. Dotted keys may not pass a table that has been defined; an
    array of tables is passed through its last one. -/
def within {α : Type} (isDotted : Bool) (act : TableKind → Entries → Option (Entries × α)) :
    List String → TableKind → Entries → Option (Entries × α)
  | [],kind,entries => act kind entries
  | key :: path,_,entries =>
    match entries.lookup key with
    | none => do
      let kind := if isDotted then .dotted else .implied
      let (inner,a) ← within isDotted act path kind []
      some (put key (.table kind inner) entries,a)
    | some (.leaf _) => none
    | some (.table kind inner) =>
      if isDotted && kind = .defined then none
      else do
        let (inner,a) ← within isDotted act path kind inner
        some (put key (.table kind inner) entries,a)
    | some (.tables last before) => do
      let (last,a) ← within isDotted act path .defined last
      some (put key (.tables last before) entries,a)

/-- Adds a value under a path of keys. The last key is new. A path of several keys
    ends in a table that dotted keys have opened, and a single key in one that they
    have not. -/
def insertAt (path : List String) (key : String) (v : Value) (entries : Entries) : Option Entries :=
  let act := fun kind inner =>
    if (kind = .dotted : Bool) = path.isEmpty || (inner.lookup key).isSome then none
    else some (put key (.leaf v) inner,())
  (within true act path .defined entries).map Prod.fst

mutual

def Item.value : Item → Value
  | .leaf v => v
  | .table _ entries => .table (entryValues entries)
  | .tables last before => .array (tableValues before ++ [.table (entryValues last)])

def entryValues : List (String × Item) → List (String × Value)
  | [] => []
  | (key,item) :: rest => (key,item.value) :: entryValues rest

def tableValues : List (List (String × Item)) → List Value
  | [] => []
  | entries :: rest => tableValues rest ++ [.table (entryValues entries)]

end

/-! ### Documents -/

/-- A document as far as it is read: the tables that are finished, and the one that a
    header has opened and entries now go into. -/
structure Draft where
  root : Entries
  /-- The keys of the open table, but for the last one; the document itself has none. -/
  path : List String
  key? : Option String
  isItem : Bool
  entries : Entries

namespace Draft

def empty : Draft := ⟨[],[],none,false,[]⟩

def insert (d : Draft) (path : List String) (key : String) (v : Value) : Option Draft :=
  (insertAt path key v d.entries).map fun entries => { d with entries := entries }

def close (d : Draft) : Option Entries :=
  match d.key? with
  | none => some d.entries
  | some key =>
    let act := fun (_ : TableKind) inner =>
      match inner.lookup key with
      | none =>
        if d.isItem then some (put key (.tables d.entries []) inner,())
        else some (put key (.table .defined d.entries) inner,())
      | some (.tables last before) =>
        if d.isItem then some (put key (.tables d.entries (last :: before)) inner,()) else none
      | some _ => none
    (within false act d.path .defined d.root).map Prod.fst

/-- Opens the table of a header. A table that other headers have implied is taken up
    with what is in it. -/
def openTable (d : Draft) (path : List String) (key : String) : Option Draft := do
  let root ← d.close
  let act := fun (_ : TableKind) (inner : Entries) =>
    match inner.lookup key with
    | none => some (inner,[])
    | some (.table .implied entries) => some (inner.filter (fun e => e.1 ≠ key),entries)
    | some _ => none
  let (root,entries) ← within false act path .defined root
  some ⟨root,path,some key,false,entries⟩

def openItem (d : Draft) (path : List String) (key : String) : Option Draft := do
  let root ← d.close
  let act := fun (_ : TableKind) (inner : Entries) =>
    match inner.lookup key with
    | none => some (inner,())
    | some (.tables _ _) => some (inner,())
    | some _ => none
  let (root,_) ← within false act path .defined root
  some ⟨root,path,some key,true,[]⟩

end Draft
end ElevatorFleet.Toml
