import FlowGraph.Registry.Basic

/-!
Extensions as they are carried out, on tables that lie side by side and are changed in place. An extension fills copies of the
tables of the registry that it extends, and the new registry keeps copies of those.
-/
namespace FlowGraph

/-- The tables of some registries, each at its place. -/
structure Shelf where
  values : Array (Table String ValueType) := #[]
  nodes : Array (Table String Definition) := #[]
  conversions : Array (Table (String × String) Conversion) := #[]
  services : Array (Table String Offer) := #[]

/-- A registry by the places of its tables. -/
structure Registry.Handle where
  values : Nat
  nodes : Nat
  conversions : Nat
  services : Nat
  clashes : List Clash := []

namespace Shelf

section Tables

variable {κ α : Type} [DecidableEq κ]

def at_ (tables : Array (Table κ α)) (i : Nat) : Table κ α := tables[i]?.getD {}

/-- Puts a copy of the table at a place behind all others. -/
def copy (tables : Array (Table κ α)) (i : Nat) : Array (Table κ α) := tables.push (at_ tables i)

/-- Registers an entry in the table at a place, and records the clash if the name is refused. -/
def register (i : Nat) (name : κ → Clash) (refused : κ → Bool) (s : Array (Table κ α) × List Clash) (e : κ × α) :
    Array (Table κ α) × List Clash :=
  (s.1.modify i (·.set e.1 e.2), if (at_ s.1 i).has e.1 || refused e.1 then s.2 ++ [name e.1] else s.2)

/-- Registers entries in a copy of the table at a place. A second copy, the last table, is the one to keep. -/
def registerAll (tables : Array (Table κ α)) (i : Nat) (name : κ → Clash) (refused : κ → Bool) (clashes : List Clash)
    (es : List (κ × α)) : Array (Table κ α) × List Clash :=
  let (filled, clashes) := es.foldl (register tables.size name refused) (copy tables i, clashes)
  (copy filled tables.size, clashes)

end Tables

def provide (i : Nat) (tables : Array (Table String Offer)) (s : Offer) : Array (Table String Offer) :=
  tables.modify i (·.set s.name s)

def provideUsual (i : Nat) (tables : Array (Table String Offer)) (s : Offer) : Array (Table String Offer) :=
  if (at_ tables i).has s.name then tables else provide i tables s

/-- Provides services in a copy of the table at a place, and makes the copy to keep. -/
def provideAll (tables : Array (Table String Offer)) (i : Nat) (usual own : List Offer) : Array (Table String Offer) :=
  let filled := usual.foldl (provideUsual tables.size) (copy tables i)
  copy (own.foldl (provide tables.size) filled) tables.size

/-- Carries an extension out. -/
def extend (shelf : Shelf) (h : Registry.Handle) (e : Extension) : Shelf × Registry.Handle :=
  let (values, clashes) := registerAll shelf.values h.values .valueType (· == ValueType.flowName) h.clashes
    (e.values.map fun t => (t.name, t))
  let (nodes, clashes) := registerAll shelf.nodes h.nodes .nodeType (fun _ => false) clashes
    (e.nodes.map fun d => (d.typeName, d))
  let (conversions, clashes) := registerAll shelf.conversions h.conversions (fun c => .conversion c.1 c.2)
    (fun _ => false) clashes e.conversions.entries
  let services := provideAll shelf.services h.services e.usualServices e.services
  ({ values := values, nodes := nodes, conversions := conversions, services := services },
    { values := values.size - 1, nodes := nodes.size - 1, conversions := conversions.size - 1,
      services := services.size - 1, clashes := clashes })

def read (shelf : Shelf) (h : Registry.Handle) : Registry :=
  { values := at_ shelf.values h.values, nodes := at_ shelf.nodes h.nodes
    conversions := at_ shelf.conversions h.conversions, services := at_ shelf.services h.services
    clashes := h.clashes }

/-- Carries extensions out one after the other. All registries on the way are kept, the first one included. -/
def chain (shelf : Shelf) (h : Registry.Handle) : List Extension → Shelf × List Registry.Handle
  | [] => (shelf, [h])
  | e :: es =>
    let (shelf, next) := shelf.extend h e
    let (shelf, rest) := shelf.chain next es
    (shelf, h :: rest)

/-- The tables of the registry without entries, and the registry. -/
def empty : Shelf := { values := #[{}], nodes := #[{}], conversions := #[{}], services := #[{}] }

@[inherit_doc empty]
def emptyHandle : Registry.Handle := { values := 0, nodes := 0, conversions := 0, services := 0 }

end Shelf

end FlowGraph
