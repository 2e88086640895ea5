/-
Registries of named things.

Names are compared without regard to the case of the letters A to Z; other letters count as they are. A builder takes
entries one by one and refuses a name that it has; a registry answers by name and lists its entries in the order they
came. The index from folded names to positions is kept in the order of the names.
-/
import PostQuantum.Text.Quoted

namespace PostQuantum

/-- the letters A to Z made small, all else as it is -/
def foldCase (s : String) : String := String.ofList (s.toList.map Char.toLower)

namespace Registry

/-- entries, and the position of each under its folded name -/
structure Table (α : Type) where
  entries : List α
  index : List (String × Nat)

/-- `key` with its position, before the first greater key -/
def insertKey (key : String) (position : Nat) : List (String × Nat) → List (String × Nat)
  | [] => [(key, position)]
  | e :: index => if key < e.1 then (key, position) :: e :: index else e :: insertKey key position index

/-- how a table is shown, under a title -/
def Table.text {α : Type} (title : String) (show1 : α → String) (t : Table α) : String :=
  let entries := ", ".intercalate (t.entries.map show1)
  let index := ", ".intercalate (t.index.map fun e => Text.quoted e.1 ++ ": " ++ toString e.2)
  title ++ " \x7b schemes: [" ++ entries ++ "], index: \x7b" ++ index ++ "\x7d \x7d"

/-- a registry that is still being filled -/
structure Builder (α : Type) where
  table : Table α

end Registry

/-- a registry that is complete -/
structure Registry (α : Type) where
  table : Registry.Table α

namespace Registry

variable {α ε : Type}

def Builder.empty : Builder α := ⟨⟨[], []⟩⟩

/-- add an entry under its name, or report the name if it is taken -/
def Builder.register (name : α → String) (taken : String → ε) (b : Builder α) (x : α) : Except ε (Builder α) :=
  let key := foldCase (name x)
  match b.table.index.lookup key with
  | some _ => .error (taken (name x))
  | none => .ok ⟨⟨b.table.entries ++ [x], insertKey key b.table.entries.length b.table.index⟩⟩

/-- add entries in order, up to the first that is refused -/
def Builder.registerAll (name : α → String) (taken : String → ε) : Builder α → List α → Except ε (Builder α)
  | b, [] => .ok b
  | b, x :: xs =>
    match b.register name taken x with
    | .ok b => registerAll name taken b xs
    | .error e => .error e

def Builder.build (b : Builder α) : Registry α := ⟨b.table⟩

/-- the entry registered under `name` -/
def lookup (r : Registry α) (name : String) : Option α :=
  match r.table.index.lookup (foldCase name) with
  | some i => r.table.entries[i]?
  | none => none

/-- the entries in the order they were registered -/
def entries (r : Registry α) : List α := r.table.entries

def names (name : α → String) (r : Registry α) : List String := r.entries.map name

def size (r : Registry α) : Nat := r.entries.length

def isEmpty (r : Registry α) : Bool := r.entries.isEmpty

def Builder.text (show1 : α → String) (b : Builder α) : String := b.table.text "RegistryBuilder" show1

def text (show1 : α → String) (r : Registry α) : String := r.table.text "Registry" show1

end Registry

end PostQuantum
