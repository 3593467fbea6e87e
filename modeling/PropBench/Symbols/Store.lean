import PropBench.Symbols.Table

/-!
# Symbols — Store

The definitions of a namespace, kept for three kinds of question: what a name means, what lies
under a key, and what has been declared in which order.

* `SlotMap`: slots that keep values under keys which they give out.  `SlotMap.growing` fills one
  slot after the other.
* `Store`: the definitions in slots, the key of each declared name, and the declared names with
  their keys in order.
* `Store.declare` adds a definition under a name that has none; if the name has one, the store stays
  as it is.
-/

namespace PropBench

/-! ### Slots -/

/-- Slots for values, each of which is kept under a key. -/
structure SlotMap (Slots Key α : Type) where
  empty : Slots
  /-- The key of the slot that a value is put into, and the slots with it. -/
  insert : Slots → α → Key × Slots
  get? : Slots → Key → Option α
  size : Slots → Nat
  isEmpty : Slots → Bool

/-- The number of a slot, counted from one, and how often it has been filled. -/
structure SlotKey where
  index : Nat
  version : Nat
  deriving DecidableEq, Repr, Inhabited

/-- Slots that are filled one after the other, and none of them twice. -/
def SlotMap.growing (α : Type) : SlotMap (Array α) SlotKey α where
  empty := #[]
  insert slots a := (⟨slots.size + 1, 1⟩, slots.push a)
  get? slots key :=
    if key.index ≠ 0 ∧ key.version = 1 then slots[key.index - 1]? else none
  size slots := slots.size
  isEmpty slots := slots.isEmpty

/-! ### Stores -/

/-- The definitions of a namespace, with their names and keys. -/
structure Store {Slots Key α : Type} (space : Namespace) (slots : SlotMap Slots Key α) where
  definitions : Slots := slots.empty
  names : String → Option Key := fun _ => none
  order : List (String × Key) := []

namespace Store

variable {Slots Key α : Type} {space : Namespace} {slots : SlotMap Slots Key α}

/-- A name has been declared. -/
def contains (s : Store space slots) (name : String) : Bool := (s.names name).isSome

/-- The store with one more definition, and its key. -/
def add (s : Store space slots) (name : String) (a : α) : Key × Store space slots :=
  let (key, definitions) := slots.insert s.definitions a
  (key,
    { definitions
      names := fun n => if n = name then some key else s.names n
      order := s.order ++ [(name, key)] })

/-- Adds a definition of a name that has none; gives its key. -/
def declare (s : Store space slots) (name : String) (a : α) :
    Except Fault Key × Store space slots :=
  if s.contains name then
    (.error (.duplicate space name), s)
  else
    let (key, t) := s.add name a
    (.ok key, t)

/-- The definition of a name. -/
def resolve (s : Store space slots) (name : String) : Except Fault α :=
  match (s.names name).bind (slots.get? s.definitions) with
  | some a => .ok a
  | none => .error (.unknown space name)

/-- The definition with a key. -/
def get? (s : Store space slots) (key : Key) : Option α := slots.get? s.definitions key

/-- The number of definitions a store keeps. -/
def size (s : Store space slots) : Nat := slots.size s.definitions

/-- Whether a store keeps no definition. -/
def isEmpty (s : Store space slots) : Bool := slots.isEmpty s.definitions

/-- The declared names with their definitions, in order. -/
def list (s : Store space slots) : List (String × α) :=
  s.order.filterMap fun e => (slots.get? s.definitions e.2).map (e.1, ·)

end Store

end PropBench
