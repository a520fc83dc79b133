/-!
# Ordered maps

Tables whose order of entries shows in the answers. Assigning to a key that is present keeps its
place, a new key goes to the end, and removing a key and assigning again moves it there.
-/

namespace ProbeForge

structure OrderedMap (κ ν : Type) where
  entries : List (κ × ν)
deriving Repr, DecidableEq

namespace OrderedMap

variable {κ ν : Type}

instance : Inhabited (OrderedMap κ ν) := ⟨⟨[]⟩⟩

instance : EmptyCollection (OrderedMap κ ν) := ⟨⟨[]⟩⟩

def toList (m : OrderedMap κ ν) : List (κ × ν) := m.entries

def keys (m : OrderedMap κ ν) : List κ := m.entries.map (·.1)

def values (m : OrderedMap κ ν) : List ν := m.entries.map (·.2)

def size (m : OrderedMap κ ν) : Nat := m.entries.length

def isEmpty (m : OrderedMap κ ν) : Bool := m.entries.isEmpty

def mapValues {μ : Type} (f : ν → μ) (m : OrderedMap κ ν) : OrderedMap κ μ :=
  ⟨m.entries.map fun (k, v) => (k, f v)⟩

variable [DecidableEq κ]

def find? (m : OrderedMap κ ν) (k : κ) : Option ν := m.entries.lookup k

def contains (m : OrderedMap κ ν) (k : κ) : Bool := (m.find? k).isSome

def assign (k : κ) (v : ν) : List (κ × ν) → List (κ × ν)
  | [] => [(k, v)]
  | (k', v') :: rest => if k' = k then (k', v) :: rest else (k', v') :: assign k v rest

def insert (m : OrderedMap κ ν) (k : κ) (v : ν) : OrderedMap κ ν := ⟨assign k v m.entries⟩

def erase (m : OrderedMap κ ν) (k : κ) : OrderedMap κ ν := ⟨m.entries.filter (·.1 ≠ k)⟩

def ofList (pairs : List (κ × ν)) : OrderedMap κ ν :=
  pairs.foldl (fun m (k, v) => m.insert k v) ∅

/-- One more at `k`, or `n` of them. -/
def count (m : OrderedMap κ Int) (k : κ) (n : Int) : OrderedMap κ Int :=
  m.insert k ((m.find? k).getD 0 + n)

/-- The counts of `other` added to those of `m`. -/
def countAll (m other : OrderedMap κ Int) : OrderedMap κ Int :=
  other.entries.foldl (fun m (k, n) => m.count k n) m

end OrderedMap

end ProbeForge
