import ProbeForge.Numeric.Scalar

/-!
# Grids

Rectangular tables of scalars whose bounds are in the type, so no entry is looked up in vain. Sums
run from the first entry to the last.
-/

namespace ProbeForge

structure Grid (α : Type) (m n : Nat) where
  rows : Vector (Vector α n) m

namespace Grid

variable {α : Type} {m n k : Nat}

@[inline] def ofFn (f : Fin m → Fin n → α) : Grid α m n := ⟨.ofFn fun i => .ofFn fun j => f i j⟩

def row (a : Grid α m n) (i : Fin m) : Vector α n := a.rows[i]

def entry (a : Grid α m n) (i : Fin m) (j : Fin n) : α := a.rows[i][j]

def setRow (a : Grid α m n) (i : Fin m) (row : Vector α n) : Grid α m n :=
  ⟨a.rows.set i row i.isLt⟩

def toLists (a : Grid α m n) : List (List α) := a.rows.toList.map (·.toList)

@[simp] theorem entry_ofFn (f : Fin m → Fin n → α) (i : Fin m) (j : Fin n) :
    (ofFn f).entry i j = f i j := by
  simp [ofFn, entry]

@[simp] theorem row_setRow_self (a : Grid α m n) (i : Fin m) (r : Vector α n) :
    (a.setRow i r).row i = r := by
  simp [setRow, row]

theorem row_setRow_of_ne (a : Grid α m n) {i j : Fin m} (r : Vector α n) (h : i ≠ j) :
    (a.setRow i r).row j = a.row j := by
  have : i.val ≠ j.val := fun e => h (Fin.ext e)
  simp [setRow, row, this]

variable [Scalar α]

@[specialize] def total (f : Fin n → α) : α := Fin.foldl n (fun sum k => sum + f k) 0

@[specialize] def dot (x y : Vector α n) : α := total fun k : Fin n => x[k] * y[k]

/-- A row times a grid. -/
@[specialize] def combine (x : Vector α m) (a : Grid α m n) : Vector α n :=
  .ofFn fun j => total fun i : Fin m => x[i] * a.rows[i][j]

/-- A grid times a column. -/
@[specialize] def apply (a : Grid α m n) (x : Vector α n) : Vector α m :=
  .ofFn fun i => dot a.rows[i] x

@[specialize] def mul (a : Grid α m k) (b : Grid α k n) : Grid α m n :=
  ⟨a.rows.map (combine · b)⟩

/-- One more on the diagonal. -/
@[specialize] def shift (a : Grid α n n) : Grid α n n :=
  ofFn fun i j => if i = j then a.entry i j + 1 else a.entry i j

/-- The entries above zero. -/
@[specialize] def pattern (a : Grid α m n) : Grid Bool m n :=
  ofFn fun i j => decide (0 < a.entry i j)

end Grid

end ProbeForge
