import ProbeForge.Grammar.Weights

/-!
# Tuning

The state of an operation that changes a grammar's weights and draws random numbers. What it changed
before a fault stays changed.
-/

namespace ProbeForge

structure Tuning (ρ : Type) where
  grammar : Grammar
  source : ρ

namespace Tuning

variable {ρ β : Type}

def current : Attempt (Tuning ρ) Grammar := fun s => .ok s.grammar s

/-- Changes the grammar unless the change is refused. -/
def change (f : Grammar → Except Fault Grammar) : Attempt (Tuning ρ) Unit := fun s =>
  match f s.grammar with
  | .ok grammar => .ok () { s with grammar }
  | .error fault => .error fault s

def draw (f : ρ → β × ρ) : Attempt (Tuning ρ) β := fun s =>
  let (b, source) := f s.source
  .ok b { s with source }

def drawOrFail (f : ρ → Except Fault β × ρ) : Attempt (Tuning ρ) β := fun s =>
  match f s.source with
  | (.ok b, source) => .ok b { s with source }
  | (.error fault, source) => .error fault { s with source }

/-- Writes a gene, or as much of it as can be written. -/
def write (gene : Grammar.Gene) : Attempt (Tuning ρ) Unit :=
  Attempt.on (·.grammar) (fun grammar s => { s with grammar }) fun g =>
    Attempt.settle (g.updateGene gene) g

end Tuning

end ProbeForge
