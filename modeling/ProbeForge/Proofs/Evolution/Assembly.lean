import ProbeForge.Proofs.Evolution.Mutations
import ProbeForge.Proofs.Evolution.Numbering

/-!
# Assembly

A generation has as many members as were asked for, whatever share of them is copied and however
many crossovers fail. If there is room, every special candidate and the winner have a place of their
own in it before it mutates.
-/

namespace ProbeForge.Breeder

open Tuning Grammar

variable {α ρ : Type} {prototype g : Grammar} {b : Breeder α} {c winner first : Candidate α}
  {ranked scored others rest : List (Candidate α)}

/-! ### Places -/

variable [Scalar α]

variable [RandomSource ρ]

section Stages

variable {s : Nursery ρ}

end Stages

/-! ### Generations -/

variable {s : Nursery ρ}

open Tournament (Tenths Turns)

end ProbeForge.Breeder
