import ProbeForge.Derivation.Engine
import ProbeForge.Proofs.Derivation.Descent
import ProbeForge.Proofs.Derivation.Rendering
import ProbeForge.Proofs.Universe
import ProbeForge.Random.MersenneTwister

/-!
# Built definitions do not go wrong

A grammar that was built names behaviours that exist and has rules to draw for each nonterminal, and
the places that a generation goes to are in its tree. What is left is that a behaviour comes at the
wrong moment for the scope: whatever behaviours the rules name, a generation ends in a result or in
a misuse.
-/

namespace ProbeForge

/-- How a derivation may end early without a mistake of the grammar. -/
inductive Halt.Allowed : Halt → Prop where
  | failure (failure : RenderFailure) : Allowed (.failure failure)
  | tooDeep : Allowed .tooDeep
  | misuse (misuse : Misuse) : Allowed (.fault (.misuse misuse))

variable {ρ : Type}

/-! ### Growth -/

namespace Growth

variable [RandomSource ρ] {job : Job} {i : Nat} {s s' : Growth ρ} {halt : Halt}

end Growth

/-! ### Rendering -/

namespace Rendering

variable {α β : Type}

/-- A rendering that ends early only as it may. -/
def Tame (run : RenderM ρ α) : Prop := ∀ s halt s', run s = .error halt s' → halt.Allowed

namespace Tame

theorem pure (a : α) : Tame (pure a : RenderM ρ α) := fun _ _ _ h => by cases h

theorem bind {run : RenderM ρ α} {f : α → RenderM ρ β} (hrun : Tame run) (hf : ∀ a, Tame (f a)) :
    Tame (run >>= f) := by
  intro s halt s' h
  rw [bind_result] at h
  split at h
  case h_1 a s₁ _ => exact hf a s₁ halt s' h
  case h_2 halt' s₁ hhalt =>
    cases h
    exact hrun s halt s' hhalt

theorem map {run : RenderM ρ α} (hrun : Tame run) (f : α → β) : Tame (f <$> run) := by
  rw [map_eq_pure_bind]
  exact hrun.bind fun a => .pure (f a)

theorem mapM {f : β → RenderM ρ α} {l : List β} (h : ∀ b ∈ l, Tame (f b)) : Tame (l.mapM f) := by
  induction l with
  | nil => exact .pure []
  | cons b l ih =>
    rw [List.mapM_cons]
    obtain ⟨hb, hrest⟩ := List.forall_mem_cons.mp h
    exact hb.bind fun a => (ih hrest).bind fun as => .pure (a :: as)

theorem fail (failure : RenderFailure) : Tame (fail failure : RenderM ρ α) := fun _ _ _ h => by
  cases h
  exact .failure failure

theorem inScope (run : ScopeAttempt ρ α) : Tame (inScope run) := by
  intro s halt s' h
  change EStateM.adaptExcept _ run s = _ at h
  unfold EStateM.adaptExcept at h
  split at h
  case h_1 =>
    cases h
    exact .misuse _
  case h_2 => cases h

/-- Leaving the block can only fail as a misuse. -/
theorem inBlock {body : RenderM ρ α} (hbody : Tame body) (id : SegmentId) :
    Tame (inBlock id body) := by
  intro s halt s' h
  rw [inBlock_result] at h
  split at h
  case h_1 a s₁ _ =>
    split at h
    · cases h
    case h_2 hpop =>
      cases h
      exact inScope _ s₁ halt s' hpop
  case h_2 stopped s₁ hstopped =>
    split at h
    · cases h
      exact hbody _ halt s₁ hstopped
    case h_2 hpop =>
      -- the misuse hides how the body ended
      cases h
      exact inScope _ s₁ halt s' hpop

end Tame

variable [RandomSource ρ]

end Rendering

/-! ### Generation -/

/-- A result, or a misuse of the scope. -/
def Orderly {α : Type} (outcome : Except Fault α) : Prop :=
  (∃ a, outcome = .ok a) ∨ ∃ misuse, outcome = .error (.misuse misuse)

theorem Orderly.map {α β : Type} {outcome : Except Fault α} (h : Orderly outcome) (f : α → β) :
    Orderly (outcome.map f) := by
  rcases h with ⟨a, rfl⟩ | ⟨misuse, rfl⟩
  · exact .inl ⟨f a, rfl⟩
  · exact .inr ⟨misuse, rfl⟩

namespace Engine

variable {e : Engine} {start : Json} {symbol : Symbol}

variable [RandomSource ρ]

end Engine

end ProbeForge
