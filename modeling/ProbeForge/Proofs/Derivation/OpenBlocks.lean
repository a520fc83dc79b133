import ProbeForge.Proofs.Derivation.Rendering
import ProbeForge.Proofs.Scope.Fields

/-!
# Open blocks while a tree is rendered

Only growth opens and closes blocks for good. A rendering enters a block and leaves it again, also
when it is given up on the way, so the stack of open blocks is the same at every end of a rendering.
-/

namespace ProbeForge

namespace Scope

variable {ρ ε α β : Type} {id : SegmentId}

/-- The same blocks are open after the operation, whether or not it succeeds. -/
def Restores (x : EStateM ε (Scope ρ) α) : Prop :=
  ∀ stack, Maintains (fun s => s.catalog.stack = stack) x

theorem restores_pure (a : α) : Restores (pure a : EStateM ε (Scope ρ) α) := fun _ _ hs => hs

theorem restores_throw (e : ε) : Restores (throw e : EStateM ε (Scope ρ) α) :=
  fun _ => maintains_throw e

theorem Restores.bind {x : EStateM ε (Scope ρ) α} {f : α → EStateM ε (Scope ρ) β}
    (hx : Restores x) (hf : ∀ a, Restores (f a)) : Restores (x >>= f) := fun stack =>
  (hx stack).bind fun a => hf a stack

theorem Restores.map {x : EStateM ε (Scope ρ) α} (hx : Restores x) (f : α → β) :
    Restores (f <$> x) := fun stack s hs => by
  rw [after_map]
  exact hx stack s hs

theorem restores_mapM {f : β → EStateM ε (Scope ρ) α} (hf : ∀ b, Restores (f b)) (l : List β) :
    Restores (l.mapM f) := by
  induction l with
  | nil => exact restores_pure []
  | cons b l ih =>
    rw [List.mapM_cons]
    exact (hf b).bind fun _ => ih.bind fun _ => restores_pure _

end Scope

/-! ### Rendering -/

namespace Rendering

open Scope

variable {ρ α : Type} {tree : Tree} {u : Universe} {render : Nat → RenderM ρ String}

/-- A request for a name opens and closes no block. -/
theorem inScope_restores {x : ScopeAttempt ρ α} (hx : Confined x) : Restores (inScope x) := by
  intro stack s hs
  have hafter := (hx.sameField .nothing s).stack_eq.trans hs
  unfold after at hafter
  unfold after inScope EStateM.adaptExcept
  cases hrun : x s with
  | ok a s' | error misuse s' =>
    rw [hrun] at hafter
    exact hafter

/-- The block that was entered is the one that is left, whatever the body came to. -/
theorem inBlock_restores {body : RenderM ρ α} (hbody : Restores body) (id : SegmentId) :
    Restores (inBlock id body) := by
  intro stack s hs
  have hentered := hbody (id :: stack) (enter id s).2 (congrArg (id :: ·) hs)
  unfold after at hentered
  unfold after
  rw [inBlock_result]
  cases hrun : body (enter id s).2 with
  | ok a s' | error halt s' =>
    rw [hrun] at hentered
    dsimp only
    rw [inScope_ok (pop_run hentered)]

theorem blocksFirst_restores (hrender : ∀ i, Restores (render i)) (children : List Nat) :
    Restores (blocksFirst tree children render) :=
  (restores_mapM (fun _ => (hrender _).bind fun _ => restores_pure _) _).bind
    fun _ => restores_pure _

variable [RandomSource ρ]

theorem represent_restores (hrender : ∀ i, Restores (render i)) (node : Node)
    (representer : Representer) : Restores (represent tree u node render representer) := by
  have hchildren : Restores (node.children.mapM render) := restores_mapM hrender _
  cases representer with
  | spaced | tight | tightUnary | tightBinary | tightParen => exact hchildren.map _
  | commaList => exact hchildren.bind fun _ => restores_pure _
  | unimplemented => exact restores_throw _
  | payloadText =>
    simp only [represent]
    split
    · exact hchildren.map _
    · exact fun _ _ hs => hs
  | payloadName | payloadSchema | sequenceLiteral =>
    simp only [represent]
    split
    · exact restores_pure _
    · exact restores_throw _
  | sourcesFirst => exact (blocksFirst_restores hrender _).map _
  | outputColumn =>
    exact hchildren.bind fun _ => (inScope_restores exportColumn_onColumn.confined).bind
      fun _ => restores_pure _
  | tableName => exact inScope_restores chooseTable_confined
  | tableAlias => exact inScope_restores chooseAlias_confined
  | columnName => exact inScope_restores chooseColumn_confined
  | columnRef =>
    exact (inScope_restores chooseAlias_confined).bind fun _ =>
      (inScope_restores chooseColumn_confined).bind fun _ => restores_pure _
  | columnAlias => exact inScope_restores chooseColumnAlias_onColumn.confined
  | schemaName => exact inScope_restores (chooseSchema_confined u)
  | block =>
    simp only [represent]
    split
    · exact restores_throw _
    · exact inBlock_restores (hchildren.map _) _
  | blockEnd => exact restores_pure ""

theorem render_restores (g : Grammar) (tree : Tree) (u : Universe) (levels i : Nat) :
    Restores (Rendering.render (ρ := ρ) g tree u levels i) := by
  induction levels generalizing i with
  | zero => exact restores_throw _
  | succ levels ih =>
    unfold Rendering.render
    split
    · exact restores_throw _
    · split
      · split
        · exact represent_restores ih _ _
        · exact restores_throw _
      · exact restores_pure _

/-- Whatever tree is rendered in whatever scope, and whether that ends with a text, a failure or a
fault, the same blocks are open afterwards, in the same order. -/
theorem stack_after_render (g : Grammar) (tree : Tree) (u : Universe) (levels i : Nat)
    (s : Scope ρ) :
    (after (Rendering.render g tree u levels i) s).catalog.stack = s.catalog.stack :=
  render_restores g tree u levels i s.catalog.stack s rfl

end Rendering

end ProbeForge
