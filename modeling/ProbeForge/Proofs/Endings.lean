import Mathlib.Data.List.Forall2
import ProbeForge.Proofs.Outcome

/-!
# How attempts end

What an attempt leaves is said for both of its ends at once: for the result and for the fault, each
with the state that goes with it. A statement about an attempt is put together from those about its
steps.
-/

namespace ProbeForge

variable {σ α β : Type} {P P' : Fault → σ → Prop} {Q R : α → σ → Prop} {T : β → σ → Prop}
  {x : Attempt σ α} {s : σ}

/-- A run ends with a result and a state as `Q` says, or with a fault and a state as `P` says. -/
def Ends (P : Fault → σ → Prop) (Q : α → σ → Prop) (x : Attempt σ α) (s : σ) : Prop :=
  match x s with
  | .ok a s' => Q a s'
  | .error fault s' => P fault s'

theorem Ends.ok (h : Ends P Q x s) {a : α} {s' : σ} (hrun : x s = .ok a s') : Q a s' := by
  unfold Ends at h
  rwa [hrun] at h

theorem Ends.fault (h : Ends P Q x s) {fault : Fault} {s' : σ} (hrun : x s = .error fault s') :
    P fault s' := by
  unfold Ends at h
  rwa [hrun] at h

theorem ends_iff : Ends P Q x s ↔
    (∀ a s', x s = .ok a s' → Q a s') ∧ ∀ fault s', x s = .error fault s' → P fault s' := by
  refine ⟨fun h => ⟨fun a s' => h.ok, fun fault s' => h.fault⟩, fun ⟨hQ, hP⟩ => ?_⟩
  unfold Ends
  cases hrun : x s with
  | ok a s' => exact hQ a s' hrun
  | error fault s' => exact hP fault s' hrun

theorem ends_of_ok {a : α} {s' : σ} (hrun : x s = .ok a s') (h : Q a s') : Ends P Q x s := by
  unfold Ends
  rwa [hrun]

theorem Ends.mono (h : Ends P Q x s) (hP : ∀ fault s', P fault s' → P' fault s')
    (hQ : ∀ a s', x s = .ok a s' → Q a s' → R a s') : Ends P' R x s :=
  ends_iff.mpr ⟨fun a s' hrun => hQ a s' hrun (h.ok hrun),
    fun fault s' hrun => hP fault s' (h.fault hrun)⟩

theorem Ends.also (h : Ends P Q x s) (hR : ∀ a s', x s = .ok a s' → Q a s' → R a s') :
    Ends P R x s :=
  h.mono (fun _ _ hP => hP) hR

theorem Ends.bind {f : α → Attempt σ β} (hx : Ends P Q x s)
    (hf : ∀ a s', Q a s' → Ends P T (f a) s') : Ends P T (x >>= f) s := by
  change (match EStateM.bind x f s with | .ok b s' => T b s' | .error fault s' => P fault s')
  unfold EStateM.bind
  unfold Ends at hx
  cases hrun : x s with
  | ok a s' =>
    rw [hrun] at hx
    exact hf a s' hx
  | error fault s' =>
    rw [hrun] at hx
    exact hx

theorem ends_pure {a : α} (h : Q a s) : Ends P Q (pure a) s := h

theorem ends_bind_of_ok {f : α → Attempt σ β} {a : α} {s' : σ} (hrun : x s = .ok a s')
    (hf : Ends P T (f a) s') : Ends P T (x >>= f) s := by
  unfold Ends at hf ⊢
  rwa [attempt_bind_eq hrun]

theorem ends_lift_bind {y : Except Fault α} {f : α → Attempt σ β}
    (hP : ∀ fault, y = .error fault → P fault s) (hf : ∀ a, y = .ok a → Ends P T (f a) s) :
    Ends P T (liftM y >>= f) s := by
  cases y with
  | ok a => exact hf a rfl
  | error fault => exact hP fault rfl

/-- A loop keeps what each of its steps keeps. -/
theorem ends_forM {I : σ → Prop} {f : β → Attempt σ Unit} {l : List β}
    (step : ∀ b ∈ l, ∀ s, I s → Ends P (fun _ s' => I s') (f b) s) (hs : I s) :
    Ends P (fun _ s' => I s') (l.forM f) s := by
  induction l generalizing s with
  | nil => exact hs
  | cons b l ih =>
    exact (step b List.mem_cons_self s hs).bind fun _ s' hs' =>
      ih (fun c hc => step c (List.mem_cons_of_mem _ hc)) hs'

end ProbeForge
