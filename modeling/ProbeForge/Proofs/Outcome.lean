import Mathlib.Data.List.Forall2
import ProbeForge.Fault

/-!
# Outcomes

How a computation that may be refused comes to succeed, one lemma for each way to combine them.
-/

namespace ProbeForge

section Except

variable {ε α β : Type}

theorem bind_ok {x : Except ε α} {f : α → Except ε β} {b : β} :
    x >>= f = .ok b ↔ ∃ a, x = .ok a ∧ f a = .ok b := by
  cases x <;> simp [bind, Except.bind]

theorem pure_ok {a b : α} : (pure a : Except ε α) = .ok b ↔ a = b := by
  simp [pure, Except.pure]

theorem map_ok {x : Except ε α} {f : α → β} {b : β} :
    x.map f = .ok b ↔ ∃ a, x = .ok a ∧ f a = b := by
  cases x <;> simp [Except.map]

theorem map_error {x : Except ε α} {f : α → β} {fault : ε} :
    x.map f = .error fault ↔ x = .error fault := by
  cases x <;> simp [Except.map]

theorem toOption_some {x : Except ε α} {a : α} : x.toOption = some a ↔ x = .ok a := by
  cases x <;> simp [Except.toOption]

theorem toOption_none {x : Except ε α} : x.toOption = none ↔ ∃ fault, x = .error fault := by
  cases x <;> simp [Except.toOption]

theorem exists_of_isOk {x : Except ε α} (h : x.isOk = true) : ∃ a, x = .ok a := by
  cases x with
  | ok a => exact ⟨a, rfl⟩
  | error fault => cases h

@[simp] theorem refuse_ok {cause : Misconfiguration} {a : α} :
    (refuse cause : Except Fault α) = .ok a ↔ False :=
  ⟨fun h => (nomatch h), fun h => h.elim⟩

/-- What every step of a fold preserves holds at its end. -/
theorem foldlM_ok {P : β → Prop} {f : β → α → Except ε β} {l : List α}
    (step : ∀ b b' a, a ∈ l → f b a = .ok b' → P b → P b') {b b' : β}
    (h : l.foldlM f b = .ok b') (hb : P b) : P b' := by
  induction l generalizing b with
  | nil =>
    cases h
    exact hb
  | cons a l ih =>
    rw [List.foldlM_cons, bind_ok] at h
    obtain ⟨c, hc, h⟩ := h
    exact ih (fun b b' x hx => step b b' x (List.mem_cons_of_mem _ hx)) h
      (step b c a List.mem_cons_self hc hb)

/-- A fold through some elements after others that are done. -/
theorem foldlM_prefix {P : List α → β → Prop} {f : β → α → Except ε β} {l : List α}
    (step : ∀ done b b' a, a ∈ l → f b a = .ok b' → P done b → P (done ++ [a]) b')
    (done : List α) {b b' : β} (h : l.foldlM f b = .ok b') (hb : P done b) : P (done ++ l) b' := by
  induction l generalizing done b with
  | nil =>
    cases h
    rwa [List.append_nil]
  | cons a l ih =>
    rw [List.foldlM_cons, bind_ok] at h
    obtain ⟨c, hc, h⟩ := h
    have hrest := ih (fun done b b' x hx => step done b b' x (List.mem_cons_of_mem _ hx)) _ h
      (step done b c a List.mem_cons_self hc hb)
    rwa [List.append_assoc] at hrest

/-- A fold in which nothing is refused ends. -/
theorem foldlM_total {f : β → α → Except ε β} {l : List α}
    (h : ∀ a ∈ l, ∀ b, ∃ b', f b a = .ok b') (b : β) : ∃ b', l.foldlM f b = .ok b' := by
  induction l generalizing b with
  | nil => exact ⟨b, rfl⟩
  | cons a l ih =>
    obtain ⟨b₁, hfirst⟩ := h a List.mem_cons_self b
    obtain ⟨b', hrest⟩ := ih (fun x hx => h x (List.mem_cons_of_mem _ hx)) b₁
    exact ⟨b', List.foldlM_cons.trans (bind_ok.mpr ⟨b₁, hfirst, hrest⟩)⟩

/-- A traversal in which nothing is refused is a map. -/
theorem mapM_eq_map {f : α → Except ε β} {g : α → β} {l : List α} (h : ∀ a ∈ l, f a = .ok (g a)) :
    l.mapM f = .ok (l.map g) := by
  induction l with
  | nil => rfl
  | cons a l ih =>
    rw [List.mapM_cons, h a List.mem_cons_self, ih fun x hx => h x (List.mem_cons_of_mem _ hx)]
    rfl

end Except

section Attempt

variable {σ α β : Type} {s s' : σ}

theorem attempt_bind_ok {x : Attempt σ α} {f : α → Attempt σ β} {b : β} :
    (x >>= f) s = .ok b s' ↔ ∃ a s₁, x s = .ok a s₁ ∧ f a s₁ = .ok b s' := by
  change (EStateM.bind x f) s = _ ↔ _
  unfold EStateM.bind
  cases x s with
  | ok a s₁ =>
    refine ⟨fun h => ⟨a, s₁, rfl, h⟩, ?_⟩
    rintro ⟨a', s₁', h, hf⟩
    cases h
    exact hf
  | error fault s₁ => simp

theorem attempt_bind_eq {x : Attempt σ α} {a : α} (h : x s = .ok a s') (f : α → Attempt σ β) :
    (x >>= f) s = f a s' := by
  change (EStateM.bind x f) s = _
  unfold EStateM.bind
  rw [h]

theorem attempt_lift_eq {x : Except Fault α} {a : α} (h : x = .ok a) :
    (liftM x : Attempt σ α) s = .ok a s := by
  subst h
  rfl

theorem attempt_pure_ok {a b : α} : (pure a : Attempt σ α) s = .ok b s' ↔ a = b ∧ s = s' := by
  change EStateM.Result.ok a s = _ ↔ _
  simp

theorem attempt_lift_ok {x : Except Fault α} {a : α} :
    (liftM x : Attempt σ α) s = .ok a s' ↔ x = .ok a ∧ s = s' := by
  cases x
  · exact ⟨fun h => (nomatch h), fun h => (nomatch h.1)⟩
  · refine ⟨fun h => ?_, fun ⟨h, hs⟩ => ?_⟩
    · cases h
      exact ⟨rfl, rfl⟩
    · cases h
      cases hs
      rfl

theorem attempt_on_ok {τ : Type} {part : σ → τ} {put : τ → σ → σ} {run : Attempt τ α} {a : α} :
    Attempt.on part put run s = .ok a s' ↔ ∃ t, run (part s) = .ok a t ∧ put t s = s' := by
  unfold Attempt.on
  cases run (part s) with
  | ok b t => simp [and_assoc]
  | error fault t => simp

/-- A traversal relates every element to its result if each step does, from the states that the steps
before it may leave. -/
theorem attempt_mapM_forall₂ {f : α → Attempt σ β} {R : α → β → Prop} {I : σ → Prop} {l : List α}
    (step : ∀ a ∈ l, ∀ s b s', I s → f a s = .ok b s' → R a b ∧ I s') (hs : I s) {bs : List β}
    (h : l.mapM f s = .ok bs s') : List.Forall₂ R l bs ∧ I s' := by
  induction l generalizing s bs with
  | nil =>
    rw [List.mapM_nil, attempt_pure_ok] at h
    obtain ⟨rfl, rfl⟩ := h
    exact ⟨.nil, hs⟩
  | cons a l ih =>
    rw [List.mapM_cons, attempt_bind_ok] at h
    obtain ⟨b, s₁, hb, h⟩ := h
    obtain ⟨bs, s₂, hbs, h⟩ := attempt_bind_ok.mp h
    obtain ⟨rfl, rfl⟩ := attempt_pure_ok.mp h
    obtain ⟨hfirst, hs₁⟩ := step a List.mem_cons_self s b s₁ hs hb
    obtain ⟨hrest, hs₂⟩ := ih (fun a ha => step a (List.mem_cons_of_mem _ ha)) hs₁ hbs
    exact ⟨.cons hfirst hrest, hs₂⟩

/-- What every element of a traversal has to satisfy holds of all its results, and what every
element preserves of the state holds at its end. -/
theorem attempt_mapM_ok {f : α → Attempt σ β} {P : β → Prop} {I : σ → Prop} {l : List α}
    (step : ∀ a ∈ l, ∀ s b s', I s → f a s = .ok b s' → P b ∧ I s') (hs : I s) {bs : List β}
    (h : l.mapM f s = .ok bs s') : (∀ b ∈ bs, P b) ∧ I s' := by
  obtain ⟨hall, hs'⟩ := attempt_mapM_forall₂ (R := fun _ b => P b ∧ True)
    (fun a ha s b s' hs hb => (step a ha s b s' hs hb).imp_left (⟨·, trivial⟩)) hs h
  exact ⟨((List.forall₂_and_left _ _).mp hall.flip).1, hs'⟩

/-- A traversal that keeps something of every element keeps it of the list. -/
theorem attempt_mapM_map {γ : Type} {f : α → Attempt σ β} {g : β → γ} {k : α → γ} {I : σ → Prop}
    {l : List α} (step : ∀ a ∈ l, ∀ s b s', I s → f a s = .ok b s' → g b = k a ∧ I s') (hs : I s)
    {bs : List β} (h : l.mapM f s = .ok bs s') : bs.map g = l.map k ∧ I s' := by
  obtain ⟨hall, hs'⟩ := attempt_mapM_forall₂ step hs h
  have hsame : List.Forall₂ (· = ·) (bs.map g) (l.map k) :=
    List.forall₂_map_left_iff.mpr (List.forall₂_map_right_iff.mpr hall.flip)
  exact ⟨List.forall₂_eq_eq_eq ▸ hsame, hs'⟩

/-- What every step of a loop preserves of the state holds at its end. -/
theorem attempt_forM_ok {f : α → Attempt σ Unit} {P : σ → Prop} {l : List α}
    (step : ∀ a ∈ l, ∀ s s', P s → f a s = .ok () s' → P s') (hs : P s)
    (h : l.forM f s = .ok () s') : P s' := by
  induction l generalizing s with
  | nil =>
    obtain ⟨-, rfl⟩ := attempt_pure_ok.mp h
    exact hs
  | cons a l ih =>
    obtain ⟨⟨⟩, s₁, hfirst, h⟩ := attempt_bind_ok.mp h
    exact ih (fun a ha => step a (List.mem_cons_of_mem _ ha))
      (step a List.mem_cons_self s s₁ hs hfirst) h

end Attempt

/-! ### Either outcome -/

section After

variable {ε σ α β : Type} {I : σ → Prop}

/-- The state that a run leaves, whether or not it succeeds. -/
def after (x : EStateM ε σ α) (s : σ) : σ :=
  match x s with
  | .ok _ s' | .error _ s' => s'

/-- What held before a run holds after it, whether or not it succeeds. -/
def Maintains (I : σ → Prop) (x : EStateM ε σ α) : Prop := ∀ s, I s → I (after x s)

theorem after_ok {x : EStateM ε σ α} {a : α} {s s' : σ} (h : x s = .ok a s') : after x s = s' := by
  unfold after
  rw [h]

theorem after_map (x : EStateM ε σ α) (f : α → β) (s : σ) : after (f <$> x) s = after x s := by
  change after (EStateM.map f x) s = after x s
  unfold after EStateM.map
  cases x s <;> rfl

theorem after_bind (x : EStateM ε σ α) (f : α → EStateM ε σ β) (s : σ) :
    after (x >>= f) s = match x s with
      | .ok a s' => after (f a) s'
      | .error _ s' => s' := by
  change after (EStateM.bind x f) s = _
  unfold after EStateM.bind
  cases x s <;> rfl

theorem maintains_throw (e : ε) : Maintains I (throw e : EStateM ε σ α) := fun _ hs => hs

theorem maintains_lift (x : Except Fault α) : Maintains I (liftM x : Attempt σ α) := by
  intro s hs
  cases x <;> exact hs

theorem Maintains.bind {x : EStateM ε σ α} {f : α → EStateM ε σ β} (hx : Maintains I x)
    (hf : ∀ a, Maintains I (f a)) : Maintains I (x >>= f) := by
  intro s hs
  have hfirst := hx s hs
  unfold after at hfirst
  rw [after_bind]
  cases hrun : x s with
  | ok a s₁ =>
    rw [hrun] at hfirst
    exact hf a s₁ hfirst
  | error e s₁ =>
    rw [hrun] at hfirst
    exact hfirst

end After

end ProbeForge
