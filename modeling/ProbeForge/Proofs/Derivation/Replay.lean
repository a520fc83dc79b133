import ProbeForge.Proofs.Derivation.Turns

/-!
# A growth read off its tree

The turns of a complete growth go through the finished tree, each node before its children and the
children in their order. What the growth did to the scope is so a matter of what the generators did
at the nodes of one fixed tree.
-/

namespace ProbeForge

/-! ### Chains of steps -/

/-- Steps for the members of a list, each from where the one before it ended. -/
inductive Chain {α σ : Type} (R : α → σ → σ → Prop) : List α → σ → σ → Prop where
  | nil {s : σ} : Chain R [] s s
  | cons {a : α} {l : List α} {s s₁ s' : σ} (head : R a s s₁) (tail : Chain R l s₁ s') :
      Chain R (a :: l) s s'

namespace Chain

variable {α σ : Type} {R R' : α → σ → σ → Prop} {l l' : List α} {a : α} {s s' : σ}

theorem split (h : Chain R (l ++ l') s s') : ∃ s₁, Chain R l s s₁ ∧ Chain R l' s₁ s' := by
  induction l generalizing s with
  | nil => exact ⟨s, .nil, h⟩
  | cons a l ih =>
    cases h with
    | cons head tail =>
      obtain ⟨s₁, hl, hl'⟩ := ih tail
      exact ⟨s₁, .cons head hl, hl'⟩

theorem imp (himp : ∀ a ∈ l, ∀ s s', R a s s' → R' a s s') (h : Chain R l s s') :
    Chain R' l s s' := by
  induction h with
  | nil => exact .nil
  | cons head tail ih =>
    exact .cons (himp _ List.mem_cons_self _ _ head)
      (ih fun a ha => himp a (List.mem_cons_of_mem _ ha))

/-- What every step keeps is kept by the chain. -/
theorem keeps {P : σ → Prop} (step : ∀ a ∈ l, ∀ s s', P s → R a s s' → P s')
    (h : Chain R l s s') (start : P s) : P s' := by
  induction h with
  | nil => exact start
  | cons head tail ih =>
    exact ih (fun a ha => step a (List.mem_cons_of_mem _ ha))
      (step _ List.mem_cons_self _ _ start head)

/-- What the steps before make true holds at each step. -/
theorem within {P : α → σ → Prop} (h : Chain R l s s')
    (holds : ∀ before a after s₁, l = before ++ a :: after → Chain R before s s₁ → P a s₁) :
    Chain (fun a s s' => P a s ∧ R a s s') l s s' := by
  induction h with
  | nil => exact .nil
  | @cons a l s s₁ s' head tail ih =>
    refine .cons ⟨holds [] a l s rfl .nil, head⟩ (ih fun before b after s₂ hparts hbefore => ?_)
    exact holds (a :: before) b after s₂ (congrArg (a :: ·) hparts) (.cons head hbefore)

theorem singleton (h : Chain R [a] s s') : R a s s' := by
  cases h with
  | cons head tail =>
    cases tail
    exact head

end Chain

variable {ρ : Type} [RandomSource ρ] {g : Grammar} {u : Universe} {t : Tree}

/-! ### Replays -/

/-- The growth of the tree below `i`, over a number of levels, took the scope from `s` to `s'`. -/
def Replays (g : Grammar) (u : Universe) (t : Tree) : Nat → Nat → Scope ρ → Scope ρ → Prop
  | 0, _, _, _ => False
  | levels + 1, i, s, s' => ∃ n, t.nodes[i]? = some n ∧
    (n.isExpanded = false ∧ s' = s ∨
      n.isExpanded = true ∧ ∃ entry ∈ g.table, t.Follows i n entry ∧
        ∃ generator source s₁, Generator.resolve entry.generator = .ok generator ∧
          Ran u { s with source } generator n.payload n.segment s₁ ∧
          Chain (Replays g u t levels) n.children s₁ s')

theorem Replays.succ {levels i : Nat} {s s' : Scope ρ} (h : Replays g u t levels i s s') :
    Replays g u t (levels + 1) i s s' := by
  induction levels generalizing i s s' with
  | zero => exact h.elim
  | succ levels ih =>
    obtain ⟨n, hn, hunexp | ⟨hexp, entry, hentry, hfollows, generator, source, s₁, hresolve, hran,
      hchildren⟩⟩ := h
    · exact ⟨n, hn, .inl hunexp⟩
    · exact ⟨n, hn, .inr ⟨hexp, entry, hentry, hfollows, generator, source, s₁, hresolve, hran,
        hchildren.imp fun _ _ _ _ h => ih h⟩⟩

namespace Growth

variable {job : Job} {r r' : Growth ρ}

/-- What waits is grown in its order. -/
theorem Completes.replays (hg : job.grammar.Grouped) {turns : Nat}
    (hderives : r.tree.Derives job.grammar r.pending) (h : Completes job turns r r') :
    r.tree.Extends r'.tree ∧ r'.tree.Derives job.grammar [] ∧
      Chain (Replays job.grammar job.objects r'.tree turns) r.pending r.scope r'.scope := by
  induction h with
  | done hdone => exact ⟨.refl _, hdone ▸ hderives, hdone ▸ .nil⟩
  | @turn turns r r₁ r' i pending hwaits hvisit hrest ih =>
    rw [hwaits] at hderives
    obtain ⟨hext, hfinal, hchain⟩ :=
      ih (derives_visit (s := { r with pending }) hg hderives hvisit)
    obtain ⟨n, hn, -, ⟨hterminal, rfl⟩ | ⟨-, hexp⟩⟩ :=
      visit_ok (s := { r with pending }) hg hderives hvisit
    · obtain ⟨n', hn', hsymbol, -, -⟩ := hext i n hn
      refine ⟨hext, hfinal, ?_⟩
      have hunexp : n'.isExpanded = false := by
        rw [← hfinal.isNonterminal_eq hg hn', hsymbol, Grammar.isNonterminal, hterminal]
        rfl
      rw [hwaits]
      exact .cons ⟨n', hn', .inl ⟨hunexp, rfl⟩⟩ (hchain.imp fun _ _ _ _ h => h.succ)
    · obtain ⟨m, name, entry, generator, source, hm, hnamed, hrule, hfollows, hpending, hresolve,
        hran, -⟩ := hexp.node hderives
      have hexpanded : m.isExpanded = true := by simp [Node.isExpanded, hnamed]
      -- the children come before all that was waiting already
      rw [hpending] at hchain
      obtain ⟨s₂, hchildren, hothers⟩ := hchain.split
      refine ⟨(hexp.extends hderives).trans hext, hfinal, ?_⟩
      rw [hwaits]
      exact .cons ⟨m, hext.expanded_node hm hexpanded, .inr ⟨hexpanded, entry, hrule,
        hfollows.mono hext, generator, source, r₁.scope, hresolve, hran, hchildren⟩⟩
        (hothers.imp fun _ _ _ _ h => h.succ)

theorem replays_run (hg : job.grammar.Grouped) {turns : Nat}
    (hderives : r.tree.Derives job.grammar r.pending) (h : run job turns r = (none, r')) :
    r.tree.Extends r'.tree ∧ r'.tree.Derives job.grammar [] ∧
      Chain (Replays job.grammar job.objects r'.tree turns) r.pending r.scope r'.scope :=
  (completes_run h).replays hg hderives

end Growth

end ProbeForge
