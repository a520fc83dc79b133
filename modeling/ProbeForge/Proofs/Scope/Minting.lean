import ProbeForge.Proofs.Numbered
import ProbeForge.Proofs.Scope.Histories

/-!
# Minted names

All segments of a catalog mint their names from one counter, which every name moves on by one. So
the names of a history are numbered in the order in which they are minted, whatever their stems are,
and no two of them are the same.
-/

namespace ProbeForge.Scope

variable {ρ : Type} {s s' s'' : Scope ρ}

/-- A name that was minted and what it begins with. -/
structure Minted where
  stem : String
  name : String
deriving DecidableEq

/-- What minting a name comes to. -/
def mintedAs (id : SegmentId) (stem : String) (s : Scope ρ) : Minted := ⟨stem, (mint id stem s).1⟩

/-- Nothing is minted: the counter stays as it is, and no segment is given another one. -/
structure Quiet (s s' : Scope ρ) : Prop where
  minted : s'.catalog.minted = s.catalog.minted
  shared : s.catalog.Shared → s'.catalog.Shared

/-- The names that are minted on the way from one scope to another, in order. -/
inductive Mints (s : Scope ρ) : List Minted → Scope ρ → Prop where
  | none : Mints s [] s
  | mint {names : List Minted} {s' : Scope ρ} (before : Mints s names s') (id : SegmentId)
      (stem : String) : Mints s (names ++ [mintedAs id stem s']) (Scope.mint id stem s').2
  | quiet {names : List Minted} {s' s'' : Scope ρ} (before : Mints s names s')
      (quiet : Quiet s' s'') : Mints s names s''

variable {names more : List Minted}

theorem Quiet.mints (h : Quiet s s') : Mints s [] s' := .quiet .none h

theorem mints_mint (id : SegmentId) (stem : String) (s : Scope ρ) :
    Mints s [mintedAs id stem s] (mint id stem s).2 := .mint .none id stem

theorem Mints.trans (h : Mints s names s') (h' : Mints s' more s'') :
    Mints s (names ++ more) s'' := by
  induction h' with
  | none => rwa [List.append_nil]
  | mint _ id stem ih =>
    rw [← List.append_assoc]
    exact .mint ih id stem
  | quiet _ quiet ih => exact .quiet ih quiet

/-! ### Numbers of names -/

/-- A name that is numbered `n`. -/
def Minted.HasNumber (m : Minted) (n : Nat) : Prop := m.name = s!"{m.stem}_{n}"

theorem Minted.HasNumber.name_ne_stem {m : Minted} {n : Nat} (h : m.HasNumber n) :
    m.name ≠ m.stem := fun heq => numbered_ne_stem m.stem n (h.symm.trans heq)

/-- What was minted is numbered from the counter on, and the counter was moved on by as much. -/
structure Numbered (s : Scope ρ) (names : List Minted) (s' : Scope ρ) : Prop where
  shared : s'.catalog.Shared
  counted : s'.catalog.minted = s.catalog.minted + names.length
  numbered : ∀ i (m : Minted), names[i]? = some m → m.HasNumber (s.catalog.minted + i + 1)

theorem Numbered.mint (h : Numbered s names s') (id : SegmentId) (stem : String) :
    Numbered s (names ++ [mintedAs id stem s']) (Scope.mint id stem s').2 where
  shared := (mint_kept h.shared id stem).shared h.shared
  counted := by
    rw [mint_shared h.shared, List.length_append, List.length_singleton, ← Nat.add_assoc,
      ← h.counted]
  numbered i m hi := by
    rcases Nat.lt_or_ge i names.length with hlt | hge
    · rw [List.getElem?_append_left hlt] at hi
      exact h.numbered i m hi
    · -- the last name has the number that the counter comes to
      rw [List.getElem?_append_right hge] at hi
      obtain ⟨hlast, rfl⟩ := List.getElem?_eq_some_iff.mp hi
      have hi : i = names.length := by
        rw [List.length_singleton] at hlast
        omega
      simp only [hi, Nat.sub_self, List.getElem_singleton, ← h.counted]
      rw [Minted.HasNumber, mintedAs, mint_shared h.shared]

theorem Mints.numbered (h : Mints s names s') (hs : s.catalog.Shared) : Numbered s names s' := by
  induction h with
  | none => exact ⟨hs, rfl, nofun⟩
  | mint _ id stem ih => exact ih.mint id stem
  | quiet _ quiet ih =>
    exact ⟨quiet.shared ih.shared, quiet.minted.trans ih.counted, ih.numbered⟩

/-- Different numbers make different names. -/
theorem Numbered.nodup (h : Numbered s names s') : (names.map (·.name)).Nodup := by
  refine List.nodup_iff_getElem?_ne_getElem?.mpr fun i j hij hj heq => ?_
  rw [List.length_map] at hj
  have hi := Nat.lt_trans hij hj
  rw [List.getElem?_map, List.getElem?_map, List.getElem?_eq_getElem hi,
    List.getElem?_eq_getElem hj, Option.map_some, Option.map_some, Option.some.injEq] at heq
  have hfirst := h.numbered i _ (List.getElem?_eq_getElem hi)
  have hsecond := h.numbered j _ (List.getElem?_eq_getElem hj)
  obtain ⟨-, hnumber⟩ := numbered_inj (hfirst.symm.trans (heq.trans hsecond))
  omega

theorem Numbered.name_ne_stem (h : Numbered s names s') : ∀ m ∈ names, m.name ≠ m.stem := by
  intro m hm
  obtain ⟨i, hi⟩ := List.mem_iff_getElem?.mp hm
  exact (h.numbered i m hi).name_ne_stem

/-! ### Operations -/

/-- Some names are minted on the way. -/
def Minting (s s' : Scope ρ) : Prop := ∃ names, Mints s names s'

theorem Quiet.minting (h : Quiet s s') : Minting s s' := ⟨[], h.mints⟩

theorem update_minting (id : SegmentId) {f : Segment → Segment}
    (hf : ∀ g, (f g).ownMinted = g.ownMinted) : Along Minting (update id f : ScopeM ρ Unit) :=
  fun s => Quiet.minting ⟨rfl, fun hs => (update_changed id f s).shared hs hf⟩

theorem minting_referring (id : SegmentId) : Referring id (Minting (ρ := ρ)) :=
  have h : Lenient id (Minting (ρ := ρ)) :=
    { refl := fun _ => ⟨[], .none⟩
      trans := fun ⟨names, h⟩ ⟨more, h'⟩ => ⟨names ++ more, h.trans h'⟩
      reseeded := fun _ _ => Quiet.minting ⟨rfl, fun hs => hs⟩
      mint := fun stem s => ⟨_, mints_mint id stem s⟩ }
  have hput := fun put : _ → _ => update_minting (ρ := ρ) id
    (f := fun g : Segment => { g with columns := put g.columns }) fun _ => rfl
  { toLenient := h
    putSource := fun _ => update_minting id fun _ => rfl
    addSourceAlias := h.addSourceAlias fun _ _ _ => update_minting id fun _ => rfl
    addColumn := h.addColumn hput
    addColumnAlias := h.addColumnAlias hput
    setCursor := fun _ => update_minting id fun _ => rfl
    exportName := fun _ => update_minting id fun _ => rfl }

theorem minting_hosting : Hosting (Minting (ρ := ρ)) where
  referring := minting_referring
  marks id f hf := update_minting id fun g => by
    obtain ⟨flags, pending, hsame⟩ := hf g
    rw [hsame]
  push s := Quiet.minting ⟨push_minted s, push_shared⟩
  restack _ _ := Quiet.minting ⟨rfl, fun hs => hs⟩

/-! ### Histories -/

section Calls

variable [RandomSource ρ]

theorem Record.scope_next (u : Universe) (r : Record ρ) (call : Call) :
    (r.next u call).scope =
      if call.segments.all (· < r.scope.catalog.segments.size) then
        after (call.operation u) r.scope
      else r.scope := by
  unfold next after
  split
  · cases call.operation u r.scope <;> rfl
  · rfl

/-- The name that a call asks a segment for. -/
def Record.asked (r : Record ρ) : Call → List Minted
  | .on id (.mint stem) =>
    if id < r.scope.catalog.segments.size then [mintedAs id stem r.scope] else []
  | _ => []

/-- The names that calls ask segments for, one after the other. -/
def Record.askedBy (u : Universe) : Record ρ → List Call → List Minted
  | _, [] => []
  | r, call :: calls => r.asked call ++ askedBy u (r.next u call) calls

theorem Record.mints_next (u : Universe) (r : Record ρ) (call : Call) :
    ∃ names, Mints r.scope names (r.next u call).scope ∧ (r.asked call).Sublist names := by
  unfold asked
  split
  case h_1 id stem =>
    -- what a segment is asked for is all that is minted
    have hone : (Call.on id (.mint stem)).segments = [id] := rfl
    simp only [r.scope_next, hone, List.all_cons, List.all_nil, Bool.and_true, decide_eq_true_eq]
    split
    · exact ⟨_, mints_mint id stem r.scope, List.Sublist.refl _⟩
    · exact ⟨[], .none, List.Sublist.refl _⟩
  case h_2 =>
    rw [r.scope_next]
    split
    · obtain ⟨names, hnames⟩ := minting_hosting.call u call r.scope
      exact ⟨names, hnames, List.nil_sublist names⟩
    · exact ⟨[], .none, List.Sublist.refl _⟩

theorem Record.mints_foldl (u : Universe) (r : Record ρ) (calls : List Call) :
    ∃ names, Mints r.scope names (calls.foldl (Record.next u) r).scope ∧
      (r.askedBy u calls).Sublist names := by
  induction calls generalizing r with
  | nil => exact ⟨[], .none, List.Sublist.refl _⟩
  | cons call calls ih =>
    obtain ⟨names, hfirst, hasked⟩ := r.mints_next u call
    obtain ⟨more, hrest, hmore⟩ := ih (r.next u call)
    exact ⟨names ++ more, hfirst.trans hrest, hasked.append hmore⟩

/-- In a history the names are numbered in the order in which they are minted, the ones that calls
ask for among them, and the counter tells how many they are. So no two are the same, and none is
what it begins with. -/
theorem minted_distinct (u : Universe) (source : ρ) (calls : List Call) :
    let start : Record ρ := ⟨⟨.empty, source⟩, []⟩
    let final := (history u source calls).scope
    (∃ names, Mints start.scope names final ∧ (start.askedBy u calls).Sublist names) ∧
      ∀ names, Mints start.scope names final →
        names.length = final.catalog.minted ∧
        (∀ i (m : Minted), names[i]? = some m → m.name = s!"{m.stem}_{i + 1}") ∧
        (names.map (·.name)).Nodup ∧ ∀ m ∈ names, m.name ≠ m.stem := by
  intro start final
  refine ⟨start.mints_foldl u calls, fun names h => ?_⟩
  have hnumbered := h.numbered fun _ => rfl
  have hnone : start.scope.catalog.minted = 0 := rfl
  refine ⟨?_, fun i m hi => ?_, hnumbered.nodup, hnumbered.name_ne_stem⟩
  · rw [hnumbered.counted, hnone, Nat.zero_add]
  · have hm := hnumbered.numbered i m hi
    rwa [hnone, Nat.zero_add] at hm

/-- A name that was minted can be minted from, in another segment too. -/
example (source : ρ) :
    (Record.askedBy .empty ⟨⟨.empty, source⟩, []⟩
      [.push, .on 0 (.mint "a"), .push, .on 1 (.mint "a_1"), .on 0 (.mint "a")]).map (·.name) =
      ["a_1", "a_1_2", "a_3"] := by
  cbv

end Calls

end ProbeForge.Scope
