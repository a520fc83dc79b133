import ProbeForge.Files
import ProbeForge.Proofs.OrderedMap
import ProbeForge.Proofs.Outcome

/-!
# Paths and files

A place that was given by a path is given again by its own path, and a file that was written can be
read: its text comes back with line feeds as its only newlines.
-/

namespace ProbeForge

/-! ### Paths -/

namespace Text

variable {p : Char → Bool} {l : List Char}

theorem cutAt_append (h : ∀ c ∈ l, p c = false) {b : Char} (hb : p b = true) (rest : List Char) :
    cutAt p (l ++ b :: rest) = l :: cutAt p rest := by
  induction l with
  | nil => rw [List.nil_append, cutAt, if_pos hb]
  | cons c l ih =>
    obtain ⟨hc, hl⟩ := List.forall_mem_cons.mp h
    rw [List.cons_append, cutAt, if_neg (by simp [hc]), ih hl]

theorem cutAt_of_forall (h : ∀ c ∈ l, p c = false) : cutAt p l = [l] := by
  induction l with
  | nil => rfl
  | cons c l ih =>
    obtain ⟨hc, hl⟩ := List.forall_mem_cons.mp h
    rw [cutAt, if_neg (by simp [hc]), ih hl]

/-- No piece has a character that the text was cut at. -/
theorem forall_mem_cutAt {piece : List Char} (h : piece ∈ cutAt p l) : ∀ c ∈ piece, p c = false := by
  induction l generalizing piece with
  | nil =>
    rw [cutAt, List.mem_singleton] at h
    exact h ▸ List.forall_mem_nil _
  | cons c l ih =>
    rw [cutAt] at h
    split at h
    · rcases List.mem_cons.mp h with rfl | h
      · exact List.forall_mem_nil _
      · exact ih h
    · rename_i hc
      obtain ⟨first, rest, hcut⟩ := List.exists_cons_of_ne_nil (cutAt_ne_nil p l)
      rw [hcut] at h ih
      rcases List.mem_cons.mp h with rfl | h
      · exact List.forall_mem_cons.mpr ⟨by simpa using hc, ih List.mem_cons_self⟩
      · exact ih (List.mem_cons_of_mem _ h)

theorem cutAt_intercalate {b : Char} (hb : p b = true) {pieces : List (List Char)}
    (hne : pieces ≠ []) (h : ∀ piece ∈ pieces, ∀ c ∈ piece, p c = false) :
    cutAt p ([b].intercalate pieces) = pieces := by
  induction pieces with
  | nil => exact absurd rfl hne
  | cons piece pieces ih =>
    obtain ⟨hpiece, hrest⟩ := List.forall_mem_cons.mp h
    cases pieces with
    | nil => rw [List.intercalate_singleton, cutAt_of_forall hpiece]
    | cons next pieces =>
      rw [List.intercalate_cons_cons, List.append_assoc, List.singleton_append,
        cutAt_append hpiece hb, ih (List.cons_ne_nil _ _) hrest]

end Text

namespace Place

/-- The parts are such as a path is cut into. -/
def IsCut (p : Place) : Prop := ∀ part ∈ p.parts, part ≠ "" ∧ part ≠ "." ∧ '/' ∉ part.toList

theorem isCut_ofPath (path : String) : (ofPath path).IsCut := by
  intro part hpart
  obtain ⟨hpiece, hproper⟩ := List.mem_filter.mp hpart
  obtain ⟨hne, hdot⟩ := of_decide_eq_true hproper
  obtain ⟨piece, hmem, rfl⟩ := List.mem_map.mp hpiece
  refine ⟨hne, hdot, fun hslash => ?_⟩
  rw [String.toList_ofList] at hslash
  exact absurd (Text.forall_mem_cutAt hmem '/' hslash) (by decide)

theorem isCut_inside {p : Place} (h : p.IsCut) (path : String) : (p.inside path).IsCut :=
  fun part hpart => (List.mem_append.mp hpart).elim (h part) (isCut_ofPath path part)

theorem IsCut.filter_parts {p : Place} (h : p.IsCut) :
    (p.parts.filter fun s => s ≠ "" ∧ s ≠ ".") = p.parts :=
  List.filter_eq_self.mpr fun part hpart =>
    decide_eq_true ⟨(h part hpart).1, (h part hpart).2.1⟩

theorem pieces_intercalate {parts : List String} (hne : parts ≠ [])
    (h : ∀ part ∈ parts, '/' ∉ part.toList) : pieces ("/".intercalate parts) = parts := by
  rw [pieces, String.toList_intercalate, show "/".toList = ['/'] from rfl,
    Text.cutAt_intercalate (by decide) (by simpa using hne)]
  · simp
  · intro piece hpiece c hc
    obtain ⟨part, hpart, rfl⟩ := List.mem_map.mp hpiece
    exact decide_eq_false fun heq => h part hpart (heq ▸ hc)

theorem pieces_slash (path : String) : pieces ("/" ++ path) = "" :: pieces path := by
  have hcut := Text.cutAt_append (p := (· = '/')) (List.forall_mem_nil _) (b := '/') (by decide)
    path.toList
  rw [List.nil_append] at hcut
  rw [pieces, String.toList_append]
  exact (congrArg (List.map String.ofList) hcut).trans List.map_cons

theorem ofPath_path {p : Place} (h : p.IsCut) : ofPath p.path = p := by
  obtain ⟨rooted, parts⟩ := p
  have hslash : ∀ part ∈ parts, '/' ∉ part.toList := fun part hpart => (h part hpart).2.2
  have hfilter := h.filter_parts
  dsimp only at hfilter
  unfold path
  cases parts with
  | nil => cases rooted <;> rfl
  | cons part parts =>
    have hpieces := pieces_intercalate (List.cons_ne_nil part parts) hslash
    cases rooted with
    | true =>
      have hrooted : ("/" ++ "/".intercalate (part :: parts)).toList.head? = some '/' := by
        rw [String.toList_append]
        rfl
      simp only [ofPath, if_true, pieces_slash, hpieces, hrooted]
      exact congrArg (Place.mk true) hfilter
    | false =>
      have hlocal : ("/".intercalate (part :: parts)).toList.head? ≠ some '/' := by
        obtain ⟨c, cs, hcs⟩ := List.exists_cons_of_ne_nil
          (fun hnil => (h part List.mem_cons_self).1 (String.toList_eq_nil_iff.mp hnil))
        rw [String.toList_intercalate, List.map_cons, hcs]
        have hc : c ≠ '/' := fun heq => hslash part List.mem_cons_self (by rw [hcs, heq]; simp)
        cases parts with
        | nil => simpa using hc
        | cons next parts => simpa [List.intercalate_cons_cons] using hc
      simp only [ofPath, Bool.false_eq_true, if_false, List.isEmpty_cons, hpieces,
        decide_eq_false hlocal]
      exact congrArg (Place.mk false) hfilter

end Place

/-! ### Files -/

namespace Files

variable {f f' : Files} {p here : Place} {text : String}

/-- Where a path leads does not depend on the texts of files. -/
theorem follow_of_folders (hfolders : f'.folders = f.folders) {parts : List String} {start : Place}
    (h : f.follow start parts = .ok here) : f'.follow start parts = .ok here := by
  have hfolder (q : Place) : f'.isFolder q = f.isFolder q := by rw [isFolder, isFolder, hfolders]
  induction parts generalizing start with
  | nil => exact h
  | cons part parts ih =>
    rw [follow] at h ⊢
    split at h
    · rw [if_pos (by rwa [hfolder])]
      exact ih h
    · cases h

theorem locate_of_folders (hfolders : f'.folders = f.folders) (h : f.locate p = .ok here) :
    f'.locate p = .ok here := by
  rw [locate] at h ⊢
  split at h
  case isTrue hpossible =>
    rw [if_pos hpossible]
    exact follow_of_folders hfolders h
  case isFalse => cases h

theorem read_write (h : write p text f = .ok () f') :
    f'.read p = .ok (String.ofList (Text.unifyNewlines text.toList)) := by
  obtain ⟨s, s₁, hget, h⟩ := attempt_bind_ok.mp h
  cases hget
  obtain ⟨here, s₂, hlift, h⟩ := attempt_bind_ok.mp h
  obtain ⟨hlocate, rfl⟩ := attempt_lift_ok.mp hlift
  dsimp only at h
  split at h
  case isTrue => cases h
  case isFalse hfile =>
    cases h
    have hlocated : Files.locate { f with texts := f.texts.insert here text } p = .ok here :=
      locate_of_folders (f := f) rfl hlocate
    have hplain : ¬ Files.isFolder { f with texts := f.texts.insert here text } here = true := hfile
    unfold read
    rw [hlocated]
    simp only [bind, Except.bind, hplain, OrderedMap.find?_insert_self, require]
    rfl

theorem read_save (h : save p (.ok text) f = .ok () f') :
    f'.read p = .ok (String.ofList (Text.unifyNewlines text.toList)) := by
  obtain ⟨⟨⟩, s, -, h⟩ := attempt_bind_ok.mp h
  obtain ⟨t, s₁, hlift, h⟩ := attempt_bind_ok.mp h
  obtain ⟨⟨⟩, rfl⟩ := attempt_lift_ok.mp hlift
  exact read_write h

end Files

end ProbeForge
