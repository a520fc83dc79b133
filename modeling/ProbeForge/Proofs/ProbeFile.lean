import Mathlib.Algebra.GroupWithZero.Nat
import ProbeForge.Evolution.Candidate
import ProbeForge.Proofs.Files
import ProbeForge.Proofs.Text.Blank
import ProbeForge.Proofs.WeightFile

/-!
# Probes are read as they were saved

A probe begins with a note and its line ends with a semicolon, so nothing is stripped from the line
and it is not skipped, whatever the probe's text is. Only a line end in the text does harm: no
statement that is read from a file has one.
-/

namespace ProbeForge

/-! ### Lines -/

namespace Text

variable {l : List Char}

theorem isLineEnd_lineFeed : isLineEnd '\n' = true := by decide

theorem ne_of_not_isLineEnd {c d : Char} (h : isLineEnd c = false) (hd : isLineEnd d = true) :
    c ≠ d := by
  rintro rfl
  cases h.symm.trans hd

theorem unifyNewlines_cons {c : Char} (h : c ≠ '\r') (rest : List Char) :
    unifyNewlines (c :: rest) = c :: unifyNewlines rest := by
  rw [unifyNewlines, if_neg h]
  exact fun _ hc _ => h hc

theorem unifyNewlines_of_notMem (h : '\r' ∉ l) : unifyNewlines l = l := by
  induction l with
  | nil => rfl
  | cons c l ih =>
    obtain ⟨hc, hl⟩ := not_or.mp (List.mem_cons.not.mp h)
    rw [unifyNewlines_cons (Ne.symm hc), ih hl]

theorem cutLines_cons {c : Char} (h : c ≠ '\r') (rest : List Char) :
    cutLines (c :: rest) = if isLineEnd c then [] :: cutLines rest
      else match cutLines rest with
        | [] => [[c]]
        | piece :: pieces => (c :: piece) :: pieces :=
  cutLines.eq_3 c rest fun _ hc _ => h hc

theorem cutLines_append (h : ∀ c ∈ l, isLineEnd c = false) (rest : List Char) :
    cutLines (l ++ '\n' :: rest) = l :: cutLines rest := by
  induction l with
  | nil => rw [List.nil_append, cutLines_cons (by decide), if_pos isLineEnd_lineFeed]
  | cons c l ih =>
    obtain ⟨hc, hl⟩ := List.forall_mem_cons.mp h
    rw [List.cons_append, cutLines_cons (ne_of_not_isLineEnd hc (by decide)), ih hl,
      if_neg (by simp [hc])]

/-- No piece has a line end. -/
theorem forall_mem_cutLines {piece : List Char} (h : piece ∈ cutLines l) :
    ∀ c ∈ piece, isLineEnd c = false := by
  fun_induction cutLines l generalizing piece with
  | case1 =>
    obtain rfl := List.mem_singleton.mp h
    exact List.forall_mem_nil _
  | case2 rest ih =>
    rcases List.mem_cons.mp h with rfl | h
    · exact List.forall_mem_nil _
    · exact ih h
  | case3 c rest _ hend ih =>
    rcases List.mem_cons.mp h with rfl | h
    · exact List.forall_mem_nil _
    · exact ih h
  | case4 c rest _ hend hcut =>
    obtain rfl := List.mem_singleton.mp h
    exact List.forall_mem_cons.mpr ⟨by simpa using hend, List.forall_mem_nil _⟩
  | case5 c rest _ hend first pieces hcut ih =>
    rw [hcut] at ih
    rcases List.mem_cons.mp h with rfl | h
    · exact List.forall_mem_cons.mpr ⟨by simpa using hend, ih List.mem_cons_self⟩
    · exact ih (List.mem_cons_of_mem _ h)

/-- Texts without line ends, each ended by a line feed, are the lines of what they make up. -/
theorem lines_flatMap {texts : List (List Char)}
    (h : ∀ text ∈ texts, ∀ c ∈ text, isLineEnd c = false) :
    lines (String.ofList (texts.flatMap (· ++ ['\n']))) = texts.map String.ofList := by
  have hcut : cutLines (texts.flatMap (· ++ ['\n'])) = texts ++ [[]] := by
    induction texts with
    | nil => rfl
    | cons text texts ih =>
      obtain ⟨htext, hrest⟩ := List.forall_mem_cons.mp h
      rw [List.flatMap_cons, List.append_assoc, List.singleton_append, cutLines_append htext,
        ih hrest, List.cons_append]
  rw [lines, String.toList_ofList, hcut]
  simp

/-- No line has a line end. -/
theorem forall_mem_lines {line s : String} (h : line ∈ lines s) :
    ∀ c ∈ line.toList, isLineEnd c = false := by
  obtain ⟨piece, hpiece, rfl⟩ := List.mem_map.mp h
  rw [String.toList_ofList]
  refine forall_mem_cutLines (l := s.toList) ?_
  split at hpiece
  · exact List.dropLast_subset _ hpiece
  · exact hpiece

theorem mem_of_mem_strip {s : String} {c : Char} (h : c ∈ (strip s).toList) : c ∈ s.toList := by
  rw [strip, String.toList_ofList, trimBy, List.mem_reverse] at h
  have hmem := (List.dropWhile_suffix _).subset h
  exact (List.dropWhile_suffix _).subset (List.mem_reverse.mp hmem)

end Text

/-! ### Statements -/

namespace ProbeFile

variable {line text : String} {probes : List String}

/-- A line that begins with a slash is neither blank nor skipped, and ended by a semicolon it is not
stripped of anything else. -/
theorem statement?_terminated (l : List Char) :
    statement? (String.ofList ('/' :: l ++ [';'])) = some (String.ofList ('/' :: l)) := by
  have hstrip : Text.strip (String.ofList ('/' :: l ++ [';'])) =
      String.ofList ('/' :: l ++ [';']) := by
    rw [Text.strip, String.toList_ofList, Text.trimBy_eq_self]
    · exact fun c hc => Option.some.inj hc ▸ by decide
    · rw [List.getLast?_append_of_ne_nil _ (List.cons_ne_nil _ _)]
      exact fun c hc => Option.some.inj hc ▸ by decide
  unfold statement?
  simp only [hstrip, String.toList_ofList]
  rw [if_neg (by simp), if_pos List.getLast?_concat, List.dropLast_concat]

/-- A statement has no character that its line did not have. -/
theorem mem_of_statement? (h : statement? line = some text) {c : Char} (hc : c ∈ text.toList) :
    c ∈ line.toList := by
  refine Text.mem_of_mem_strip ?_
  unfold statement? at h
  dsimp only at h
  split at h
  · cases h
  · split at h
    · rw [← Option.some.inj h, String.toList_ofList] at hc
      exact List.dropLast_subset _ hc
    · rwa [← Option.some.inj h] at hc

theorem forall_mem_statements {s : String} (h : text ∈ statements s) :
    ∀ c ∈ text.toList, Text.isLineEnd c = false := by
  obtain ⟨line, hline, hstatement⟩ := List.mem_filterMap.mp h
  exact fun c hc => Text.forall_mem_lines hline c (mem_of_statement? hstatement hc)

theorem format_eq (probes : List String) :
    format probes = String.ofList ((probes.map (·.toList ++ [';'])).flatMap (· ++ ['\n'])) := by
  refine String.toList_inj.mp ?_
  rw [format, String.toList_join, String.toList_ofList, List.flatMap_map, List.flatMap_map]
  simp [String.toList_append]

/-- Probes that begin with a slash are read as they were written, if none runs over the end of a
line. -/
theorem statements_format (hbegin : ∀ probe ∈ probes, ∃ l, probe.toList = '/' :: l)
    (hline : ∀ probe ∈ probes, ∀ c ∈ probe.toList, Text.isLineEnd c = false) :
    statements (String.ofList (Text.unifyNewlines (format probes).toList)) = probes := by
  have hterminated : ∀ line ∈ probes.map (·.toList ++ [';']), ∀ c ∈ line,
      Text.isLineEnd c = false := by
    intro line hmem c hc
    obtain ⟨probe, hprobe, rfl⟩ := List.mem_map.mp hmem
    rcases List.mem_append.mp hc with hc | hc
    · exact hline probe hprobe c hc
    · obtain rfl := List.mem_singleton.mp hc
      decide
  have hreturn : '\r' ∉ (probes.map (·.toList ++ [';'])).flatMap (· ++ ['\n']) := by
    intro hmem
    obtain ⟨line, hmem, hc⟩ := List.mem_flatMap.mp hmem
    rcases List.mem_append.mp hc with hc | hc
    · exact absurd (hterminated line hmem _ hc) (by decide)
    · exact absurd (List.mem_singleton.mp hc) (by decide)
  rw [format_eq, String.toList_ofList, Text.unifyNewlines_of_notMem hreturn, statements,
    Text.lines_flatMap hterminated, List.map_map, List.filterMap_map]
  simp only [Function.comp_def]
  have hstatement : ∀ probe ∈ probes,
      statement? (String.ofList (probe.toList ++ [';'])) = some probe := by
    intro probe hprobe
    obtain ⟨l, hl⟩ := hbegin probe hprobe
    rw [hl, statement?_terminated, ← hl, String.ofList_toList]
  rw [List.filterMap_congr hstatement, List.filterMap_some]

end ProbeFile

/-! ### Saved probes -/

theorem Text.isBlank_of_isLineEnd {c : Char} (h : isLineEnd c = true) : isBlank c = true := by
  simp only [isLineEnd, isBlank, Bool.or_eq_true, Bool.and_eq_true, decide_eq_true_eq,
    beq_iff_eq] at h ⊢
  omega

namespace Generation

theorem toList_probeText (r : Generation) : r.probeText.toList =
    '/' :: '*' :: ((toString r.seed).toList ++ '*' :: '/' :: ' ' :: r.text.toList) := by
  have hparts : r.probeText = "/*" ++ toString r.seed ++ "*/ " ++ r.text := rfl
  simp [hparts]

/-- Tagging a text with its seed adds no line end. -/
theorem forall_mem_probeText {r : Generation} :
    (∀ c ∈ r.probeText.toList, Text.isLineEnd c = false) ↔
      ∀ c ∈ r.text.toList, Text.isLineEnd c = false := by
  have hseed : ∀ c ∈ (toString r.seed).toList, Text.isLineEnd c = false := by
    intro c hc
    rcases WeightFile.mem_int hc with rfl | hdigit
    · decide
    · refine eq_false_of_ne_true fun hend => ?_
      cases (WeightFile.isBlank_of_isDigit hdigit).symm.trans (Text.isBlank_of_isLineEnd hend)
  rw [toList_probeText]
  simp only [List.forall_mem_cons, List.forall_mem_append]
  exact ⟨fun h => h.2.2.2.2.2.2, fun h => ⟨rfl, rfl, hseed, rfl, rfl, rfl, h⟩⟩

end Generation

namespace Candidate

variable {α : Type}

/-- Probes that were saved are read back as they are exactly when no text has a line end. -/
theorem read_saved_iff {c c' : Candidate α} {folder round : String} {probes : List Generation}
    {files files' : Files} (h : c.save folder round probes files = .ok c' files') :
    ∃ place, c'.probeFile = some place ∧
      (ProbeFile.read files' place.path = .ok (probes.map (·.probeText)) ↔
        ∀ r ∈ probes, ∀ ch ∈ r.text.toList, Text.isLineEnd ch = false) := by
  obtain ⟨⟨⟩, s, hsave, h⟩ := attempt_bind_ok.mp h
  obtain ⟨rfl, rfl⟩ := attempt_pure_ok.mp h
  refine ⟨_, rfl, ?_⟩
  have hcut := Place.isCut_inside (Place.isCut_ofPath folder) s!"r{round}_c{c.id}.prb"
  rw [ProbeFile.read, Place.ofPath_path hcut, Files.read_save hsave]
  constructor
  · intro hread r hr
    have hmem : r.probeText ∈ probes.map (·.probeText) := List.mem_map_of_mem hr
    rw [← Except.ok.inj hread] at hmem
    exact Generation.forall_mem_probeText.mp (ProbeFile.forall_mem_statements hmem)
  · intro hline
    refine congrArg Except.ok (ProbeFile.statements_format ?_ ?_)
    · intro probe hprobe
      obtain ⟨r, -, rfl⟩ := List.mem_map.mp hprobe
      exact ⟨_, r.toList_probeText⟩
    · intro probe hprobe
      obtain ⟨r, hr, rfl⟩ := List.mem_map.mp hprobe
      exact Generation.forall_mem_probeText.mpr (hline r hr)

/-- Probes with texts that look like what else is in a probe file. -/
def awkward : List Generation :=
  [(1, ""), (-2, "-- a"), (3, "select 1;"), (4, "  select 1  ")].map fun (seed, text) =>
    { start := "S", seed, text, failure := none, counts := ∅, trace := [], tree := none }

theorem read_saved_awkward : ∃ (c : Candidate Nat) (files : Files) (place : Place),
    (fresh 7 (Grammar.empty .null) []).save "out" "1" awkward .empty = .ok c files ∧
      c.probeFile = some place ∧ ProbeFile.read files place.path =
        .ok ["/*1*/ ", "/*-2*/ -- a", "/*3*/ select 1;", "/*4*/   select 1  "] := by
  obtain ⟨c, files, hsave⟩ : ∃ (c : Candidate Nat) (files : Files),
      (fresh 7 (Grammar.empty .null) []).save "out" "1" awkward .empty = .ok c files :=
    ⟨_, _, rfl⟩
  have hplain : (awkward.all fun r => r.text.toList.all (!Text.isLineEnd ·)) = true := by decide
  obtain ⟨place, hplace, hread⟩ := read_saved_iff hsave
  refine ⟨c, files, place, hsave, hplace, hread.mpr fun r hr ch hch => ?_⟩
  simpa using List.all_eq_true.mp (List.all_eq_true.mp hplain r hr) ch hch

end Candidate

end ProbeForge
