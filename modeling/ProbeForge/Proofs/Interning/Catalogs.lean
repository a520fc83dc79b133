import Mathlib.Data.Finset.Card
import Mathlib.Data.List.Induction
import ProbeForge.Proofs.OrderedMap
import ProbeForge.Proofs.Outcome
import ProbeForge.Rule

/-!
# Catalogs

A catalog is known by what was asked for so far: it holds one symbol for each name, or one rule for
each pair of sides, numbered in the order in which they were asked for first. Asking once more for
something finds what is there, and asking for something new adds it at the end.
-/

namespace ProbeForge

/-! ### First occurrences -/

section FirstOccurrences

variable {α : Type} [DecidableEq α] {l : List α} {a : α}

theorem eraseDups_concat (l : List α) (a : α) :
    (l ++ [a]).eraseDups = if a ∈ l then l.eraseDups else l.eraseDups ++ [a] := by
  rw [List.eraseDups_append]
  split
  case isTrue h => simp [List.removeAll, h]
  case isFalse h => simp [List.removeAll, h, List.eraseDups_cons]

theorem nodup_eraseDups (l : List α) : l.eraseDups.Nodup := by
  induction l using List.reverseRecOn with
  | nil => exact List.nodup_nil
  | append_singleton l a ih =>
    rw [eraseDups_concat]
    split
    case isTrue => exact ih
    case isFalse hnew =>
      exact List.concat_eq_append ▸ ih.concat fun h => hnew (List.mem_eraseDups.mp h)

theorem card_toFinset (l : List α) : l.toFinset.card = l.eraseDups.length := by
  rw [← List.toFinset_card_of_nodup (nodup_eraseDups l)]
  congr 1
  ext a
  rw [List.mem_toFinset, List.mem_toFinset, List.mem_eraseDups]

/-- What comes later does not move what was there. -/
theorem idxOf_eraseDups_append (h : a ∈ l) (more : List α) :
    (l ++ more).eraseDups.idxOf a = l.eraseDups.idxOf a := by
  rw [List.eraseDups_append, List.idxOf_append_of_mem (List.mem_eraseDups.mpr h)]

theorem idxOf_eraseDups_concat (h : a ∉ l) :
    (l ++ [a]).eraseDups.idxOf a = l.eraseDups.length := by
  rw [eraseDups_concat, if_neg h,
    List.idxOf_append_of_notMem fun hmem => h (List.mem_eraseDups.mp hmem)]
  simp

theorem find?_beq (l : List α) (a : α) : l.find? (· == a) = if a ∈ l then some a else none := by
  induction l with
  | nil => rfl
  | cons b l ih =>
    by_cases h : b = a
    · simp [h]
    · rw [List.find?_cons_of_neg (by simpa using h), ih]
      simp [Ne.symm h]

end FirstOccurrences

/-! ### Symbols -/

namespace SymbolCatalog

variable {catalog : SymbolCatalog} {asked : List String} {name : String}

/-- A symbol for each of some names, in the order in which the names were asked for first. -/
def Holds (catalog : SymbolCatalog) (asked : List String) : Prop :=
  catalog.symbols = asked.eraseDups.map Symbol.mk

theorem holds_empty : empty.Holds [] := rfl

theorem Holds.names (h : catalog.Holds asked) :
    catalog.symbols.map (·.name) = asked.eraseDups := by
  rw [h, List.map_map]
  exact List.map_id _

theorem Holds.size (h : catalog.Holds asked) : catalog.size = asked.toFinset.card := by
  rw [card_toFinset, ← h.names, List.length_map]
  rfl

theorem Holds.find? (h : catalog.Holds asked) (name : String) :
    catalog.find? name = if name ∈ asked then some ⟨name⟩ else none := by
  have hname : ((·.name == name) ∘ Symbol.mk) = (· == name) := rfl
  rw [SymbolCatalog.find?, h, List.find?_map, hname, find?_beq, if_congr List.mem_eraseDups rfl rfl]
  split <;> rfl

theorem Holds.contains (h : catalog.Holds asked) :
    catalog.contains name = true ↔ name ∈ asked := by
  rw [SymbolCatalog.contains, h.find?]
  split <;> simp [*]

theorem Holds.serial (h : catalog.Holds asked) (name : String) :
    catalog.serial ⟨name⟩ = asked.eraseDups.idxOf name := by
  have hsame : ((· == (⟨name⟩ : Symbol)) ∘ Symbol.mk) = (· == name) :=
    funext fun a => by simp
  rw [SymbolCatalog.serial, h, List.idxOf, List.findIdx_map, hsame, List.idxOf]

/-- To ask for what is there adds nothing. -/
theorem Holds.again (h : catalog.Holds asked) (hknown : name ∈ asked) :
    catalog.Holds (asked ++ [name]) := by
  rwa [Holds, eraseDups_concat, if_pos hknown]

theorem Holds.intern (h : catalog.Holds asked) (hname : name.isEmpty = false) :
    ∃ catalog', catalog.intern name =
        .ok (((asked ++ [name]).eraseDups.idxOf name, ⟨name⟩), catalog') ∧
      catalog'.Holds (asked ++ [name]) := by
  rw [SymbolCatalog.intern, hname, if_neg Bool.false_ne_true, h.find?]
  by_cases hknown : name ∈ asked
  · rw [if_pos hknown, idxOf_eraseDups_append hknown, ← h.serial]
    exact ⟨catalog, rfl, h.again hknown⟩
  · rw [if_neg hknown, idxOf_eraseDups_concat hknown, ← card_toFinset, ← h.size]
    refine ⟨_, rfl, ?_⟩
    rw [Holds, eraseDups_concat, if_neg hknown, List.map_append, ← h]
    rfl

theorem Holds.register_known (h : catalog.Holds asked) (hknown : name ∈ asked) :
    catalog.register name = refuse (.symbolTwice name) :=
  if_pos (h.contains.mpr hknown)

theorem Holds.register_new (h : catalog.Holds asked) (hnew : name ∉ asked) :
    catalog.register name = catalog.intern name :=
  if_neg fun hcontains => hnew (h.contains.mp hcontains)

end SymbolCatalog

/-! ### Rules -/

/-- Rules by their left sides, in the order of each side's first rule. -/
def Rule.grouped (rules : List Rule) : List Rule :=
  (rules.map (·.left)).eraseDups.flatMap fun left => rules.filter (·.left = left)

theorem Rule.mem_grouped {rules : List Rule} {rule : Rule} :
    rule ∈ grouped rules ↔ rule ∈ rules := by
  rw [grouped, List.mem_flatMap]
  constructor
  · rintro ⟨left, -, hrule⟩
    exact List.mem_of_mem_filter hrule
  · intro hrule
    exact ⟨rule.left, List.mem_eraseDups.mpr (List.mem_map_of_mem hrule),
      List.mem_filter.mpr ⟨hrule, decide_eq_true rfl⟩⟩

theorem Rule.nodup_grouped {rules : List Rule} (h : rules.Nodup) : (grouped rules).Nodup := by
  refine List.nodup_flatMap.mpr ⟨fun left _ => h.filter _, ?_⟩
  refine (nodup_eraseDups _).imp fun {a b} hne => List.disjoint_left.mpr fun rule ha hb => hne ?_
  exact (of_decide_eq_true (List.mem_filter.mp ha).2).symm.trans
    (of_decide_eq_true (List.mem_filter.mp hb).2)

namespace RuleCatalog

variable {catalog : RuleCatalog} {asked : List Rule} {rule : Rule}

/-- One of the rules that were asked for, with its number. -/
def numbered (asked : List Rule) (rule : Rule) : Nat × Rule := (asked.eraseDups.idxOf rule, rule)

/-- Each of some rules once, with the others of its left side, numbered in the order in which the
rules were asked for first. -/
structure Holds (catalog : RuleCatalog) (asked : List Rule) : Prop where
  distinct : catalog.groups.Distinct
  created : catalog.created = asked.eraseDups.length
  lefts : catalog.groups.keys = (asked.eraseDups.map (·.left)).eraseDups
  group : ∀ left, catalog.group left =
    (asked.eraseDups.filter (·.left = left)).map (numbered asked)

theorem holds_empty : empty.Holds [] :=
  ⟨OrderedMap.distinct_empty, rfl, rfl, fun _ => rfl⟩

theorem numbered_append (h : rule ∈ asked) (more : List Rule) :
    numbered (asked ++ more) rule = numbered asked rule := by
  rw [numbered, idxOf_eraseDups_append h, numbered]

theorem Holds.find? (h : catalog.Holds asked) (rule : Rule) :
    catalog.find? rule = if rule ∈ asked then some (numbered asked rule) else none := by
  have hrule : ((·.2 == rule) ∘ numbered asked) = (· == rule) := rfl
  -- nothing is missed by a search among the rules of the same side only
  have hmem : rule ∈ asked.eraseDups.filter (·.left = rule.left) ↔ rule ∈ asked := by
    simp [List.mem_eraseDups]
  rw [RuleCatalog.find?, h.group, List.find?_map, hrule, find?_beq, if_congr hmem rfl rfl]
  split <;> rfl

theorem Holds.contains_iff (h : catalog.Holds asked) :
    (catalog.find? rule).isSome = true ↔ rule ∈ asked := by
  rw [h.find?]
  split <;> simp [*]

/-- The rules are visited side by side. -/
theorem Holds.rules_eq (h : catalog.Holds asked) :
    catalog.rules = (Rule.grouped asked.eraseDups).map (numbered asked) := by
  have hvalues : catalog.groups.values = catalog.groups.keys.map catalog.group := by
    rw [OrderedMap.values, OrderedMap.keys, List.map_map]
    refine List.map_congr_left fun p hp => ?_
    rw [Function.comp_apply, RuleCatalog.group, OrderedMap.find?_of_mem h.distinct hp,
      Option.getD_some]
  rw [rules, hvalues, ← List.flatMap_def, h.lefts, Rule.grouped, List.map_flatMap]
  exact List.flatMap_congr fun left _ => h.group left

theorem Holds.size (h : catalog.Holds asked) : catalog.size = asked.toFinset.card := by
  have hperm : (Rule.grouped asked.eraseDups).Perm asked.eraseDups :=
    (List.perm_ext_iff_of_nodup (Rule.nodup_grouped (nodup_eraseDups asked))
      (nodup_eraseDups asked)).mpr fun _ => Rule.mem_grouped
  rw [RuleCatalog.size, h.rules_eq, List.length_map, hperm.length_eq, card_toFinset]

/-- To ask for what is there adds nothing. -/
theorem Holds.again (h : catalog.Holds asked) (hknown : rule ∈ asked) :
    catalog.Holds (asked ++ [rule]) := by
  have hsame : (asked ++ [rule]).eraseDups = asked.eraseDups := by
    rw [eraseDups_concat, if_pos hknown]
  have hnumbered : numbered (asked ++ [rule]) = numbered asked := by
    funext other
    rw [numbered, hsame, numbered]
  exact ⟨h.distinct, hsame ▸ h.created, hsame ▸ h.lefts, by rw [hsame, hnumbered]; exact h.group⟩

/-- A new rule comes last of its side, and a new side comes last. -/
theorem Holds.add (h : catalog.Holds asked) (hnew : rule ∉ asked) :
    Holds ⟨catalog.groups.insert rule.left
      (catalog.group rule.left ++ [(catalog.created, rule)]), catalog.created + 1⟩
      (asked ++ [rule]) := by
  have hmade : (asked ++ [rule]).eraseDups = asked.eraseDups ++ [rule] := by
    rw [eraseDups_concat, if_neg hnew]
  have hnumber : numbered (asked ++ [rule]) rule = (catalog.created, rule) := by
    rw [numbered, idxOf_eraseDups_concat hnew, h.created]
  -- the rules that are there keep their numbers
  have hold : ∀ left, (asked.eraseDups.filter (·.left = left)).map (numbered (asked ++ [rule])) =
      catalog.group left := by
    intro left
    rw [h.group]
    refine List.map_congr_left fun other hother => numbered_append ?_ _
    exact List.mem_eraseDups.mp (List.mem_of_mem_filter hother)
  refine ⟨h.distinct.insert, ?_, ?_, fun left => ?_⟩
  · rw [hmade, List.length_append, List.length_singleton, h.created]
  · rw [OrderedMap.keys_insert, ← if_congr OrderedMap.mem_keys rfl rfl, h.lefts, hmade,
      List.map_append, List.map_singleton, eraseDups_concat, if_congr List.mem_eraseDups rfl rfl]
  · rw [hmade, List.filter_append, List.map_append, hold, RuleCatalog.group,
      OrderedMap.find?_insert]
    by_cases hleft : rule.left = left
    · subst hleft
      rw [if_pos rfl, Option.getD_some, List.filter_singleton, decide_eq_true rfl, cond_true,
        List.map_singleton, hnumber]
    · rw [if_neg hleft, List.filter_singleton, decide_eq_false hleft, cond_false, List.map_nil,
        List.append_nil]
      rfl

theorem Holds.intern (h : catalog.Holds asked) (rule : Rule) :
    ∃ catalog', catalog.intern rule = (numbered (asked ++ [rule]) rule, catalog') ∧
      catalog'.Holds (asked ++ [rule]) := by
  rw [RuleCatalog.intern, h.find?]
  by_cases hknown : rule ∈ asked
  · rw [if_pos hknown, numbered_append hknown]
    exact ⟨catalog, rfl, h.again hknown⟩
  · rw [if_neg hknown, numbered, idxOf_eraseDups_concat hknown, ← h.created]
    exact ⟨_, rfl, h.add hknown⟩

theorem Holds.register_known (h : catalog.Holds asked) (hknown : rule ∈ asked) :
    catalog.register rule = refuse (.ruleTwice rule.text) :=
  if_pos (h.contains_iff.mpr hknown)

theorem Holds.register_new (h : catalog.Holds asked) (hnew : rule ∉ asked) :
    catalog.register rule = .ok (catalog.intern rule) :=
  if_neg fun hcontains => hnew (h.contains_iff.mp hcontains)

end RuleCatalog

end ProbeForge
