import ProbeForge.Proofs.Interning.Catalogs
import ProbeForge.Proofs.Interning.Requests

/-!
# Interning

Catalogs are asked for things in any order, also for what cannot be named and for what must be new
but is not. Whatever happens, each name and each pair of sides has one object, the one that was made
when it was asked for first.
-/

namespace ProbeForge.Interning

variable {asked : List Identity} {identity : Identity} {c : Catalogs} {request : Request}

/-! ### Objects -/

theorem mem_names {n : String} : n ∈ asked.filterMap Identity.name? ↔ .name n ∈ asked := by
  have hname : ∀ identity : Identity, identity.name? = some n ↔ identity = .name n := by
    intro identity
    cases identity <;> simp [Identity.name?]
  simp [List.mem_filterMap, hname]

theorem mem_rules {r : Rule} : r ∈ asked.filterMap Identity.rule? ↔ .sides r ∈ asked := by
  have hrule : ∀ identity : Identity, identity.rule? = some r ↔ identity = .sides r := by
    intro identity
    cases identity <;> simp [Identity.rule?]
  simp [List.mem_filterMap, hrule]

/-- The object of an identity once it was asked for among others. -/
def Identity.object (asked : List Identity) : Identity → Object
  | name n => .symbol ((asked.filterMap name?).eraseDups.idxOf n) ⟨n⟩
  | sides r => .rule ((asked.filterMap rule?).eraseDups.idxOf r) r

theorem identity_object (asked : List Identity) (identity : Identity) :
    (identity.object asked).identity = identity := by
  cases identity <;> rfl

/-- No object is made anew, whatever is asked for later. -/
theorem object_append (h : identity ∈ asked) (more : List Identity) :
    identity.object (asked ++ more) = identity.object asked := by
  cases identity with
  | name n =>
    rw [Identity.object, List.filterMap_append, idxOf_eraseDups_append (mem_names.mpr h),
      Identity.object]
  | sides r =>
    rw [Identity.object, List.filterMap_append, idxOf_eraseDups_append (mem_rules.mpr h),
      Identity.object]

/-! ### What the catalogs hold -/

/-- What was asked for is there, and nothing else. -/
structure Catalogs.Holds (c : Catalogs) (asked : List Identity) : Prop where
  symbols : c.symbols.Holds (asked.filterMap Identity.name?)
  rules : c.rules.Holds (asked.filterMap Identity.rule?)

theorem Catalogs.Holds.find? (h : c.Holds asked) (identity : Identity) :
    c.find? identity = if identity ∈ asked then some (identity.object asked) else none := by
  cases identity with
  | name n =>
    rw [Catalogs.find?, h.symbols.find?, if_congr mem_names rfl rfl]
    split
    · rw [Option.map_some, h.symbols.serial]
      rfl
    · rfl
  | sides r =>
    rw [Catalogs.find?, h.rules.find?, if_congr mem_rules rfl rfl]
    split <;> rfl

theorem Catalogs.Holds.isSome_find? (h : c.Holds asked) :
    (c.find? identity).isSome = true ↔ identity ∈ asked := by
  rw [h.find?]
  split <;> simp [*]

theorem Catalogs.Holds.symbolObjects (h : c.Holds asked) :
    c.symbolObjects = (asked.filterMap Identity.name?).eraseDups.map fun n =>
      (Identity.name n).object asked := by
  rw [Catalogs.symbolObjects, h.symbols, List.map_map]
  refine List.map_congr_left fun n _ => ?_
  rw [Function.comp_apply, h.symbols.serial]
  rfl

theorem Catalogs.Holds.ruleObjects (h : c.Holds asked) :
    c.ruleObjects = (Rule.grouped (asked.filterMap Identity.rule?).eraseDups).map fun r =>
      (Identity.sides r).object asked := by
  rw [Catalogs.ruleObjects, h.rules.rules_eq, List.map_map]
  rfl

/-- What is visited is what is found. -/
theorem Catalogs.Holds.find?_visited (h : c.Holds asked) {object : Object}
    (hobject : object ∈ c.symbolObjects ++ c.ruleObjects) :
    c.find? object.identity = some object := by
  obtain ⟨identity, hknown, rfl⟩ : ∃ identity ∈ asked, identity.object asked = object := by
    rw [h.symbolObjects, h.ruleObjects, List.mem_append, List.mem_map, List.mem_map] at hobject
    obtain ⟨n, hn, hobject⟩ | ⟨r, hr, hobject⟩ := hobject
    · exact ⟨.name n, mem_names.mp (List.mem_eraseDups.mp hn), hobject⟩
    · exact ⟨.sides r, mem_rules.mp (List.mem_eraseDups.mp (Rule.mem_grouped.mp hr)), hobject⟩
  rw [identity_object, h.find?, if_pos hknown]

theorem Catalogs.Holds.ask_name (h : c.Holds asked) {n : String} {symbols : SymbolCatalog}
    (hsymbols : symbols.Holds (asked.filterMap Identity.name? ++ [n])) :
    Holds { c with symbols } (asked ++ [.name n]) := by
  refine ⟨?_, ?_⟩ <;> rw [List.filterMap_append]
  · exact hsymbols
  · exact (List.append_nil _).symm ▸ h.rules

theorem Catalogs.Holds.ask_sides (h : c.Holds asked) {r : Rule} {rules : RuleCatalog}
    (hrules : rules.Holds (asked.filterMap Identity.rule? ++ [r])) :
    Holds { c with rules } (asked ++ [.sides r]) := by
  refine ⟨?_, ?_⟩ <;> rw [List.filterMap_append]
  · exact (List.append_nil _).symm ▸ h.symbols
  · exact hrules

/-- To ask for what is there adds nothing. -/
theorem Catalogs.Holds.again (h : c.Holds asked) (hknown : identity ∈ asked) :
    c.Holds (asked ++ [identity]) := by
  cases identity with
  | name n => exact h.ask_name (h.symbols.again (mem_names.mpr hknown))
  | sides r => exact h.ask_sides (h.rules.again (mem_rules.mpr hknown))

/-! ### One request -/

/-- What a request comes to: its arguments are invalid, or it asks for something new that is there
already, or it gives the object of its identity. -/
inductive Ran (asked : List Identity) (request : Request) :
    Except Fault (Object × Catalogs) → Prop where
  | invalid {fault : Fault} (none : request.identity? = none) : Ran asked request (.error fault)
  | twice {identity : Identity} (valid : request.identity? = some identity)
      (anew : request.way = .register) (known : identity ∈ asked) :
      Ran asked request (.error (.configuration identity.twice))
  | given {identity : Identity} {next : Catalogs} (valid : request.identity? = some identity)
      (free : request.way = .register → identity ∉ asked)
      (holds : next.Holds (asked ++ [identity])) :
      Ran asked request (.ok (identity.object (asked ++ [identity]), next))

theorem Catalogs.Holds.given_symbol (h : c.Holds asked) {way : Way} {name : Json} {n : String}
    {symbols : SymbolCatalog} (hvalid : (Request.symbol way name).identity? = some (.name n))
    (hfree : way = .register → .name n ∉ asked)
    (hrun : way.symbol c.symbols name =
      .ok (((asked.filterMap Identity.name? ++ [n]).eraseDups.idxOf n, ⟨n⟩), symbols))
    (hsymbols : symbols.Holds (asked.filterMap Identity.name? ++ [n])) :
    Ran asked (.symbol way name) ((Request.symbol way name).run c) := by
  have hgiven := Ran.given hvalid hfree (h.ask_name hsymbols)
  rw [Identity.object, List.filterMap_append] at hgiven
  rw [Request.run, hrun]
  exact hgiven

theorem Catalogs.Holds.given_rule (h : c.Holds asked) {way : Way} {left : Operand}
    {right : Except Fault (List Operand)} {r : Rule} {rules : RuleCatalog}
    (hvalid : (Request.rule way left right).identity? = some (.sides r))
    (hfree : way = .register → .sides r ∉ asked)
    (hrun : way.rule c.rules left right =
      .ok (RuleCatalog.numbered (asked.filterMap Identity.rule? ++ [r]) r, rules))
    (hrules : rules.Holds (asked.filterMap Identity.rule? ++ [r])) :
    Ran asked (.rule way left right) ((Request.rule way left right).run c) := by
  have hgiven := Ran.given hvalid hfree (h.ask_sides hrules)
  rw [Identity.object, List.filterMap_append] at hgiven
  rw [Request.run, hrun]
  exact hgiven

theorem Catalogs.Holds.ran (h : c.Holds asked) (request : Request) :
    Ran asked request (request.run c) := by
  cases request with
  | symbol way name =>
    cases hvalid : (Request.symbol way name).identity? with
    | none =>
      obtain ⟨fault, hfault⟩ := symbol_invalid c.symbols hvalid
      rw [Request.run, hfault]
      exact .invalid hvalid
    | some identity =>
      obtain ⟨n, rfl, hn, rfl⟩ := symbol_valid hvalid
      obtain ⟨symbols, hintern, hsymbols⟩ := h.symbols.intern hn
      -- to register is to intern once it is clear that the name is new
      cases way with
      | intern => exact h.given_symbol hvalid nofun hintern hsymbols
      | register =>
        by_cases hknown : n ∈ asked.filterMap Identity.name?
        · have hrefused := h.symbols.register_known hknown
          rw [Request.run, Way.symbol, SymbolCatalog.registerName, hrefused]
          exact .twice hvalid rfl (mem_names.mp hknown)
        · exact h.given_symbol hvalid (fun _ hmem => hknown (mem_names.mpr hmem))
            ((h.symbols.register_new hknown).trans hintern) hsymbols
  | rule way left right =>
    cases hvalid : (Request.rule way left right).identity? with
    | none =>
      obtain ⟨fault, hfault⟩ := rule_invalid c.rules hvalid
      rw [Request.run, hfault]
      exact .invalid hvalid
    | some identity =>
      obtain ⟨r, hsides, rfl⟩ := rule_valid hvalid
      obtain ⟨rules, hintern, hrules⟩ := h.rules.intern r
      cases way with
      | intern =>
        refine h.given_rule hvalid nofun ?_ hrules
        rw [Way.rule, RuleCatalog.internSides, hsides, ← hintern]
        rfl
      | register =>
        have hregister : Way.register.rule c.rules left right = c.rules.register r := by
          rw [Way.rule, RuleCatalog.registerSides, hsides]
          rfl
        by_cases hknown : r ∈ asked.filterMap Identity.rule?
        · rw [Request.run, hregister, h.rules.register_known hknown]
          exact .twice hvalid rfl (mem_rules.mp hknown)
        · refine h.given_rule hvalid (fun _ hmem => hknown (mem_rules.mpr hmem)) ?_ hrules
          rw [hregister, h.rules.register_new hknown, hintern]

/-! ### Histories -/

theorem Catalogs.Holds.next (h : c.Holds asked) (request : Request) :
    (c.next request).Holds (asked ++ request.identity?.toList) := by
  have hran := h.ran request
  unfold Catalogs.next
  generalize request.run c = r at hran
  cases hran with
  | invalid hnone =>
    rw [hnone, Option.toList_none, List.append_nil]
    exact h
  | twice hvalid _ hknown =>
    rw [hvalid]
    exact h.again hknown
  | given hvalid _ hnext =>
    rw [hvalid]
    exact hnext

theorem after_concat (before : List Request) (request : Request) :
    Catalogs.after (before ++ [request]) = (Catalogs.after before).next request :=
  List.foldl_concat ..

theorem holds_after (requests : List Request) :
    (Catalogs.after requests).Holds (requests.filterMap Request.identity?) := by
  induction requests using List.reverseRecOn with
  | nil => exact ⟨SymbolCatalog.holds_empty, RuleCatalog.holds_empty⟩
  | append_singleton requests request ih =>
    rw [after_concat, List.filterMap_append]
    have hnext := ih.next request
    cases hidentity : request.identity? <;> simpa [hidentity] using hnext

theorem Ran.refused_iff {answer : Except Fault (Object × Catalogs)}
    (h : Ran asked request answer) :
    (∃ fault, answer = .error fault) ↔ request.identity? = none ∨
      ∃ identity ∈ asked, request.identity? = some identity ∧ request.way = .register := by
  cases h with
  | invalid hnone => exact iff_of_true ⟨_, rfl⟩ (.inl hnone)
  | twice hvalid hanew hknown => exact iff_of_true ⟨_, rfl⟩ (.inr ⟨_, hknown, hvalid, hanew⟩)
  | given hvalid hfree =>
    refine iff_of_false nofun ?_
    rintro (hnone | ⟨identity, hknown, hidentity, hanew⟩)
    · exact Option.some_ne_none _ (hvalid.symm.trans hnone)
    · cases hvalid.symm.trans hidentity
      exact hfree hanew hknown

theorem Ran.fault_eq {fault : Fault} (h : Ran asked request (.error fault))
    (hvalid : request.identity? = some identity) : fault = .configuration identity.twice := by
  cases h with
  | invalid hnone => exact absurd (hvalid.symm.trans hnone) (Option.some_ne_none _)
  | twice hidentity =>
    cases hvalid.symm.trans hidentity
    rfl

theorem Ran.of_ok {object : Object} {next : Catalogs} (h : Ran asked request (.ok (object, next))) :
    request.identity? = some object.identity ∧ next.Holds (asked ++ [object.identity]) ∧
      object = object.identity.object (asked ++ [object.identity]) := by
  cases h with
  | given hvalid _ hnext =>
    rw [identity_object]
    exact ⟨hvalid, hnext, rfl⟩

/-- An object that was given once is found ever after. -/
theorem found_after {before : List Request} {object : Object} {next : Catalogs}
    (h : request.run (Catalogs.after before) = .ok (object, next)) (later : List Request) :
    (Catalogs.after (before ++ request :: later)).find? object.identity = some object := by
  have hran := (holds_after before).ran request
  rw [h] at hran
  obtain ⟨hidentity, -, hobject⟩ := hran.of_ok
  have hmem : object.identity ∈ before.filterMap Request.identity? ++ [object.identity] :=
    List.mem_append_right _ (List.mem_singleton_self _)
  have hall : (before ++ request :: later).filterMap Request.identity? =
      before.filterMap Request.identity? ++ [object.identity] ++
        later.filterMap Request.identity? := by
    rw [List.filterMap_append, List.filterMap_cons_some hidentity, List.append_cons]
  rw [(holds_after _).find?, hall, if_pos (List.mem_append_left _ hmem), object_append hmem,
    ← hobject]

/-- However the catalogs are called, they have one object for each identity that was asked for, and
what is given once is found ever after. Symbols are visited in the order in which they were asked
for first, and rules side by side. -/
theorem one_object_each (before later : List Request) (request : Request) :
    let now := Catalogs.after before
    let final := Catalogs.after (before ++ request :: later)
    let asked := before.filterMap Request.identity?
    let names := asked.filterMap Identity.name?
    let rules := asked.filterMap Identity.rule?
    (now.symbolObjects.map Object.identity = names.eraseDups.map .name ∧
      now.symbols.size = names.toFinset.card) ∧
    (now.ruleObjects.map Object.identity = (Rule.grouped rules.eraseDups).map .sides ∧
      now.rules.size = rules.toFinset.card) ∧
    (∀ object ∈ now.symbolObjects ++ now.ruleObjects,
      now.find? object.identity = some object) ∧
    (∀ identity, (now.find? identity).isSome = true ↔ identity ∈ asked) ∧
    -- a call is refused if its arguments are invalid or it registers what is there
    ((∃ fault, request.run now = .error fault) ↔ request.identity? = none ∨
      ∃ identity, request.identity? = some identity ∧ request.way = .register ∧
        (now.find? identity).isSome = true) ∧
    (∀ fault, request.run now = .error fault → Catalogs.after (before ++ [request]) = now ∧
      ∀ identity, request.identity? = some identity → fault = .configuration identity.twice) ∧
    -- otherwise it gives the object that is found from then on
    ∀ object next, request.run now = .ok (object, next) →
      Catalogs.after (before ++ [request]) = next ∧ request.identity? = some object.identity ∧
        next.find? object.identity = some object ∧ final.find? object.identity = some object := by
  intro now final asked names rules
  have hnow : now.Holds asked := holds_after before
  have hran := hnow.ran request
  refine ⟨⟨?_, hnow.symbols.size⟩, ⟨?_, hnow.rules.size⟩,
    fun object hobject => hnow.find?_visited hobject, fun _ => hnow.isSome_find?, ?_, ?_, ?_⟩
  · rw [hnow.symbolObjects, List.map_map]
    rfl
  · rw [hnow.ruleObjects, List.map_map]
    rfl
  · rw [hran.refused_iff]
    refine or_congr_right (exists_congr fun identity => ?_)
    rw [hnow.isSome_find?, and_comm, and_assoc]
  · intro fault hfault
    rw [hfault] at hran
    refine ⟨?_, fun identity => hran.fault_eq⟩
    rw [after_concat, Catalogs.next, hfault]
  · intro object next hgiven
    have hnext : Catalogs.after (before ++ [request]) = next := by
      rw [after_concat, Catalogs.next, hgiven]
    have hfound := found_after hgiven
    rw [hgiven] at hran
    exact ⟨hnext, hran.of_ok.1, hnext ▸ hfound [], hfound later⟩

/-- The rules of a side stay together, whatever came between them. -/
example :
    let s : Symbol := ⟨"S"⟩
    let t : Symbol := ⟨"T"⟩
    let catalogs := Catalogs.after [.rule .intern (.symbol s) (.ok []),
      .rule .register (.symbol t) (.ok []), .symbol .intern "a", .symbol .register "a",
      .rule .register (.symbol s) (.ok [.symbol t]), .rule .register (.symbol s) (.ok []),
      .rule .intern (.symbol s) (.error .wrongType), .symbol .intern ""]
    catalogs.ruleObjects = [.rule 0 ⟨s, []⟩, .rule 2 ⟨s, [t]⟩, .rule 1 ⟨t, []⟩] ∧
      catalogs.symbolObjects = [.symbol 0 ⟨"a"⟩] := by
  decide +kernel

end ProbeForge.Interning
