import ProbeForge.Grammar.Definition
import ProbeForge.Proofs.Grammar.Coherence
import ProbeForge.Proofs.OrderedMap

/-!
# What a build makes of a definition

A built grammar is coherent, each of its rules is one that was declared or the rule of a stub, with
behaviours that exist, and each declared nonterminal has a rule. Writing weights changes none of
this, so it holds for every weighting of the definition.
-/

namespace ProbeForge

/-- A rule with its behaviours looked up. -/
structure RuleShape where
  rule : Rule
  generator : Option Generator
  representer : Representer
deriving DecidableEq, Repr

def RuleSpec.shape? (spec : RuleSpec) : Option RuleShape := do
  let left ← spec.left.text?
  let right ← spec.right.mapM (·.text?)
  let generator ← (Generator.resolve spec.generator).toOption
  let representer ← (Representer.resolve spec.representer).toOption
  return ⟨⟨⟨left⟩, right.map (⟨·⟩)⟩, generator, representer⟩

structure RuleEntry.HasShape (entry : RuleEntry) (shape : RuleShape) : Prop where
  rule : entry.rule = shape.rule
  generator : Generator.resolve entry.generator = .ok shape.generator
  representer : Representer.resolve entry.representer = .ok shape.representer

namespace Definition

def stubSpec (name : Json) : RuleSpec :=
  { weight := WeightClass.normal.code, left := name, right := [(s!"<{name.plain}>" : String)],
    generator := .null, representer := Representer.unimplemented.id }

/-- The rules that a definition stands for. -/
def shapes (d : Definition) : List RuleShape :=
  (d.rules ++ d.stubs.map stubSpec).filterMap (·.shape?)

/-- A grammar that has some of the rules. -/
structure Drafted (d : Definition) (g : Grammar) : Prop where
  coherent : g.Coherent
  shaped : ∀ entry ∈ g.table, ∃ shape ∈ d.shapes, entry.HasShape shape

/-- The grammar of the definition under some weights. -/
structure Weighted (d : Definition) (g : Grammar) : Prop extends d.Drafted g where
  nonterminal : ∀ name ∈ d.nonterminals, g.isNonterminal ⟨name.plain⟩ = true
  start : ∀ name, d.start = .text name → g.start = some ⟨name⟩

variable {d : Definition} {g g' : Grammar}

/-! ### One rule -/

theorem symbolOf?_ok {symbols : SymbolCatalog} {name : Json} {symbol : Symbol}
    (h : symbolOf? symbols name = .ok (some symbol)) : name = .text symbol.name := by
  obtain ⟨-, -, h⟩ := bind_ok.mp h
  rw [pure_ok] at h
  obtain ⟨text, htext, hfind⟩ := Option.bind_eq_some_iff.mp h
  have hname : symbol.name = text := by simpa using List.find?_some hfind
  cases name <;> simp_all [Json.text?]

theorem mem_of_symbolOf? {symbols : SymbolCatalog} {name : Json} {symbol : Symbol}
    (h : symbolOf? symbols name = .ok (some symbol)) : symbol ∈ symbols.symbols := by
  obtain ⟨-, -, h⟩ := bind_ok.mp h
  rw [pure_ok] at h
  obtain ⟨text, -, hfind⟩ := Option.bind_eq_some_iff.mp h
  exact List.mem_of_find?_eq_some hfind

/-- A right side that is resolved lists known symbols, by their names. -/
theorem resolveRight_ok {symbols : SymbolCatalog} {left : Json} {names : List Json}
    {right : List Symbol} (h : d.resolveRight symbols left names = .ok right) :
    names = right.map (.text ·.name) ∧ ∀ symbol ∈ right, symbol ∈ symbols.symbols := by
  induction names generalizing right with
  | nil =>
    cases h
    exact ⟨rfl, fun symbol hsymbol => nomatch hsymbol⟩
  | cons name names ih =>
    rw [resolveRight] at h
    obtain ⟨symbol, hsymbol, h⟩ := bind_ok.mp h
    cases symbol with
    | none => simp at h
    | some symbol =>
      obtain ⟨rest, hrest, h⟩ := bind_ok.mp h
      cases pure_ok.mp h
      obtain ⟨hnames, hknown⟩ := ih hrest
      refine ⟨?_, List.forall_mem_cons.mpr ⟨mem_of_symbolOf? hsymbol, hknown⟩⟩
      rw [List.map_cons, ← hnames, symbolOf?_ok hsymbol]

theorem shape?_eq {spec : RuleSpec} {left : Symbol} {right : List Symbol}
    {generator : Option Generator} {representer : Representer}
    (hleft : spec.left = .text left.name) (hright : spec.right = right.map (.text ·.name))
    (hgenerator : Generator.resolve spec.generator = .ok generator)
    (hrepresenter : Representer.resolve spec.representer = .ok representer) :
    spec.shape? = some ⟨⟨left, right⟩, generator, representer⟩ := by
  have htexts : spec.right.mapM (·.text?) = some (right.map (·.name)) := by
    rw [hright, List.mapM_map]
    exact List.mapM_pure
  have hnames : right.map ((⟨·⟩ : String → Symbol) ∘ (·.name)) = right := List.map_id right
  rw [RuleSpec.shape?, htexts, hleft, hgenerator, hrepresenter]
  simp [Json.text?, Except.toOption, hnames]

theorem register_ok {rules rules' : RuleCatalog} {rule : Rule} {made : Nat × Rule}
    (h : rules.register rule = .ok (made, rules')) : made.2 = rule := by
  unfold RuleCatalog.register at h
  split at h
  · simp at h
  case isFalse hnew =>
    rw [RuleCatalog.intern, Option.not_isSome_iff_eq_none.mp hnew] at h
    cases h
    rfl

/-- What a rule and its weight are checked for before they are added. -/
structure Admits (d : Definition) (symbols : SymbolCatalog) (spec : RuleSpec) (rule : Rule)
    (weight : Int) : Prop where
  left : spec.left = .text rule.left.name
  notTerminal : d.isTerminal rule.left = false
  right : spec.right = rule.right.map (.text ·.name)
  known : ∀ symbol ∈ rule.right, symbol ∈ symbols.symbols
  weight : WeightClass.weightOf spec.weight = .ok weight
  generator : ∃ generator, Generator.resolve spec.generator = .ok generator
  representer : ∃ representer, Representer.resolve spec.representer = .ok representer

theorem addTo_admits {draft draft' : Draft} {spec : RuleSpec}
    (h : d.addTo draft spec = .ok draft') :
    ∃ rule weight, d.Admits draft.grammar.symbols spec rule weight ∧
      draft.grammar.addRule rule weight spec.generator spec.representer = .ok draft'.grammar := by
  unfold addTo at h
  obtain ⟨left?, hleft?, h⟩ := bind_ok.mp h
  split at h
  case h_2 => simp at h
  case h_1 left hleft =>
    obtain ⟨right, hright, h⟩ := bind_ok.mp h
    obtain ⟨generator, hgenerator, h⟩ := bind_ok.mp h
    obtain ⟨representer, hrepresenter, h⟩ := bind_ok.mp h
    obtain ⟨⟨⟨serial, rule⟩, rules⟩, hregister, h⟩ := bind_ok.mp h
    obtain ⟨weight, hweight, h⟩ := bind_ok.mp h
    obtain ⟨grammar, hadd, h⟩ := bind_ok.mp h
    cases pure_ok.mp h
    cases register_ok hregister
    obtain ⟨hsome, hnot⟩ := Option.filter_eq_some_iff.mp hleft
    exact ⟨⟨left, right⟩, weight,
      { left := symbolOf?_ok (hsome ▸ hleft?)
        notTerminal := by simpa using hnot
        right := (resolveRight_ok hright).1
        known := (resolveRight_ok hright).2
        weight := hweight
        generator := ⟨generator, hgenerator⟩
        representer := ⟨representer, hrepresenter⟩ }, hadd⟩

theorem addTo_ok {draft draft' : Draft} {spec : RuleSpec} (h : d.addTo draft spec = .ok draft') :
    ∃ shape weight, spec.shape? = some shape ∧
      draft.grammar.addRule shape.rule weight spec.generator spec.representer =
        .ok draft'.grammar ∧
      Generator.resolve spec.generator = .ok shape.generator ∧
      Representer.resolve spec.representer = .ok shape.representer := by
  obtain ⟨rule, weight, hadmits, hadd⟩ := addTo_admits h
  obtain ⟨generator, hgenerator⟩ := hadmits.generator
  obtain ⟨representer, hrepresenter⟩ := hadmits.representer
  exact ⟨⟨rule, generator, representer⟩, weight,
    shape?_eq hadmits.left hadmits.right hgenerator hrepresenter, hadd, hgenerator, hrepresenter⟩

/-! ### All rules -/

theorem Drafted.congr (h : d.Drafted g) (htable : g'.table = g.table)
    (hgroups : g'.groups = g.groups) : d.Drafted g' :=
  ⟨h.coherent.congr htable hgroups, htable ▸ h.shaped⟩

theorem Drafted.addTo {draft draft' : Draft} {spec : RuleSpec}
    (hspec : spec ∈ d.rules ++ d.stubs.map stubSpec) (h : d.addTo draft spec = .ok draft')
    (hdraft : d.Drafted draft.grammar) : d.Drafted draft'.grammar := by
  obtain ⟨shape, weight, hshape, hadd, hgenerator, hrepresenter⟩ := addTo_ok h
  refine ⟨hdraft.coherent.addRule hadd, ?_⟩
  obtain ⟨-, -, hgrammar⟩ := Grammar.addRule_ok hadd
  rw [hgrammar]
  intro entry hentry
  rcases Array.mem_push.mp hentry with hentry | rfl
  · exact hdraft.shaped entry hentry
  · exact ⟨shape, List.mem_filterMap.mpr ⟨spec, hspec, hshape⟩, rfl, hgenerator, hrepresenter⟩

theorem Drafted.addStub {draft draft' : Draft} {name : Json} (hname : name ∈ d.stubs)
    (h : d.addStub draft name = .ok draft') (hdraft : d.Drafted draft.grammar) :
    d.Drafted draft'.grammar := by
  refine Drafted.addTo (List.mem_append_right _ (List.mem_map_of_mem hname)) h ?_
  exact hdraft.congr rfl rfl

theorem drafted_outline (h : d.outline = .ok g) : d.Drafted g := by
  obtain ⟨symbols, -, h⟩ := bind_ok.mp h
  cases pure_ok.mp h
  refine ⟨(Grammar.coherent_empty d.name).congr rfl rfl, fun entry hentry => ?_⟩
  simp [Grammar.empty] at hentry

/-- A build goes through the rules and then the stubs, and checks what came of it. -/
theorem build_ok (h : d.build = .ok g) : ∃ outline ruled stubbed start,
    d.outline = .ok outline ∧
    d.rules.foldlM d.addTo { grammar := outline, rules := .empty } = .ok ruled ∧
    d.stubs.foldlM d.addStub ruled = .ok stubbed ∧ g = { stubbed.grammar with start } ∧
    (∀ name ∈ d.nonterminals, g.isNonterminal ⟨name.plain⟩ = true) ∧
    (d.start.isNull = false → ∃ symbol, d.start = .text symbol.name ∧ start = some symbol ∧
      g.isNonterminal symbol = true) := by
  unfold build at h
  obtain ⟨clash, -, h⟩ := bind_ok.mp h
  dsimp only at h
  split at h
  · simp [bind_ok] at h
  obtain ⟨outline, houtline, h⟩ := bind_ok.mp h
  obtain ⟨ruled, hruled, h⟩ := bind_ok.mp h
  obtain ⟨stubbed, hstubbed, h⟩ := bind_ok.mp h
  split at h
  · simp [bind_ok] at h
  case isFalse hmissing =>
    -- every declared nonterminal has a rule by now, and so must the start symbol
    have hnonterminal : ∀ name ∈ d.nonterminals,
        stubbed.grammar.isNonterminal ⟨name.plain⟩ = true := by
      simpa using hmissing
    split at h
    case isTrue hnull =>
      cases pure_ok.mp h
      refine ⟨outline, ruled, stubbed, _, houtline, hruled, hstubbed, rfl, hnonterminal,
        fun hgiven => ?_⟩
      rw [hnull] at hgiven
      cases hgiven
    case isFalse =>
      obtain ⟨start?, hstart?, h⟩ := bind_ok.mp h
      split at h
      case h_2 => simp at h
      case h_1 start hstart =>
        cases pure_ok.mp h
        obtain ⟨hsome, hruled'⟩ := Option.filter_eq_some_iff.mp hstart
        exact ⟨outline, ruled, stubbed, some start, houtline, hruled, hstubbed, rfl, hnonterminal,
          fun _ => ⟨start, symbolOf?_ok (hsome ▸ hstart?), rfl, hruled'⟩⟩

theorem weighted_build (h : d.build = .ok g) : d.Weighted g := by
  obtain ⟨outline, ruled, stubbed, start, houtline, hruled, hstubbed, rfl, hnonterminal, hstart⟩ :=
    build_ok h
  have hdraft : d.Drafted stubbed.grammar := by
    refine foldlM_ok (P := fun draft : Draft => d.Drafted draft.grammar) ?_ hstubbed ?_
    · exact fun draft draft' name hname hadd => Drafted.addStub hname hadd
    · refine foldlM_ok (P := fun draft : Draft => d.Drafted draft.grammar) ?_ hruled ?_
      · exact fun draft draft' spec hspec hadd =>
          Drafted.addTo (List.mem_append_left _ hspec) hadd
      · exact drafted_outline houtline
  refine ⟨hdraft.congr rfl rfl, hnonterminal, fun name hname => ?_⟩
  obtain ⟨symbol, hsymbol, hsome, -⟩ := hstart (by rw [hname]; rfl)
  cases hname.symm.trans hsymbol
  exact hsome

/-! ### Texts -/

theorem texts_addTo {draft draft' : Draft} {spec : RuleSpec} (h : d.addTo draft spec = .ok draft') :
    draft'.grammar.texts = draft.grammar.texts := by
  obtain ⟨shape, weight, -, hadd, -, -⟩ := addTo_ok h
  obtain ⟨-, -, hgrammar⟩ := Grammar.addRule_ok hadd
  rw [hgrammar]

/-- Rules and stubs leave the texts as the terminals were declared. -/
theorem texts_build (h : d.build = .ok g) :
    g.texts = ⟨d.terminals.values.map fun (name, text) => (⟨name.plain⟩, text)⟩ := by
  obtain ⟨outline, ruled, stubbed, start, houtline, hruled, hstubbed, rfl, -, -⟩ := build_ok h
  have hkept : stubbed.grammar.texts = outline.texts := by
    refine foldlM_ok (P := fun draft : Draft => draft.grammar.texts = outline.texts) ?_ hstubbed ?_
    · exact fun draft draft' name _ hadd hdraft => (texts_addTo hadd).trans hdraft
    · refine foldlM_ok (P := fun draft : Draft => draft.grammar.texts = outline.texts) ?_ hruled rfl
      exact fun draft draft' spec _ hadd hdraft => (texts_addTo hadd).trans hdraft
  obtain ⟨symbols, -, houtline⟩ := bind_ok.mp houtline
  cases pure_ok.mp houtline
  exact hkept

theorem Weighted.setWeights (hg : d.Weighted g) {weights : List Int} {requirePositive : Bool}
    (h : g.setWeights weights requirePositive = .ok g') : d.Weighted g' := by
  have hcoherent := hg.coherent.setWeights h
  obtain ⟨read, hlength, -, rfl⟩ := Grammar.setWeights_ok h
  refine ⟨⟨hcoherent, fun entry hentry => ?_⟩, fun name hname => ?_, hg.start⟩
  · obtain ⟨old, hold, weight, rfl⟩ := Grammar.mem_replaceWeights hentry
    obtain ⟨shape, hshape, hrule, hgenerator, hrepresenter⟩ := hg.shaped old hold
    exact ⟨shape, hshape, hrule, hgenerator, hrepresenter⟩
  · obtain ⟨group, hgroup, hsymbol⟩ := Grammar.isNonterminal_iff.mp (hg.nonterminal name hname)
    exact Grammar.isNonterminal_iff.mpr ⟨_, Array.mem_map_of_mem hgroup, hsymbol⟩

end Definition

end ProbeForge
