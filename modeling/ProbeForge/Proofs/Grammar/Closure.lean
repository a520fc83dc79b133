import Mathlib.Data.List.Forall2
import ProbeForge.Grammar.Declaration
import ProbeForge.Proofs.Grammar.Selection

/-!
# Closed grammars

What a build returns is closed: each symbol on a right side has a rule or was declared a terminal,
and each declared name is of one kind only. The order of declarations does not matter for this, nor
do names that are declared again. While rules are added, the table uses registered symbols only;
each of these has been declared a terminal, or it is a nonterminal for which a rule is required in
the end.
-/

namespace ProbeForge

/-! ### Symbols with rules -/

namespace Grammar

variable {g : Grammar} {symbol : Symbol}

def HasRule (g : Grammar) (symbol : Symbol) : Prop := ∃ entry ∈ g.table, entry.rule.left = symbol

theorem Coherent.isNonterminal_iff_hasRule (hg : g.Coherent) :
    g.isNonterminal symbol = true ↔ g.HasRule symbol := by
  rw [isNonterminal_iff]
  constructor
  · rintro ⟨group, hgroup, rfl⟩
    obtain ⟨i, hi⟩ := List.exists_mem_of_ne_nil _ (hg.inhabited group hgroup)
    obtain ⟨entry, hentry, hleft⟩ := hg.entry_of_mem hgroup hi
    exact ⟨entry, Array.mem_of_getElem? hentry, hleft⟩
  · rintro ⟨entry, hentry, rfl⟩
    exact hg.owned entry hentry

/-- A list takes up those of another that it does not have. -/
theorem mem_foldl_join {all symbols : List Symbol} :
    symbol ∈ symbols.foldl (fun all s => if all.contains s then all else all ++ [s]) all ↔
      symbol ∈ all ∨ symbol ∈ symbols := by
  induction symbols generalizing all with
  | nil => simp
  | cons s symbols ih =>
    rw [List.foldl_cons, ih]
    split
    case isTrue hmem =>
      have hold : symbol = s → symbol ∈ all := fun heq => heq ▸ List.contains_iff_mem.mp hmem
      rw [List.mem_cons]
      tauto
    case isFalse => rw [List.mem_append, List.mem_singleton, List.mem_cons, or_assoc]

theorem mem_declare {symbols : List Symbol} :
    symbol ∈ (g.declare symbols).declared ↔ symbol ∈ g.declared ∨ symbol ∈ symbols :=
  mem_foldl_join

theorem mem_terminals : symbol ∈ g.terminals ↔
    (∃ entry ∈ g.table, symbol ∈ entry.rule.right) ∧ g.isNonterminal symbol = false := by
  unfold terminals Symbol.sort
  rw [(List.mergeSort_perm _ _).mem_iff, mem_foldl_join]
  simp

end Grammar

namespace Definition

variable {d d' : Definition} {g : Grammar}

/-! ### Declarations -/

/-- A definition that was made by declarations. -/
inductive Declared : Definition → Prop where
  | empty (name description : Json) : Declared (empty name description)
  | nonterminal {d : Definition} (name : Json) (h : Declared d) :
    Declared (d.declareNonterminal name)
  | terminal {d d' : Definition} {name text : Json} (h : Declared d)
    (declared : d.declareTerminal name text = .ok d') : Declared d'
  | rule {d : Definition} (spec : RuleSpec) (h : Declared d) : Declared (d.addRule spec)
  | stub {d : Definition} (name : Json) (h : Declared d) : Declared (d.declareStubs [name])
  | start {d : Definition} (name : Json) (h : Declared d) : Declared (d.startAt name)

theorem Declared.nonterminals (h : Declared d) (names : List Json) :
    Declared (d.declareNonterminals names) := by
  induction names generalizing d with
  | nil => exact h
  | cons name names ih => exact ih (h.nonterminal name)

theorem Declared.stubs (h : Declared d) (names : List Json) : Declared (d.declareStubs names) := by
  induction names generalizing d with
  | nil => exact h
  | cons name names ih => exact ih (h.stub name)

theorem Declared.terminals (h : Declared d) {names : List Json}
    (hdeclared : d.declareTerminals names = .ok d') : Declared d' :=
  foldlM_ok (fun _ _ _ _ hstep hd => hd.terminal hstep) hdeclared h

theorem Declared.keywords (h : Declared d) {words : List Json}
    (hdeclared : d.declareKeywords words = .ok d') : Declared d' := by
  refine foldlM_ok (fun _ _ word _ hstep hd => ?_) hdeclared h
  obtain ⟨text, -, hstep⟩ := bind_ok.mp hstep
  exact hd.terminal hstep

theorem Declared.declareRule (h : Declared d) {weight left right generator representer : Json}
    (hdeclared : d.declareRule weight left right generator representer = .ok d') : Declared d' := by
  obtain ⟨names, -, hdeclared⟩ := bind_ok.mp hdeclared
  cases pure_ok.mp hdeclared
  exact h.rule _

theorem Declared.declareRow (h : Declared d) {row : Json}
    (hdeclared : d.declareRow row = .ok d') : Declared d' := by
  obtain ⟨cells, -, hdeclared⟩ := bind_ok.mp hdeclared
  split at hdeclared
  · exact h.declareRule hdeclared
  · cases hdeclared

/-- Each call is a number of declarations. -/
theorem Declared.declare (h : Declared d) {call : Json} (hdeclared : d.declare call = .ok d') :
    Declared d' := by
  obtain ⟨words, -, hdeclared⟩ := bind_ok.mp hdeclared
  split at hdeclared
  case h_1 names => exact pure_ok.mp hdeclared ▸ h.nonterminals names
  case h_2 => exact h.terminals hdeclared
  case h_3 => exact h.keywords hdeclared
  case h_4 names => exact pure_ok.mp hdeclared ▸ h.stubs names
  case h_5 name => exact pure_ok.mp hdeclared ▸ h.start name
  case h_6 | h_7 => exact h.terminal hdeclared
  case h_8 | h_9 | h_10 | h_11 => exact h.declareRule hdeclared
  case h_12 =>
    obtain ⟨rows, -, hdeclared⟩ := bind_ok.mp hdeclared
    exact foldlM_ok (fun _ _ _ _ hrow hd => hd.declareRow hrow) hdeclared h
  case h_13 | h_14 => cases hdeclared

theorem declared_ofDeclarations {name description : Json} {calls : List Json}
    (h : ofDeclarations name description calls = .ok d) : Declared d :=
  foldlM_ok (fun _ _ _ _ hcall hd => hd.declare hcall) h (.empty name description)

/-- Each terminal is kept under the key that its name is. -/
def Keyed (d : Definition) : Prop :=
  ∀ key name text, (key, (name, text)) ∈ d.terminals.entries → name.toKey = .ok key

theorem Keyed.declareTerminal (h : d.Keyed) {name text : Json}
    (hdeclared : d.declareTerminal name text = .ok d') : d'.Keyed := by
  obtain ⟨key, hkey, hdeclared⟩ := bind_ok.mp hdeclared
  cases pure_ok.mp hdeclared
  intro key' name' text' hmem
  rcases OrderedMap.mem_insert hmem with ⟨rfl, hvalue⟩ | hold
  · -- a name that was declared before is kept
    cases hvalue
    cases hfind : d.terminals.find? key' with
    | none => exact hkey
    | some old => exact h key' old.1 old.2 (OrderedMap.mem_of_find? hfind)
  · exact h key' name' text' hold

theorem Declared.keyed (h : Declared d) : d.Keyed := by
  induction h with
  | empty name description => exact fun _ _ _ hmem => nomatch hmem
  | nonterminal name _ ih =>
    unfold declareNonterminal
    split <;> exact ih
  | terminal _ declared ih => exact ih.declareTerminal declared
  | rule _ _ ih => exact ih
  | stub name _ ih =>
    change (declareNonterminal _ name).Keyed
    unfold declareNonterminal
    split <;> exact ih
  | start _ _ ih => exact ih

/-! ### Symbols of a definition -/

theorem registerValue_ok {symbols symbols' : SymbolCatalog} {name : Json} {symbol : Symbol}
    (h : symbols.registerValue name = .ok (symbol, symbols')) :
    name = .text symbol.name ∧ symbols'.symbols = symbols.symbols ++ [symbol] := by
  obtain ⟨⟨⟨serial, symbol⟩, symbols'⟩, h, hsame⟩ := map_ok.mp h
  cases hsame
  unfold SymbolCatalog.registerName at h
  split at h
  case h_1 text =>
    unfold SymbolCatalog.register at h
    split at h
    · simp at h
    case isFalse hnew =>
      unfold SymbolCatalog.intern at h
      split at h
      · simp at h
      · rw [Option.not_isSome_iff_eq_none.mp hnew] at h
        cases h
        exact ⟨rfl, rfl⟩
  case h_2 | h_3 => cases h
  case h_4 hnottext _ _ =>
    unfold SymbolCatalog.internName at h
    split at h
    case h_1 => exact absurd rfl (hnottext _)
    case h_2 => simp at h

theorem registerAll_ok {symbols symbols' : SymbolCatalog} {names : List Json}
    (h : registerAll symbols names = .ok symbols') :
    (∀ name ∈ names, ∃ text, name = .text text) ∧
      ∀ symbol ∈ symbols'.symbols, symbol ∈ symbols.symbols ∨ .text symbol.name ∈ names := by
  induction names generalizing symbols with
  | nil =>
    cases h
    exact ⟨fun name hname => (nomatch hname), fun symbol hsymbol => .inl hsymbol⟩
  | cons name names ih =>
    unfold registerAll at h
    rw [List.foldlM_cons, bind_ok] at h
    obtain ⟨registered, hfirst, h⟩ := h
    obtain ⟨⟨symbol, _⟩, hregister, rfl⟩ := map_ok.mp hfirst
    obtain ⟨hname, hsymbols⟩ := registerValue_ok hregister
    obtain ⟨htexts, hfrom⟩ := ih h
    refine ⟨List.forall_mem_cons.mpr ⟨⟨symbol.name, hname⟩, htexts⟩, fun s hs => ?_⟩
    rcases hfrom s hs with hs | hs
    · rw [hsymbols] at hs
      rcases List.mem_append.mp hs with hs | hs
      · exact .inl hs
      · rw [List.mem_singleton.mp hs]
        exact .inr (hname ▸ List.mem_cons_self)
    · exact .inr (List.mem_cons_of_mem _ hs)

/-- A catalog takes up a name that it does not have. -/
theorem mem_with_name {symbols : SymbolCatalog} {name : String} {symbol : Symbol} :
    symbol ∈ (if symbols.contains name then symbols
      else ⟨symbols.symbols ++ [⟨name⟩]⟩ : SymbolCatalog).symbols ↔
      symbol ∈ symbols.symbols ∨ symbol = ⟨name⟩ := by
  split
  case isTrue hcontains =>
    obtain ⟨known, hknown⟩ := Option.isSome_iff_exists.mp hcontains
    have hname : known = ⟨name⟩ := by
      cases known
      simpa using List.find?_some hknown
    have hold : symbol = ⟨name⟩ → symbol ∈ symbols.symbols := fun heq =>
      heq ▸ hname ▸ List.mem_of_find?_eq_some hknown
    exact ⟨.inl, fun h => h.elim id hold⟩
  case isFalse => rw [List.mem_append, List.mem_singleton]

/-- The terminal that the rule of a stub leads to. -/
def placeholder (name : Json) : Symbol := ⟨s!"<{name.plain}>"⟩

/-- The grammar accounts for all symbols of a definition: its terminals are declared, and besides
them only the placeholders of stubs are; what is not declared is to be a nonterminal. -/
structure Accounts (d : Definition) (g : Grammar) : Prop where
  terminal : ∀ symbol, d.isTerminal symbol = true → symbol ∈ g.declared
  declared : ∀ symbol ∈ g.declared,
    d.isTerminal symbol = true ∨ ∃ name ∈ d.stubs, symbol = placeholder name
  nonterminal : ∀ symbol ∈ g.symbols.symbols,
    .text symbol.name ∈ d.nonterminals ∨ symbol ∈ g.declared

theorem Accounts.congr {g' : Grammar} (h : d.Accounts g) (hdeclared : g'.declared = g.declared)
    (hsymbols : g'.symbols = g.symbols) : d.Accounts g' :=
  ⟨hdeclared ▸ h.terminal, hdeclared ▸ h.declared, hdeclared ▸ hsymbols ▸ h.nonterminal⟩

theorem outline_ok (hd : d.Keyed) (h : d.outline = .ok g) :
    (∀ name ∈ d.nonterminals, ∃ text, name = .text text) ∧
      (∀ key ∈ d.terminals.keys, ∃ text, key = .text text) ∧ d.Accounts g := by
  obtain ⟨symbols, hsymbols, h⟩ := bind_ok.mp h
  cases pure_ok.mp h
  obtain ⟨htexts, hfrom⟩ := registerAll_ok hsymbols
  -- a terminal is named by the text that is its key
  have hterminal : ∀ key name text, (key, (name, text)) ∈ d.terminals.entries →
      key = .text name.plain ∧ name = .text name.plain := by
    intro key name text hmem
    have hvalue : (name, text) ∈ d.terminals.values := List.mem_map_of_mem (f := (·.2)) hmem
    obtain ⟨written, rfl⟩ := htexts name (List.mem_append_right _ (List.mem_map_of_mem hvalue))
    have hkey := hd key _ text hmem
    cases hkey
    exact ⟨rfl, rfl⟩
  have hdeclared : ∀ symbol : Symbol, symbol ∈ (d.terminals.values.map fun terminal =>
      ((⟨terminal.1.plain⟩ : Symbol), terminal.2)).map (·.1) ↔ d.isTerminal symbol = true := by
    intro symbol
    rw [List.map_map, isTerminal, ← OrderedMap.mem_keys]
    constructor
    · intro hmem
      obtain ⟨⟨name, text⟩, hvalue, rfl⟩ := List.mem_map.mp hmem
      obtain ⟨⟨key, _⟩, hentry, rfl⟩ := List.mem_map.mp hvalue
      exact List.mem_map.mpr ⟨_, hentry, (hterminal _ _ _ hentry).1⟩
    · intro hmem
      obtain ⟨⟨key, name, text⟩, hentry, hkey⟩ := List.mem_map.mp hmem
      have hsame := hkey.symm.trans (hterminal _ _ _ hentry).1
      cases symbol
      cases hsame
      exact List.mem_map.mpr ⟨(name, text), List.mem_map_of_mem (f := (·.2)) hentry, rfl⟩
  refine ⟨fun name hname => htexts name (List.mem_append_left _ hname), fun key hkey => ?_,
    fun symbol => (hdeclared symbol).mpr,
    fun symbol hsymbol => .inl ((hdeclared symbol).mp hsymbol), fun symbol hsymbol => ?_⟩
  · obtain ⟨⟨_, name, text⟩, hentry, rfl⟩ := List.mem_map.mp hkey
    exact ⟨_, (hterminal _ _ _ hentry).1⟩
  · rcases hfrom symbol hsymbol with hnone | hname
    · exact absurd hnone List.not_mem_nil
    · refine (List.mem_append.mp hname).imp_right fun hname => ?_
      obtain ⟨⟨_, text⟩, hvalue, rfl⟩ := List.mem_map.mp hname
      exact List.mem_map.mpr ⟨(symbol, text), List.mem_map.mpr ⟨_, hvalue, rfl⟩, rfl⟩

/-! ### Building -/

/-- The rule as it was declared, with the behaviours that it names and the weight of its class. -/
structure Becomes (spec : RuleSpec) (entry : RuleEntry) : Prop where
  left : spec.left = .text entry.rule.left.name
  right : spec.right = entry.rule.right.map (.text ·.name)
  weight : WeightClass.weightOf spec.weight = .ok entry.weight
  generator : entry.generator = spec.generator ∧
    ∃ generator, Generator.resolve entry.generator = .ok generator
  representer : entry.representer = spec.representer ∧
    ∃ representer, Representer.resolve entry.representer = .ok representer

/-- The grammar has the rules that are done, over symbols that are registered. -/
structure Progress (d : Definition) (done : List RuleSpec) (g : Grammar) : Prop where
  orderly : g.Orderly
  table : List.Forall₂ Becomes done g.table.toList
  positive : ∀ entry ∈ g.table, 1 ≤ entry.weight
  left : ∀ entry ∈ g.table, d.isTerminal entry.rule.left = false
  right : ∀ entry ∈ g.table, ∀ symbol ∈ entry.rule.right, symbol ∈ g.symbols.symbols
  accounts : d.Accounts g

theorem progress_outline (hd : d.Keyed) (h : d.outline = .ok g) : d.Progress [] g := by
  have haccounts := (outline_ok hd h).2.2
  obtain ⟨symbols, -, h⟩ := bind_ok.mp h
  cases pure_ok.mp h
  exact ⟨(Grammar.orderly_empty d.name).congr rfl rfl, .nil, fun _ hmem => (nomatch hmem),
    fun _ hmem => (nomatch hmem), fun _ hmem => (nomatch hmem), haccounts⟩

theorem Progress.addTo {done : List RuleSpec} {draft draft' : Draft} {spec : RuleSpec}
    (hdraft : d.Progress done draft.grammar) (h : d.addTo draft spec = .ok draft') :
    d.Progress (done ++ [spec]) draft'.grammar := by
  obtain ⟨rule, weight, hadmits, hadd⟩ := addTo_admits h
  have horderly := hdraft.orderly.addRule hadd
  obtain ⟨hweight, -, hgrammar⟩ := Grammar.addRule_ok hadd
  rw [hgrammar] at horderly ⊢
  have hall {P : RuleEntry → Prop} (hold : ∀ entry ∈ draft.grammar.table, P entry)
      (hnew : P ⟨rule, weight, spec.generator, spec.representer⟩) :
      ∀ entry ∈ draft.grammar.table.push ⟨rule, weight, spec.generator, spec.representer⟩,
        P entry := fun entry hentry =>
    (Array.mem_push.mp hentry).elim (hold entry) fun heq => heq ▸ hnew
  have hbecomes : Becomes spec ⟨rule, weight, spec.generator, spec.representer⟩ :=
    ⟨hadmits.left, hadmits.right, hadmits.weight, ⟨rfl, hadmits.generator⟩,
      ⟨rfl, hadmits.representer⟩⟩
  refine ⟨horderly, ?_, hall hdraft.positive hweight, hall hdraft.left hadmits.notTerminal,
    hall hdraft.right hadmits.known, hdraft.accounts.congr rfl rfl⟩
  rw [Array.toList_push]
  exact List.rel_append hdraft.table (.cons hbecomes .nil)

theorem Progress.addStub {done : List RuleSpec} {draft draft' : Draft} {name : Json}
    (hname : name ∈ d.stubs) (hdraft : d.Progress done draft.grammar)
    (h : d.addStub draft name = .ok draft') :
    d.Progress (done ++ [stubSpec name]) draft'.grammar := by
  refine Progress.addTo ?_ h
  have haccounts := hdraft.accounts
  refine ⟨hdraft.orderly.congr rfl rfl, hdraft.table, hdraft.positive, hdraft.left, ?_, ?_⟩
  · exact fun entry hentry symbol hsymbol =>
      mem_with_name.mpr (.inl (hdraft.right entry hentry symbol hsymbol))
  · refine ⟨fun symbol hterminal => ?_, fun symbol hsymbol => ?_, fun symbol hsymbol => ?_⟩
    · exact Grammar.mem_declare.mpr (.inl (haccounts.terminal symbol hterminal))
    · rcases Grammar.mem_declare.mp hsymbol with hold | hnew
      · exact haccounts.declared symbol hold
      · exact .inr ⟨name, hname, List.mem_singleton.mp hnew⟩
    · rcases mem_with_name.mp hsymbol with hold | hnew
      · exact (haccounts.nonterminal symbol hold).imp_right fun hdeclared =>
          Grammar.mem_declare.mpr (.inl hdeclared)
      · exact .inr (Grammar.mem_declare.mpr (.inr (List.mem_singleton.mpr hnew)))

/-- What a definition asks of its grammar. -/
structure Closed (d : Definition) (g : Grammar) : Prop where
  table : List.Forall₂ Becomes (d.rules ++ d.stubs.map stubSpec) g.table.toList
  once : (g.table.toList.map (·.rule)).Nodup
  positive : ∀ entry ∈ g.table, 1 ≤ entry.weight
  /-- What stands on a right side has a rule, or it is a terminal or the placeholder of a stub. -/
  right : ∀ entry ∈ g.table, ∀ symbol ∈ entry.rule.right, g.HasRule symbol ∨
    symbol ∈ g.declared ∧
      (d.isTerminal symbol = true ∨ ∃ name ∈ d.stubs, symbol = placeholder name)
  undefined : g.undefined = []
  nonterminals : ∀ name ∈ d.nonterminals, ∃ text, name = .text text ∧ g.HasRule ⟨text⟩
  terminals : ∀ key ∈ d.terminals.keys, ∃ text, key = .text text ∧ ¬g.HasRule ⟨text⟩
  start : d.start ≠ .null → ∃ symbol, d.start = .text symbol.name ∧ g.start = some symbol ∧
    g.HasRule symbol

/-- Whatever was declared, and in whatever order, a grammar that is built from it is closed. -/
theorem build_closed (hd : d.Declared) (h : d.build = .ok g) : d.Closed g := by
  obtain ⟨outline, ruled, stubbed, start, houtline, hruled, hstubbed, rfl, hnonterminal, hstart⟩ :=
    build_ok h
  obtain ⟨hnames, hkeys, -⟩ := outline_ok hd.keyed houtline
  have hrules : d.Progress d.rules ruled.grammar :=
    foldlM_prefix (P := fun done (draft : Draft) => d.Progress done draft.grammar)
      (fun _ _ _ _ _ hadd hdraft => hdraft.addTo hadd) [] hruled
      (progress_outline hd.keyed houtline)
  -- what a rule of a stub needs is declared just before it is added
  have hprogress : d.Progress (d.rules ++ d.stubs.map stubSpec) stubbed.grammar := by
    refine foldlM_prefix
      (P := fun done (draft : Draft) => d.Progress (d.rules ++ done.map stubSpec) draft.grammar)
      (fun done draft draft' name hname hadd hdraft => ?_) [] hstubbed (by simpa using hrules)
    rw [List.map_append, ← List.append_assoc]
    exact hdraft.addStub hname hadd
  set g : Grammar := { stubbed.grammar with start } with hg
  have hcoherent : g.Coherent := hprogress.orderly.coherent.congr rfl rfl
  have hright : ∀ entry ∈ g.table, ∀ symbol ∈ entry.rule.right,
      g.isNonterminal symbol = true ∨ symbol ∈ g.declared := fun entry hentry symbol hsymbol =>
    (hprogress.accounts.nonterminal symbol (hprogress.right entry hentry symbol hsymbol)).imp_left
      (hnonterminal (.text symbol.name))
  refine ⟨hprogress.table, hprogress.orderly.once, hprogress.positive, ?_, ?_, ?_, ?_, ?_⟩
  · intro entry hentry symbol hsymbol
    exact (hright entry hentry symbol hsymbol).imp hcoherent.isNonterminal_iff_hasRule.mp
      fun hdeclared => ⟨hdeclared, hprogress.accounts.declared symbol hdeclared⟩
  · refine List.filter_eq_nil_iff.mpr fun symbol hsymbol => ?_
    obtain ⟨⟨entry, hentry, hmem⟩, hnot⟩ := Grammar.mem_terminals.mp hsymbol
    have hdeclared := (hright entry hentry symbol hmem).resolve_left (by simp [hnot])
    simpa using hdeclared
  · intro name hname
    obtain ⟨text, rfl⟩ := hnames name hname
    exact ⟨text, rfl, hcoherent.isNonterminal_iff_hasRule.mp (hnonterminal _ hname)⟩
  · intro key hkey
    obtain ⟨text, rfl⟩ := hkeys key hkey
    refine ⟨text, rfl, fun ⟨entry, hentry, hleft⟩ => ?_⟩
    have hnot := hprogress.left entry hentry
    rw [hleft] at hnot
    cases (OrderedMap.mem_keys.mp hkey).symm.trans hnot
  · intro hgiven
    have hnull : d.start.isNull = false := by
      unfold Json.isNull
      split
      case h_1 hnull => exact absurd hnull hgiven
      case h_2 => rfl
    obtain ⟨symbol, hname, hsome, hsymbol⟩ := hstart hnull
    exact ⟨symbol, hname, hsome, hcoherent.isNonterminal_iff_hasRule.mp hsymbol⟩

/-- Rules come before the names in them, and a stub has a rule of its own besides. -/
def sketch : List Json :=
  [.list ["rule", "N", "S", "a S"], .list ["rule", .int 5, "T", "S"], .list ["stub", "T"],
    .list ["nonterminals", "S", "T"], .list ["terminal", "a", "A"], .list ["rule", "O", "S"],
    .list ["start", "S"]]

theorem build_closed_sketch : ∃ d g, ofDeclarations "sketch" "" sketch = .ok d ∧
    d.build = .ok g ∧ g.weights = [1000000, 5, 10, 1000000] ∧ d.Closed g := by
  obtain ⟨g, hg⟩ := exists_of_isOk (x := ofDeclarations "sketch" "" sketch >>= build)
    (by decide +kernel)
  obtain ⟨d, hd, hbuild⟩ := bind_ok.mp hg
  have hweights : (ofDeclarations "sketch" "" sketch >>= build).toOption.map Grammar.weights =
      some [1000000, 5, 10, 1000000] := by
    decide +kernel
  refine ⟨d, g, hd, hbuild, ?_, build_closed (declared_ofDeclarations hd) hbuild⟩
  simpa [hg, Except.toOption] using hweights

end Definition

end ProbeForge
