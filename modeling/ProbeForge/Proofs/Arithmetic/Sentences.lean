import ProbeForge.Grammars.Arithmetic
import ProbeForge.Proofs.Derivation.Leftmost
import ProbeForge.Proofs.Derivation.Lossless
import ProbeForge.Proofs.Text.Tokens

/-!
# Texts of the arithmetic grammar

The leaves of a tree are a sentence of integers, operators and parentheses, in which no two integers
stand side by side. So they can be read off the text of the tree, whatever its blanks are.
-/

namespace ProbeForge.Arithmetic

open Grammars Rendering Text

/-! ### Sentences -/

/-- The nonterminals. -/
inductive Kind where
  | expr | term | factor | number
deriving DecidableEq, Repr

def kind? : String → Option Kind
  | "expr" => some .expr
  | "term" => some .term
  | "factor" => some .factor
  | "number" => some .number
  | _ => none

def Kind.name : Kind → String
  | expr => "expr"
  | term => "term"
  | factor => "factor"
  | number => "number"

/-- The terminals. -/
def marks : List String := ["+", "-", "*", "/", "(", ")"]

/-- The token sequences of each nonterminal. -/
inductive Sentence : Kind → List String → Prop
  | term {w : List String} (h : Sentence .term w) : Sentence .expr w
  | sum {v w : List String} (hv : Sentence .expr v) (hw : Sentence .term w) :
      Sentence .expr (v ++ "+" :: w)
  | difference {v w : List String} (hv : Sentence .expr v) (hw : Sentence .term w) :
      Sentence .expr (v ++ "-" :: w)
  | factor {w : List String} (h : Sentence .factor w) : Sentence .term w
  | product {v w : List String} (hv : Sentence .term v) (hw : Sentence .factor w) :
      Sentence .term (v ++ "*" :: w)
  | quotient {v w : List String} (hv : Sentence .term v) (hw : Sentence .factor w) :
      Sentence .term (v ++ "/" :: w)
  | number {w : List String} (h : Sentence .number w) : Sentence .factor w
  | parenthesized {w : List String} (h : Sentence .expr w) : Sentence .factor ("(" :: (w ++ [")"]))
  | negated {w : List String} (h : Sentence .factor w) : Sentence .factor ("-" :: w)
  | integer (n : Nat) : Sentence .number [toString n]

variable {kind : Kind} {w : List String}

theorem isMark_of_mem {name : String} (h : name ∈ marks) : IsMark name := by
  simp only [marks, List.mem_cons, List.not_mem_nil, or_false] at h
  rcases h with rfl | rfl | rfl | rfl | rfl | rfl <;> exact ⟨_, rfl, by decide, by decide⟩

theorem Sentence.isToken (h : Sentence kind w) : ∀ t ∈ w, IsToken t := by
  have hmark : ∀ {name : String}, name ∈ marks → IsToken name :=
    fun hname => .inr (isMark_of_mem hname)
  induction h with
  | term _ ih | factor _ ih | number _ ih => exact ih
  | sum _ _ hv hw | difference _ _ hv hw | product _ _ hv hw | quotient _ _ hv hw =>
    exact List.forall_mem_append.mpr ⟨hv, List.forall_mem_cons.mpr ⟨hmark (by decide), hw⟩⟩
  | parenthesized _ ih =>
    refine List.forall_mem_cons.mpr ⟨hmark (by decide), List.forall_mem_append.mpr ⟨ih, ?_⟩⟩
    exact List.forall_mem_singleton.mpr (hmark (by decide))
  | negated _ ih => exact List.forall_mem_cons.mpr ⟨hmark (by decide), ih⟩
  | integer n => exact List.forall_mem_singleton.mpr (.inl (isNumber_toString n))

/-- No two integers stand side by side. -/
theorem Sentence.isChain (h : Sentence kind w) : w.IsChain Apart := by
  induction h with
  | term _ ih | factor _ ih | number _ ih => exact ih
  | sum _ _ hv hw | difference _ _ hv hw | product _ _ hv hw | quotient _ _ hv hw =>
    exact isChain_mark (isMark_of_mem (by decide)) hv hw
  | parenthesized _ ih =>
    have hclose : IsMark ")" := isMark_of_mem (by decide)
    have hopen : IsMark "(" := isMark_of_mem (by decide)
    exact isChain_mark (l := []) hopen .nil (isChain_mark hclose ih .nil)
  | negated _ ih =>
    have hminus : IsMark "-" := isMark_of_mem (by decide)
    exact isChain_mark (l := []) hminus .nil ih
  | integer => exact .singleton _

/-! ### Rules -/

/-- The rules but for the one that draws an integer. -/
def productions : List (String × List String × Representer) :=
  [("expr", ["term"], .spaced), ("expr", ["expr", "+", "term"], .spaced),
    ("expr", ["expr", "-", "term"], .spaced), ("term", ["factor"], .spaced),
    ("term", ["term", "*", "factor"], .spaced), ("term", ["term", "/", "factor"], .spaced),
    ("factor", ["number"], .spaced), ("factor", ["(", "expr", ")"], .tightParen),
    ("factor", ["-", "factor"], .tightUnary)]

theorem shape_cases : ∀ shape ∈ arithmetic.shapes,
    shape.generator = none ∧
        (shape.rule.left.name, shape.rule.right.map (·.name), shape.representer) ∈ productions ∨
      shape = ⟨⟨⟨"number"⟩, []⟩, some .integer, .payloadText⟩ := by
  decide +kernel

/-- What the leaves below a node can be, by its symbol. -/
def Word (name : String) (w : List String) : Prop :=
  match kind? name with
  | some kind => Sentence kind w
  | none => w = [name]

/-- A rule makes a sentence out of the words of its right side. -/
theorem sentence_of_production {name : String} {right : List String} {representer : Representer}
    (h : (name, right, representer) ∈ productions) {words : List (List String)}
    (hwords : List.Forall₂ Word right words) : Word name words.flatten := by
  have hunary : ∀ {a : String}, List.Forall₂ Word [a] words →
      ∃ w, words.flatten = w ∧ Word a w := by
    rintro a (_ | ⟨hw, ⟨⟩⟩)
    exact ⟨_, by simp, hw⟩
  have hternary : ∀ {a b c : String}, List.Forall₂ Word [a, b, c] words →
      ∃ u v w, words.flatten = u ++ (v ++ w) ∧ Word a u ∧ Word b v ∧ Word c w := by
    rintro a b c (_ | ⟨hu, _ | ⟨hv, _ | ⟨hw, ⟨⟩⟩⟩⟩)
    exact ⟨_, _, _, by simp, hu, hv, hw⟩
  have hbinary : ∀ {a b : String}, List.Forall₂ Word [a, b] words →
      ∃ v w, words.flatten = v ++ w ∧ Word a v ∧ Word b w := by
    rintro a b (_ | ⟨hv, _ | ⟨hw, ⟨⟩⟩⟩)
    exact ⟨_, _, by simp, hv, hw⟩
  -- one rule after the other; right sides have one, two or three symbols
  simp only [productions, List.mem_cons, List.not_mem_nil, or_false, Prod.mk.injEq] at h
  rcases h with ⟨rfl, rfl, -⟩ | ⟨rfl, rfl, -⟩ | ⟨rfl, rfl, -⟩ | ⟨rfl, rfl, -⟩ | ⟨rfl, rfl, -⟩ |
    ⟨rfl, rfl, -⟩ | ⟨rfl, rfl, -⟩ | ⟨rfl, rfl, -⟩ | ⟨rfl, rfl, -⟩
  · obtain ⟨w, hflat, hw⟩ := hunary hwords
    exact hflat ▸ Sentence.term hw
  · obtain ⟨u, v, w, hflat, hu, rfl, hw⟩ := hternary hwords
    exact hflat ▸ Sentence.sum hu hw
  · obtain ⟨u, v, w, hflat, hu, rfl, hw⟩ := hternary hwords
    exact hflat ▸ Sentence.difference hu hw
  · obtain ⟨w, hflat, hw⟩ := hunary hwords
    exact hflat ▸ Sentence.factor hw
  · obtain ⟨u, v, w, hflat, hu, rfl, hw⟩ := hternary hwords
    exact hflat ▸ Sentence.product hu hw
  · obtain ⟨u, v, w, hflat, hu, rfl, hw⟩ := hternary hwords
    exact hflat ▸ Sentence.quotient hu hw
  · obtain ⟨w, hflat, hw⟩ := hunary hwords
    exact hflat ▸ Sentence.number hw
  · obtain ⟨u, v, w, hflat, rfl, hv, rfl⟩ := hternary hwords
    exact hflat ▸ Sentence.parenthesized hv
  · obtain ⟨v, w, hflat, rfl, hw⟩ := hbinary hwords
    exact hflat ▸ Sentence.negated hw

/-! ### Trees -/

/-- The grammar under some weights. -/
structure IsArithmetic (g : Grammar) : Prop extends arithmetic.Weighted g where
  shown : ∀ name ∈ marks, (g.textOf ⟨name⟩).plain = name

theorem exists_build : ∃ g, arithmetic.build = .ok g := exists_of_isOk (by decide +kernel)

theorem isArithmetic_of_setWeights {built g : Grammar} {weights : List Int} {requirePositive : Bool}
    (hbuild : arithmetic.build = .ok built)
    (hweights : built.setWeights weights requirePositive = .ok g) : IsArithmetic g := by
  refine ⟨(Definition.weighted_build hbuild).setWeights hweights, fun name hname => ?_⟩
  have hshown : ∀ name ∈ marks,
      arithmetic.build.toOption.map (fun g => (g.textOf ⟨name⟩).plain) = some name := by
    decide +kernel
  have htext := hshown name hname
  rw [hbuild] at htext
  obtain ⟨read, -, -, rfl⟩ := Grammar.setWeights_ok hweights
  exact Option.some.inj htext

/-- A complete tree of the grammar, in which the integers are written out. -/
structure IsTree (g : Grammar) (kind : Kind) (t : Tree) : Prop where
  derives : t.Derives g []
  root : ∃ n, t.nodes[0]? = some n ∧ n.symbol = ⟨kind.name⟩
  written : ∀ (i : Nat) (n : Node) (text : String), t.nodes[i]? = some n →
    n.payload = some (.text text) → ∃ k : Nat, text = toString k

variable {g : Grammar} {t : Tree} {i : Nat} {n : Node}

/-- How a node was expanded. -/
inductive Expanded (t : Tree) (i : Nat) (n : Node) : Prop where
  | production {right : List String} {representer : Representer}
      (rule : (n.symbol.name, right, representer) ∈ productions)
      (children : List.Forall₂
        (fun c name => i < c ∧ ∃ m, t.nodes[c]? = some m ∧ m.symbol.name = name) n.children right)
      (bare : n.payload = none) (resolved : Representer.resolve n.representer = .ok representer) :
      Expanded t i n
  | integer (symbol : n.symbol = ⟨"number"⟩) (childless : n.children = []) {text : String}
      (payload : n.payload = some (.text text))
      (resolved : Representer.resolve n.representer = .ok .payloadText) : Expanded t i n

theorem IsArithmetic.expanded (hg : IsArithmetic g) (ht : t.Derives g [])
    (hn : t.nodes[i]? = some n) (hexp : n.isExpanded = true) : Expanded t i n := by
  obtain ⟨entry, hentry, hfollows⟩ := ht.follows i n hn hexp
  obtain ⟨generator, hresolve, hholds⟩ := hfollows.holds
  obtain ⟨shape, hshape, hrule, hgenerator, hrepresenter⟩ := hg.shaped entry hentry
  cases hresolve.symm.trans hgenerator
  rw [← hfollows.representer] at hrepresenter
  have hleft := hfollows.left
  have hchildren := hfollows.children
  rw [hrule] at hleft hchildren
  rcases shape_cases shape hshape with ⟨hnone, hmem⟩ | rfl
  · rw [hnone] at hholds
    refine .production (hleft ▸ hmem) ?_ hholds.1 hrepresenter
    refine (List.forall₂_and_left _ _).mpr ⟨hfollows.later, ?_⟩
    refine List.forall₂_map_right_iff.mpr (hchildren.imp ?_)
    exact fun c s ⟨m, hm, hsymbol, _⟩ => ⟨m, hm, congrArg (·.name) hsymbol⟩
  · obtain ⟨⟨text, hpayload⟩, -⟩ := hholds
    exact .integer hleft.symm (List.forall₂_nil_right_iff.mp hchildren) hpayload hrepresenter

/-- Names of the grammar. -/
def Known (name : String) : Prop := (kind? name).isSome = true ∨ name ∈ marks

theorem kind?_name {name : String} (h : kind? name = some kind) : name = kind.name := by
  unfold kind? at h
  split at h <;> cases h <;> rfl

theorem Expanded.isSome (h : Expanded t i n) : (kind? n.symbol.name).isSome = true := by
  have hleft : ∀ p ∈ productions, (kind? p.1).isSome = true := by decide
  cases h with
  | production rule => exact hleft _ rule
  | integer symbol =>
    rw [symbol]
    rfl

theorem not_mem_marks {name : String} (h : (kind? name).isSome = true) : name ∉ marks := by
  have hnone : ∀ name ∈ marks, kind? name = none := by decide
  intro hmem
  rw [hnone name hmem] at h
  cases h

/-- Exactly the nonterminals of a complete tree are expanded. -/
theorem IsArithmetic.isExpanded_iff (hg : IsArithmetic g) (ht : t.Derives g [])
    (hn : t.nodes[i]? = some n) :
    n.isExpanded = true ↔ (kind? n.symbol.name).isSome = true := by
  constructor
  · exact fun hexp => (hg.expanded ht hn hexp).isSome
  · intro hsome
    obtain ⟨kind, hkind⟩ := Option.isSome_iff_exists.mp hsome
    have hdeclared : ∀ kind : Kind, .text kind.name ∈ arithmetic.nonterminals := by
      intro kind
      cases kind <;> simp [arithmetic, Definition.named, Kind.name]
    rw [← ht.isNonterminal_eq hg.coherent.grouped hn]
    have hsymbol : n.symbol = ⟨kind.name⟩ := congrArg Symbol.mk (kind?_name hkind)
    exact hsymbol ▸ hg.nonterminal _ (hdeclared kind)

theorem known_right {name : String} {right : List String} {representer : Representer}
    (h : (name, right, representer) ∈ productions) : ∀ name ∈ right, Known name := by
  have hall : ∀ p ∈ productions, ∀ name ∈ p.2.1, (kind? name).isSome = true ∨ name ∈ marks := by
    decide
  exact hall _ h

/-- The leaves below a node are a word of its symbol. -/
theorem word_walk (hg : IsArithmetic g) (ht : IsTree g kind t) (hn : t.nodes[i]? = some n)
    (hknown : Known n.symbol.name) (d : Nat) :
    Word n.symbol.name (leafTexts g t (t.walk i d)) := by
  have hordered := ht.derives.ordered
  -- children have higher numbers, so fewer nodes come after them
  induction hsize : t.size - i using Nat.strongRecOn generalizing i n d with
  | ind size ih =>
    rw [leafTexts_walk hordered hn]
    cases hexp : n.isExpanded with
    | false =>
      have hmark : n.symbol.name ∈ marks := hknown.resolve_left fun hsome => by
        rw [(hg.isExpanded_iff ht.derives hn).mpr hsome] at hexp
        cases hexp
      have hnone : kind? n.symbol.name = none :=
        Option.not_isSome_iff_eq_none.mp fun hsome => not_mem_marks hsome hmark
      rw [hordered.bare i n hn hexp, ownTexts, hexp, Word, hnone]
      simpa using hg.shown _ hmark
    | true =>
      cases hg.expanded ht.derives hn hexp with
      | @production right representer rule children bare resolved =>
        have hown : ownTexts g n = [] := by
          rw [ownTexts, if_pos hexp, bare]
          split
          · cases ‹none = some _›
          · rfl
        rw [hown, List.nil_append, List.flatMap_def]
        refine sentence_of_production rule (List.forall₂_map_right_iff.mpr ?_)
        refine ((List.forall₂_and_left _ _).mpr ⟨known_right rule, children.flip⟩).imp ?_
        rintro name c ⟨hname, hlt, m, hm, rfl⟩
        have hbound := Tree.lt_size hm
        exact ih (t.size - c) (by omega) hm hname (d + 1) rfl
      | @integer symbol childless text payload resolved =>
        obtain ⟨k, rfl⟩ := ht.written i n text hn payload
        rw [ownTexts, if_pos hexp, resolved, payload, childless, symbol]
        exact .integer k

variable {ρ : Type} [RandomSource ρ] {u : Universe}

/-- A mark is read as it is. -/
theorem reads_mark (hg : IsArithmetic g) (ht : t.Derives g []) (hn : t.nodes[i]? = some n)
    (hmark : n.symbol.name ∈ marks) : Reads ρ g t u i (strip n.symbol.name) := by
  have hexp : n.isExpanded = false := Bool.eq_false_iff.mpr fun hexp =>
    not_mem_marks ((hg.isExpanded_iff ht hn).mp hexp) hmark
  exact ⟨1, ⟨.empty, RandomSource.seeded 0⟩, _, _, render_terminal hn hexp _,
    congrArg strip (hg.shown _ hmark)⟩

theorem IsTree.structural (hg : IsArithmetic g) (ht : IsTree g kind t) :
    IsStructural ρ g t u := by
  intro i n hn hexp
  cases hg.expanded ht.derives hn hexp with
  | @production right representer rule children bare resolved =>
    have hhow : ∀ p ∈ productions, p.2.2 ∈ gathering ∨ p.2 = (["(", "expr", ")"], .tightParen) := by
      decide
    refine ⟨representer, resolved, ?_⟩
    rcases hhow _ rule with hgathers | hparens
    · exact .gathers hgathers
    · cases hparens
      obtain ⟨a, l, ⟨-, m, hm, ha⟩, htail, hl⟩ := List.forall₂_cons_right_iff.mp children
      obtain ⟨b, l', -, htail', rfl⟩ := List.forall₂_cons_right_iff.mp htail
      obtain ⟨c, l'', ⟨-, m', hm', hc⟩, hend, rfl⟩ := List.forall₂_cons_right_iff.mp htail'
      cases List.forall₂_nil_right_iff.mp hend
      have hopens := reads_mark (ρ := ρ) (u := u) hg ht.derives hm (by rw [ha]; decide)
      have hcloses := reads_mark (ρ := ρ) (u := u) hg ht.derives hm' (by rw [hc]; decide)
      rw [ha] at hopens
      rw [hc] at hcloses
      exact .parens hl hopens hcloses
  | integer symbol childless payload resolved =>
    exact ⟨.payloadText, resolved, .leaf childless payload⟩

/-! ### Texts -/

open Growth in
theorem isTree_of_run {job : Job} (hg : IsArithmetic job.grammar) {source : ρ} {turns : Nat}
    {r : Growth ρ} (hrun : run job turns (.start ⟨kind.name⟩ source) = (none, r)) :
    IsTree job.grammar kind r.tree := by
  have hgrouped := hg.coherent.grouped
  obtain ⟨_, hreached, hdone⟩ := reaches_run hrun
  have hderives : r.tree.Derives job.grammar [] := hdone ▸ hreached.derives hgrouped
  constructor
  case derives => exact hderives
  case root =>
    obtain ⟨hext, -⟩ := replays_run hgrouped (Tree.derives_start job.grammar ⟨kind.name⟩) hrun
    obtain ⟨n, hn, hsymbol, -⟩ := hext 0 (.fresh ⟨kind.name⟩ none) rfl
    exact ⟨n, hn, hsymbol⟩
  case written =>
    intro i n text hn hpayload
    have hexp : n.isExpanded = true := by
      by_contra hunexp
      have hbare := (hderives.bare i n hn (Bool.not_eq_true _ ▸ hunexp)).2.1
      cases hpayload.symm.trans hbare
    obtain ⟨entry, hentry, -, generator, hresolve, s, s', hran⟩ :=
      hreached.ran hgrouped i n hn hexp
    obtain ⟨shape, hshape, -, hgenerator, -⟩ := hg.shaped entry hentry
    cases hresolve.symm.trans hgenerator
    rcases shape_cases shape hshape with ⟨hnone, -⟩ | rfl
    · rw [hnone] at hran
      cases hpayload.symm.trans hran.1
    · obtain ⟨p, hdraw, hp, -⟩ := hran
      cases hdraw
      cases hpayload.symm.trans hp
      exact ⟨_, rfl⟩

/-- Under all weights, the leaves of a complete tree from a nonterminal are a sentence of it, no two
integers of which stand side by side. The text of the tree, with its blanks deleted and cut into
runs of digits and single marks, is these leaves again; only depth keeps a tree from being rendered.
Every growth that comes to its end gives such a tree. -/
theorem tokens_render {built g : Grammar} {weights : List Int} {requirePositive : Bool}
    (hbuild : arithmetic.build = .ok built)
    (hweights : built.setWeights weights requirePositive = .ok g) :
    (∀ (kind : Kind) (t : Tree), IsTree g kind t →
      Sentence kind (leafTexts g t (t.walk 0 0)) ∧ (leafTexts g t (t.walk 0 0)).IsChain Apart ∧
      ∀ (u : Universe) (levels : Nat) (s : Scope ρ),
        (∃ text, render g t u levels 0 s = .ok text s ∧
          tokens (inked text) = leafTexts g t (t.walk 0 0)) ∨
        render g t u levels 0 s = .error .tooDeep s ∧ ∃ step ∈ t.walk 0 0, levels ≤ step.1) ∧
    ∀ (job : Job) (kind : Kind) (source : ρ) (turns : Nat) (r : Growth ρ), job.grammar = g →
      Growth.run job turns (.start ⟨kind.name⟩ source) = (none, r) → IsTree g kind r.tree := by
  have hg := isArithmetic_of_setWeights hbuild hweights
  refine ⟨fun kind t ht => ?_, ?_⟩
  · obtain ⟨n, hn, hsymbol⟩ := ht.root
    have hkind : kind? n.symbol.name = some kind := by
      rw [hsymbol]
      cases kind <;> rfl
    have hword := word_walk hg ht hn (.inl (by rw [hkind]; rfl)) 0
    rw [Word, hkind] at hword
    have hsentence : Sentence kind (leafTexts g t (t.walk 0 0)) := hword
    refine ⟨hsentence, hsentence.isChain, fun u levels s => ?_⟩
    have hsettles := settles (u := u) (ρ := ρ) ht.derives.ordered (ht.structural hg)
      (Tree.lt_size hn) levels 0
    cases hsettles with
    | @written text shallow renders inked_eq =>
      -- no leaf has a blank in it, so the ink is the leaves one after the other
      refine .inl ⟨text, renders s, ?_⟩
      have hchars : (leafTexts g t (t.walk 0 0)).flatMap inked =
          (leafTexts g t (t.walk 0 0)).flatMap (·.toList) :=
        List.flatMap_congr fun leaf hleaf => (hsentence.isToken leaf hleaf).inked_eq
      rw [inked_eq, hchars, tokens_flatMap hsentence.isToken hsentence.isChain]
    | tooDeep beyond halts =>
      rw [Nat.zero_add] at beyond
      exact .inr ⟨halts s, beyond⟩
  · rintro job kind source turns r rfl hrun
    exact isTree_of_run hg hrun

open Growth in
/-- A negative number in parentheses after a minus, under even weights. -/
def doubleMinus (g : Grammar) : Option Halt × Growth Draws :=
  run ⟨g, .empty, 100, ⟨false, false, false⟩⟩ 100
    (.start ⟨"expr"⟩ ⟨[2, 0, 0, 0, 0, 12, 1, 0, 2, 1, 0, 0, 0, 0, 3, 0, 0, 4]⟩)

/-- The text of that tree. -/
def doubleMinusText (g : Grammar) : Option String :=
  match render g (doubleMinus g).2.tree .empty 20 0 (⟨.empty, ⟨[]⟩⟩ : Scope Growth.Draws) with
  | .ok text _ => some text
  | .error _ _ => none

theorem tokens_render_doubleMinus : ∃ built g r, arithmetic.build = .ok built ∧
    built.setWeights (List.replicate 10 1) true = .ok g ∧ doubleMinus g = (none, r) ∧
    IsTree g .expr r.tree ∧ doubleMinusText g = some "12 - -(3) * 4" ∧
    tokens (inked "12 - -(3) * 4") = leafTexts g r.tree (r.tree.walk 0 0) ∧
    Sentence .expr (tokens (inked "12 - -(3) * 4")) := by
  obtain ⟨g, hg⟩ : ∃ g, arithmetic.build.bind (·.setWeights (List.replicate 10 1) true) = .ok g :=
    exists_of_isOk (by decide +kernel)
  have hshown : (arithmetic.build.bind
      (·.setWeights (List.replicate 10 1) true)).toOption.map (fun g =>
        ((doubleMinus g).1, doubleMinusText g)) = some (none, some "12 - -(3) * 4") := by
    decide +kernel
  rw [hg] at hshown
  obtain ⟨hhalt, htext⟩ := Prod.mk.inj (Option.some.inj hshown)
  obtain ⟨built, hbuild, hweights⟩ := bind_ok.mp hg
  obtain ⟨hread, hgrown⟩ := tokens_render (ρ := Growth.Draws) hbuild hweights
  have hrun : doubleMinus g = (none, (doubleMinus g).2) := Prod.ext hhalt rfl
  have htree := hgrown _ .expr _ _ _ rfl hrun
  obtain ⟨hsentence, -, hrender⟩ := hread .expr _ htree
  have htokens : tokens (inked "12 - -(3) * 4") =
      leafTexts g (doubleMinus g).2.tree ((doubleMinus g).2.tree.walk 0 0) := by
    unfold doubleMinusText at htext
    rcases hrender .empty 20 ⟨.empty, ⟨[]⟩⟩ with ⟨text, hok, htokens⟩ | ⟨herror, -⟩
    · rw [hok] at htext
      exact Option.some.inj htext ▸ htokens
    · rw [herror] at htext
      cases htext
  exact ⟨built, g, _, hbuild, hweights, hrun, htree, htext, htokens, htokens ▸ hsentence⟩

end ProbeForge.Arithmetic
