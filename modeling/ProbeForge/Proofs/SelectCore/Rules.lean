import ProbeForge.Grammars.SelectCore
import ProbeForge.Proofs.Grammar.Building

/-!
# The rules of the core SELECT grammar

The grammar read by nonterminal, with its behaviours looked up. Whatever the weights are, a rule of
the built grammar is one of these.
-/

namespace ProbeForge.SelectCore

open Grammars

/-- A right side with its behaviours. -/
abbrev Alternative : Type := List String × Option Generator × Representer

/-- The nonterminals with their right sides. -/
def rows : List (String × List Alternative) :=
  [("sql_statement", [(["query"], some .openBlock, .block)]),
    ("query", [(["query_block"], none, .spaced), (["set_operation"], none, .spaced)]),
    ("query_block",
      [(["SELECT", "select_list", "FROM", "from_list", "where_opt", "order_opt", "limit_opt"],
          none, .sourcesFirst),
        (["SELECT", "DISTINCT", "select_list", "FROM", "from_list", "where_opt"],
          none, .sourcesFirst)]),
    ("select_list",
      [(["select_item"], none, .spaced), (["select_list", ",", "select_item"], none, .commaList)]),
    ("select_item",
      [(["column_ref"], none, .outputColumn), (["column_ref", "AS", "col_alias"], none, .spaced),
        (["nextval_call"], none, .spaced)]),
    ("col_alias", [([], none, .columnAlias)]),
    ("nextval_call", [(["nextval", "(", "sequence_ref", ")"], none, .tight)]),
    ("sequence_ref", [([], some .registerSequence, .sequenceLiteral)]),
    ("from_list",
      [(["from_item"], none, .spaced), (["from_list", ",", "from_item"], none, .commaList)]),
    ("from_item",
      [(["table_ref"], none, .spaced), (["table_ref", "alias_def"], none, .spaced),
        (["view_ref", "alias_def"], none, .spaced), (["mview_ref", "alias_def"], none, .spaced),
        (["subquery", "alias_def"], none, .spaced)]),
    ("table_ref",
      [([], some .registerTable, .payloadName),
        (["schema_ref", ".", "table_tail"], none, .tightBinary)]),
    ("schema_ref", [([], some .registerSchema, .payloadSchema)]),
    ("table_tail", [([], some .registerTable, .payloadName)]),
    ("view_ref", [([], some .registerView, .payloadName)]),
    ("mview_ref", [([], some .registerMaterializedView, .payloadName)]),
    ("alias_def", [([], some .defineAlias, .payloadText)]),
    ("subquery", [(["(", "query_block", "end_of_subquery", ")"], some .openBlock, .block)]),
    ("end_of_subquery", [([], some .closeBlock, .blockEnd)]),
    ("where_opt", [([], none, .spaced), (["WHERE", "condition"], none, .spaced)]),
    ("condition",
      [(["predicate"], none, .spaced), (["condition", "AND", "predicate"], none, .spaced),
        (["condition", "OR", "predicate"], none, .spaced), (["NOT", "predicate"], none, .spaced)]),
    ("predicate",
      [(["column_ref", "cmp_op", "literal"], none, .spaced),
        (["column_ref", "cmp_op", "column_ref"], none, .spaced),
        (["column_ref", "IS", "NULL"], none, .spaced), (["EXISTS", "subquery"], none, .spaced),
        (["(", "condition", ")"], none, .tightParen)]),
    ("cmp_op",
      [(["="], none, .spaced), (["<>"], none, .spaced), (["<"], none, .spaced),
        ([">"], none, .spaced), (["<="], none, .spaced), ([">="], none, .spaced)]),
    ("column_ref", [([], none, .columnRef)]),
    ("literal", [(["integer_lit"], none, .spaced), (["string_lit"], none, .spaced)]),
    ("integer_lit", [([], some .integer, .payloadText)]),
    ("string_lit", [([], some .string, .payloadText)]),
    ("order_opt", [([], none, .spaced), (["ORDER", "BY", "order_list"], none, .spaced)]),
    ("order_list",
      [(["column_ref"], none, .spaced), (["order_list", ",", "column_ref"], none, .commaList)]),
    ("limit_opt", [([], none, .spaced), (["LIMIT", "integer_lit"], none, .spaced)]),
    ("set_operation", [(["<set_operation>"], none, .unimplemented)])]

def alternatives (name : String) : List Alternative := (rows.lookup name).getD []

theorem forall_alternatives {P : String → Alternative → Prop}
    (h : ∀ row ∈ rows, ∀ alternative ∈ row.2, P row.1 alternative) {name : String}
    {alternative : Alternative} (hmem : alternative ∈ alternatives name) : P name alternative := by
  unfold alternatives at hmem
  cases hrow : rows.lookup name with
  | none =>
    rw [hrow] at hmem
    cases hmem
  | some row =>
    rw [hrow] at hmem
    obtain ⟨before, after, hsplit, -⟩ := List.lookup_eq_some_iff.mp hrow
    exact h (name, row) (hsplit ▸ List.mem_append_right _ List.mem_cons_self) alternative hmem

theorem alternatives_of_shape : ∀ shape ∈ selectCore.shapes,
    (shape.rule.right.map (·.name), shape.generator, shape.representer) ∈
      alternatives shape.rule.left.name := by
  decide +kernel

theorem exists_build : ∃ g, selectCore.build = .ok g := exists_of_isOk (by decide +kernel)

end ProbeForge.SelectCore
