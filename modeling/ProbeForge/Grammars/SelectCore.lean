import ProbeForge.Grammar.Definition

/-!
# The core SELECT grammar

Queries over the tables and views of a universe, with inline views, EXISTS sub-queries and aliases
that the scope catalog keeps consistent. Each statement is a query block with its own scope segment.
Tables are registered while the tree is built, so that column references rendered later resolve
against them.
-/

namespace ProbeForge.Grammars

open WeightClass in
def selectCore : Definition :=
  let rule (c : WeightClass) (left right : String) (generator representer : Option String) :
      RuleSpec := .named c left right generator representer
  { Definition.named "select_core" "SELECT statements with scoped table and column references"
      ["sql_statement", "query", "query_block",
        "select_list", "select_item", "col_alias", "nextval_call", "sequence_ref",
        "from_list", "from_item", "table_ref", "schema_ref", "table_tail",
        "view_ref", "mview_ref", "alias_def", "subquery", "end_of_subquery",
        "where_opt", "condition", "predicate", "cmp_op",
        "column_ref", "literal", "integer_lit", "string_lit",
        "order_opt", "order_list", "limit_opt", "set_operation"]
      ["SELECT", "DISTINCT", "FROM", "WHERE", "AND", "OR", "NOT",
        "AS", "ORDER", "BY", "LIMIT", "EXISTS", "IS", "NULL",
        "nextval", ",", "(", ")", ".", "=", "<>", "<", ">", "<=", ">="] with
    stubs := ["set_operation"]
    rules :=
      [ rule normal "sql_statement" "query" (some "subquery") (some "subquery"),
        rule normal "query" "query_block" none none,
        rule rare "query" "set_operation" none none,
        rule normal "query_block"
          "SELECT select_list FROM from_list where_opt order_opt limit_opt"
          none (some "sources_first"),
        rule low "query_block"
          "SELECT DISTINCT select_list FROM from_list where_opt"
          none (some "sources_first"),
        rule normal "select_list" "select_item" none none,
        rule medium "select_list" "select_list , select_item" none (some "comma_list"),
        rule normal "select_item" "column_ref" none (some "output_column"),
        rule medium "select_item" "column_ref AS col_alias" none none,
        rule rare "select_item" "nextval_call" none none,
        rule normal "col_alias" "" none (some "column_alias"),
        rule normal "nextval_call" "nextval ( sequence_ref )" none (some "tight"),
        rule normal "sequence_ref" "" (some "register_sequence") (some "sequence_literal"),
        rule normal "from_list" "from_item" none none,
        rule low "from_list" "from_list , from_item" none (some "comma_list"),
        rule normal "from_item" "table_ref" none none,
        rule normal "from_item" "table_ref alias_def" none none,
        rule rare "from_item" "view_ref alias_def" none none,
        rule rare "from_item" "mview_ref alias_def" none none,
        rule low "from_item" "subquery alias_def" none none,
        rule normal "table_ref" "" (some "register_table") (some "payload_name"),
        rule low "table_ref" "schema_ref . table_tail" none (some "tight_binary"),
        rule normal "schema_ref" "" (some "register_schema") (some "payload_schema"),
        rule normal "table_tail" "" (some "register_table") (some "payload_name"),
        rule normal "view_ref" "" (some "register_view") (some "payload_name"),
        rule normal "mview_ref" "" (some "register_mview") (some "payload_name"),
        rule normal "alias_def" "" (some "define_alias") (some "payload_text"),
        rule normal "subquery"
          "( query_block end_of_subquery )" (some "subquery") (some "subquery"),
        rule normal "end_of_subquery" "" (some "end_of_subquery") (some "end_of_subquery"),
        rule normal "where_opt" "" none none,
        rule medium "where_opt" "WHERE condition" none none,
        rule normal "condition" "predicate" none none,
        rule low "condition" "condition AND predicate" none none,
        rule rare "condition" "condition OR predicate" none none,
        rule rare "condition" "NOT predicate" none none,
        rule normal "predicate" "column_ref cmp_op literal" none none,
        rule low "predicate" "column_ref cmp_op column_ref" none none,
        rule low "predicate" "column_ref IS NULL" none none,
        rule rare "predicate" "EXISTS subquery" none none,
        rule rare "predicate" "( condition )" none (some "tight_paren"),
        rule normal "cmp_op" "=" none none,
        rule low "cmp_op" "<>" none none,
        rule normal "cmp_op" "<" none none,
        rule normal "cmp_op" ">" none none,
        rule low "cmp_op" "<=" none none,
        rule low "cmp_op" ">=" none none,
        rule normal "column_ref" "" none (some "column_ref"),
        rule normal "literal" "integer_lit" none none,
        rule low "literal" "string_lit" none none,
        rule normal "integer_lit" "" (some "integer") (some "payload_text"),
        rule normal "string_lit" "" (some "string") (some "payload_text"),
        rule normal "order_opt" "" none none,
        rule low "order_opt" "ORDER BY order_list" none none,
        rule normal "order_list" "column_ref" none none,
        rule low "order_list" "order_list , column_ref" none (some "comma_list"),
        rule normal "limit_opt" "" none none,
        rule low "limit_opt" "LIMIT integer_lit" none none ]
    start := "sql_statement" }

end ProbeForge.Grammars
