import ProbeForge.Json.Access
import ProbeForge.Symbol

/-!
# Behaviours

A rule may name one behaviour that runs when a node is expanded and one that turns the expanded node
into text. Both sets are closed; a name that is in neither is refused where it is looked up.
-/

namespace ProbeForge

inductive Generator where
  | openBlock
  | closeBlock
  | registerTable
  | registerSchema
  | registerView
  | registerMaterializedView
  | registerSequence
  | defineAlias
  | integer
  | number
  | string
deriving DecidableEq, Repr

namespace Generator

def all : List Generator :=
  [openBlock, closeBlock, registerTable, registerSchema, registerView, registerMaterializedView,
    registerSequence, defineAlias, integer, number, string]

def id : Generator → String
  | openBlock => "subquery"
  | closeBlock => "end_of_subquery"
  | registerTable => "register_table"
  | registerSchema => "register_schema"
  | registerView => "register_view"
  | registerMaterializedView => "register_mview"
  | registerSequence => "register_sequence"
  | defineAlias => "define_alias"
  | integer => "integer"
  | number => "number"
  | string => "string"

/-- Whether the node keeps the segment that the generator returns. -/
def keepsSegment : Generator → Bool
  | openBlock => true
  | _ => false

def find? (id : String) : Option Generator := all.find? (·.id == id)

/-- In the order of the names. -/
def ids : List String := (all.map id).mergeSort

/-- A rule that names no generator has none. -/
def resolve (id : Json) : Except Fault (Option Generator) := do
  if id.isNull then return none
  id.requireKey
  match id.text?.bind find? with
  | some generator => return some generator
  | none => refuse (.behaviourUnknown .generation id.plain (", ".intercalate ids))

/-- Whether a name is free for a new generator. -/
def claim (id : String) : Except Fault Unit :=
  if (find? id).isSome then refuse (.behaviourTwice .generation id) else .ok ()

end Generator

inductive Representer where
  | spaced
  | tight
  | tightUnary
  | tightBinary
  | tightParen
  | commaList
  | unimplemented
  | payloadText
  | payloadName
  | payloadSchema
  | sequenceLiteral
  | sourcesFirst
  | outputColumn
  | tableName
  | tableAlias
  | columnName
  | columnRef
  | columnAlias
  | schemaName
  | block
  | blockEnd
deriving DecidableEq, Repr

namespace Representer

def all : List Representer :=
  [spaced, tight, tightUnary, tightBinary, tightParen, commaList, unimplemented, payloadText,
    payloadName, payloadSchema, sequenceLiteral, sourcesFirst, outputColumn, tableName, tableAlias,
    columnName, columnRef, columnAlias, schemaName, block, blockEnd]

def id : Representer → String
  | spaced => "default"
  | tight => "tight"
  | tightUnary => "tight_unary"
  | tightBinary => "tight_binary"
  | tightParen => "tight_paren"
  | commaList => "comma_list"
  | unimplemented => "unimplemented"
  | payloadText => "payload_text"
  | payloadName => "payload_name"
  | payloadSchema => "payload_schema"
  | sequenceLiteral => "sequence_literal"
  | sourcesFirst => "sources_first"
  | outputColumn => "output_column"
  | tableName => "table_name"
  | tableAlias => "table_alias"
  | columnName => "column_name"
  | columnRef => "column_ref"
  | columnAlias => "column_alias"
  | schemaName => "schema_name"
  | block => "subquery"
  | blockEnd => "end_of_subquery"

def find? (id : String) : Option Representer := all.find? (·.id == id)

def ids : List String := (all.map id).mergeSort

/-- No name and an empty one stand for spaced children. -/
def resolve (id : Json) : Except Fault Representer := do
  if !id.isFilled then return spaced
  id.requireKey
  match id.text?.bind find? with
  | some representer => return representer
  | none => refuse (.behaviourUnknown .representation id.plain (", ".intercalate ids))

def claim (id : String) : Except Fault Unit :=
  if (find? id).isSome then refuse (.behaviourTwice .representation id) else .ok ()

end Representer

end ProbeForge
