import CedarGraph.Fact.ReadSpec
import CedarGraph.Logical.Expression

/-!
# Statements

A statement reads the graph or writes it.  The parser finds its patterns, the comparisons of its
properties and what it assigns or deletes; the binder replaces the names of properties, relationships
and parameters by their identifiers.
-/

namespace Cedar

/-- The text of a statement, as bytes. -/
abbrev Text : Type := List UInt8

namespace Cypher

/-- A time or a range of times. -/
structure TimeScope where
  start : UInt64 := 0
  stop : Option UInt64 := none
  asOf : Option UInt64 := none

/-- A vertex and an edge from it to another one.  A vertex alone is a pattern without the name and the
relationship of an edge, whose destination is the source. -/
structure PathPattern where
  source : Text
  sourceLabel : Text := []
  edge : Text := []
  relationship : Text := []
  destination : Text
  destinationLabel : Text := []
  minHops : UInt32 := 1
  maxHops : UInt32 := 1
  trail : Bool := false
  sourcePartId : Option UInt32 := none
  sourceVertexId : Option UInt64 := none
  destinationPartId : Option UInt32 := none
  destinationVertexId : Option UInt64 := none

/-- What a statement returns. -/
structure ProjectionItem where
  expression : Text
  function : Text := []

inductive PredicateOperator where
  | equal
  | less
  | lessEqual
  | greater
  | greaterEqual
  deriving DecidableEq

inductive StatementKind where
  | read
  | write
  deriving DecidableEq

/-- A parameter and its identifier. -/
structure BoundParameter where
  name : Text
  id : ParameterId

structure BoundAssignment where
  target : Text
  propertyId : PropertyId
  parameter : ParameterId

structure BoundPredicate where
  variableName : Text
  propertyId : PropertyId
  physicalType : PhysicalType
  op : PredicateOperator
  literal : Option Text := none
  parameter : Option BoundParameter := none

/-- What the binder makes of a statement. -/
structure BoundStatement where
  kind : StatementKind := .read
  graph : Text := []
  partId : PartId := 0
  partScope : PartScope := ⟨.all, []⟩
  validTime : Option TimeScope := none
  systemTime : Option TimeScope := none
  changes : Bool := false
  patterns : List PathPattern := []
  predicates : List BoundPredicate := []
  relationshipTypes : List (Option UInt64) := []
  projections : List ProjectionItem := []
  limitCount : Option Nat := none
  parameters : List BoundParameter := []
  assignments : List BoundAssignment := []
  deletions : List Text := []

/-- A parameter with its type and its value. -/
structure Binding where
  parameter : ParameterId
  type : QueryType
  value : BoundValue
  deriving DecidableEq

/-- The values of the parameters of a request. -/
abbrev Bindings : Type := List Binding

/-- The type of the column which has a value. -/
def queryTypeFor : Value → QueryType
  | .bool _ => .bool
  | .int32 _ => .int32
  | .int64 _ => .int64
  | .float32 _ => .float32
  | .float64 _ => .float64
  | .timestamp _ => .timestamp64
  | .string _ => .string
  | .binary _ => .binary

/-- Another value.  No parameter is bound twice. -/
def Bindings.bind (bindings : Bindings) (parameter : ParameterId) (type : QueryType)
    (value : Value) : StatusOr Bindings :=
  if type ≠ queryTypeFor value then
    Status.bindError "parameter value type differs from parameter type" ""
  else if bindings.any fun binding => binding.parameter = parameter then
    Status.bindError "parameter is bound more than once" ""
  else
    .ok (bindings ++ [⟨parameter, type, .value value⟩])

end Cypher

end Cedar
