import CedarGraph.Temporal.Interval

/-!
# Types and parameters

The types of the columns of a query, and the values which are bound to its parameters.
-/

namespace Cedar

/-- The types of the columns of a row. -/
inductive QueryType where
  | bool
  | int32
  | int64
  | float32
  | float64
  | timestamp64
  | string
  | binary
  | vertexRef
  | edgeRef
  | validTime
  | validDuration
  | commitSeq
  | validTimeInterval
  | path
  | journey
  deriving DecidableEq

/-- The parameters of a query. -/
abbrev ParameterId : Type := UInt32

/-- The literals of an expression, and the values bound to its parameters. -/
inductive BoundValue where
  | value (value : Value)
  | vertexRef (ref : VertexRef)
  | edgeRef (ref : EdgeRef)
  | validTime (time : ValidTime)
  | validDuration (duration : UInt64)
  | commitSeq (seq : CommitSeq)
  | validTimeInterval (interval : ValidTimeInterval)
  deriving DecidableEq

end Cedar
