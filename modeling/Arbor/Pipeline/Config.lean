import Arbor.Json.Record

/-! Choices of a parsing run. -/
namespace Arbor

structure PipelineConfig where
  /-- Keep origins and positions on the tree. -/
  trackPositions : Bool := true
  measureLexingTime : Bool := true
  /-- Leave hidden tokens out of a token list. -/
  onlyDefaultChannel : Bool := true
deriving DecidableEq, Inhabited

namespace PipelineConfig

def toJson (c : PipelineConfig) : Json :=
  .object [
    ("track_positions", .bool c.trackPositions),
    ("measure_lexing_time", .bool c.measureLexingTime),
    ("only_default_channel", .bool c.onlyDefaultChannel)]

def ofJson? (j : Json) : Option PipelineConfig := do
  let f ← j.fields? ["track_positions", "measure_lexing_time", "only_default_channel"]
  return ⟨← f.withDefault 0 true Json.bool?, ← f.withDefault 1 true Json.bool?,
    ← f.withDefault 2 true Json.bool?⟩

end PipelineConfig

end Arbor
