import SignalEvolution.Json.Form

/-! # Validation results

Measured performance that travels with a gene. Evaluation never reads it.
-/
namespace SignalEvolution

inductive ValidationStatus where
  | pending
  | passed
  | failed
  deriving Repr, DecidableEq

namespace ValidationStatus

def all : List ValidationStatus := [pending, passed, failed]

def name : ValidationStatus → String
  | pending => "pending"
  | passed => "passed"
  | failed => "failed"

instance : JsonForm ValidationStatus := JsonForm.named name all

end ValidationStatus

structure Validation where
  status : ValidationStatus := .pending
  metrics : Table Float := Table.empty

instance : JsonForm Validation where
  toJson v := .object [("status", JsonForm.toJson v.status), ("metrics", .ofTable Json.number v.metrics)]
  reader := Reader.record ["status", "metrics"] fun r => do
    let status ← r.withDefault "status" .pending JsonForm.reader
    let metrics ← r.withDefault "metrics" Table.empty (Reader.table Reader.number)
    return { status, metrics }

end SignalEvolution
