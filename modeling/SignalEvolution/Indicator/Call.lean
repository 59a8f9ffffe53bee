import SignalEvolution.Arithmetic.Decimal
import SignalEvolution.Indicator.Catalogue

/-! # Indicator calls as text

A call gives the declared parameters in their order and then every other stored
parameter as `key=value`. Formulas show the stored values; the key of a reading
shows the values that the reading uses.
-/
namespace SignalEvolution

/-- Number text of formulas: whole numbers below `1e15` without a point or a sign of zero. -/
def numberText (x : Float) : String :=
  if Binary.isWhole x && x.abs < 1e15 then toString (Binary.truncate x) else Decimal.plain x

namespace Indicator

/-- `name(values,key=value)`, the values of declared parameters chosen by `value`. -/
def callText (name : String) (specs : List (ParamSpec Float)) (params : Table Float)
    (value : ParamSpec Float → Float) : String :=
  let declared := specs.map fun s => numberText (value s)
  let others := params.entries.filter fun e => !specs.any fun s => s.name == e.1
  name ++ "(" ++ ",".intercalate (declared ++ others.map fun e => e.1 ++ "=" ++ numberText e.2) ++ ")"

/-- The declared parameters of a name, none where no indicator has it. -/
def specsOf (name : String) : List (ParamSpec Float) :=
  match find? name.toList with
  | some i => i.specs
  | none => []

/-- Key of a reading, the name as given. -/
def readingKey (name : String) (params : Table Float) : String :=
  callText name (specsOf name) params fun s => s.value params

def formulaCall (name : String) (params : Table Float) : String :=
  callText name (specsOf name) params fun s => s.stored params

def key (i : Indicator) (params : Table Float) : String :=
  callText i.mnemonic i.specs params fun s => s.value params

end Indicator
end SignalEvolution
