import SignalEvolution.Arithmetic.Scalar
import SignalEvolution.Table

/-! # Catalogue of indicators

Each indicator has a name in formulas, a title, its parameters in the order in
which a formula gives them, and the range of its readings where that is bounded.
-/
namespace SignalEvolution

inductive Indicator where
  | simpleAverage
  | exponentialAverage
  | weightedAverage
  | averageDivergence
  | relativeStrength
  | momentum
  | rateOfChange
  | williamsRange
  | stochastic
  | commodityChannel
  | averageTrueRange
  | standardDeviation
  | upperBand
  | lowerBand
  | balanceVolume
  | volumeAverage
  deriving Repr, DecidableEq, Inhabited

/-- A declared parameter. Whole parameters count bars. -/
structure ParamSpec (α : Type) where
  name : String
  default : α
  least : α
  greatest : α
  whole : Bool

namespace ParamSpec

variable {α : Type} [Scalar α]

def period (default : Nat) : ParamSpec α :=
  ⟨"period", Scalar.ofNat default, 2, 200, true⟩

/-- Brings a value into the declared range, rounding it first where only whole values make sense. -/
@[specialize] def normalize (spec : ParamSpec α) (x : α) : α :=
  Scalar.clamp spec.least spec.greatest (if spec.whole then Scalar.round x else x)

/-- The value that readings use: normalized where one is stored, else the default. -/
@[specialize] def value (spec : ParamSpec α) (params : Table α) : α :=
  match params.find? spec.name with
  | some x => spec.normalize x
  | none => spec.default

def stored (spec : ParamSpec α) (params : Table α) : α :=
  (params.find? spec.name).getD spec.default

/-- A parameter read as a number of bars, at least one. -/
@[specialize] def bars (spec : ParamSpec α) (params : Table α) : Nat :=
  Scalar.toNat (Scalar.max (spec.value params) 1)

end ParamSpec

namespace Indicator

def all : List Indicator :=
  [simpleAverage, exponentialAverage, weightedAverage, averageDivergence, relativeStrength,
    momentum, rateOfChange, williamsRange, stochastic, commodityChannel, averageTrueRange,
    standardDeviation, upperBand, lowerBand, balanceVolume, volumeAverage]

def mnemonic : Indicator → String
  | simpleAverage => "SMA"
  | exponentialAverage => "EMA"
  | weightedAverage => "WMA"
  | averageDivergence => "MACD"
  | relativeStrength => "RSI"
  | momentum => "MOM"
  | rateOfChange => "ROC"
  | williamsRange => "WILLR"
  | stochastic => "STOCH"
  | commodityChannel => "CCI"
  | averageTrueRange => "ATR"
  | standardDeviation => "STDDEV"
  | upperBand => "BB_UPPER"
  | lowerBand => "BB_LOWER"
  | balanceVolume => "OBV"
  | volumeAverage => "VOLUME_SMA"

def title : Indicator → String
  | simpleAverage => "Simple Moving Average"
  | exponentialAverage => "Exponential Moving Average"
  | weightedAverage => "Weighted Moving Average"
  | averageDivergence => "MACD Line"
  | relativeStrength => "Relative Strength Index"
  | momentum => "Momentum"
  | rateOfChange => "Rate of Change"
  | williamsRange => "Williams %R"
  | stochastic => "Stochastic Oscillator"
  | commodityChannel => "Commodity Channel Index"
  | averageTrueRange => "Average True Range"
  | standardDeviation => "Standard Deviation"
  | upperBand => "Bollinger Upper Band"
  | lowerBand => "Bollinger Lower Band"
  | balanceVolume => "On Balance Volume"
  | volumeAverage => "Volume Moving Average"

def find? (name : List Char) : Option Indicator :=
  all.find? fun i => i.mnemonic.toList.map Char.toLower = name.map Char.toLower

variable {α : Type} [Scalar α]

def fastSpec : ParamSpec α := ⟨"fast", Scalar.ofNat 12, 2, 100, true⟩

def slowSpec : ParamSpec α := ⟨"slow", Scalar.ofNat 26, 3, 200, true⟩

/-- Half width of a band in standard deviations. -/
def widthSpec : ParamSpec α := ⟨"std", 2, 1 / 2, 4, false⟩

/-- The number of bars of an indicator that has one such parameter. -/
def periodSpec : Indicator → ParamSpec α
  | relativeStrength | williamsRange | stochastic | averageTrueRange => .period 14
  | momentum | rateOfChange => .period 10
  | _ => .period 20

def specs : Indicator → List (ParamSpec α)
  | averageDivergence => [fastSpec, slowSpec]
  | upperBand => [upperBand.periodSpec, widthSpec]
  | lowerBand => [lowerBand.periodSpec, widthSpec]
  | balanceVolume => []
  | i => [i.periodSpec]

/-- Least and greatest reading, where both exist. -/
def range? : Indicator → Option (α × α)
  | relativeStrength | stochastic => some (0, Scalar.ofNat 100)
  | williamsRange => some (-Scalar.ofNat 100, 0)
  | _ => none

def defaults (i : Indicator) : Table α :=
  Table.ofList (i.specs.map fun s => (s.name, s.default))

end Indicator
end SignalEvolution
