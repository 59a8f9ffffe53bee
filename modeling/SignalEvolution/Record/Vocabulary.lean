import SignalEvolution.Backtest.Account
import SignalEvolution.Evolution.Engine
import SignalEvolution.Json.Form
import SignalEvolution.Tree.Symbol

/-! # Exchanged names

Words under which symbols and reasons are exchanged. Formulas use the symbols
themselves.
-/
namespace SignalEvolution

namespace Operator

def word : Operator → String
  | and => "And"
  | or => "Or"
  | not => "Not"
  | add => "Add"
  | sub => "Sub"
  | mul => "Mul"
  | div => "Div"

instance : JsonForm Operator := JsonForm.named word all

end Operator

namespace Comparator

def word : Comparator → String
  | greater => "Gt"
  | less => "Lt"
  | greaterEqual => "Ge"
  | lessEqual => "Le"
  | equal => "Eq"
  | different => "Ne"

instance : JsonForm Comparator := JsonForm.named word all

end Comparator

instance : JsonForm Series := JsonForm.named Series.name Series.all

instance : JsonForm ExitReason := JsonForm.named ExitReason.name ExitReason.all

instance : JsonForm Termination := JsonForm.named Termination.name Termination.all

end SignalEvolution
