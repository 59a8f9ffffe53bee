/-! # Hexadecimal text -/
namespace SignalEvolution.Text

/-- Lower-case hexadecimal digits, at least `width` of them. -/
def hex (width n : Nat) : List Char :=
  let digits := Nat.toDigits 16 n
  List.replicate (width - digits.length) '0' ++ digits

def hexWord (w : UInt64) : String := String.ofList (hex 16 w.toNat)

end SignalEvolution.Text
