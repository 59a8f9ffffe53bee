import SignalEvolution.Record.Fault
import SignalEvolution.Record.Migration

/-! # Reading exchanged genes

Legacy records are migrated first. A record with faults is refused with all of
them; one without is read and its gene built.
-/
namespace SignalEvolution.Exchange

/-- A record in its current form. -/
def current (mode : Mode) (v : Json) : Except Problem Json :=
  if Migration.isNeeded v then Migration.migrate mode v else .ok v

def check (v : Json) : Except Problem Unit :=
  let faults := RecordFault.all v
  if faults.isEmpty then .ok ()
  else .error (.record ("; ".intercalate (faults.map RecordFault.message)))

def decode (mode : Mode) (now : Instant) (v : Json) : Except Problem ExchangedGene := do
  let v ← current mode v
  check v
  let r ← GeneRecord.ofJson now v
  r.toGene

def encode (g : ExchangedGene) : Json :=
  (GeneRecord.ofGene g.gene g.validation g.provenance).toJson.arranged

end SignalEvolution.Exchange
