import SignalEvolution.Proofs.Record.Fault
import SignalEvolution.Proofs.Record.Range

/-! # Genes that are exchanged

A gene that is written is decoded as itself, whoever reads it and when. What is decoded from
JSON is a gene that can be written again, also where its record had to be migrated.
-/
namespace SignalEvolution

variable {mode : Mode} {now : Instant} {v : Json} {g : ExchangedGene}

/-- A gene with a valid identity and a complete tree, and with finite numbers throughout. -/
structure ExchangedGene.Exportable (g : ExchangedGene) : Prop where
  identity : Gene.isValidId g.gene.id = true
  complete : g.gene.root.Complete
  finite : g.gene.root.Every Formula.FiniteKind
  metrics : ∀ e ∈ g.validation.metrics.entries, e.2.isFinite = true

namespace Exchange

theorem toGene_ofGene (h : g.Exportable) :
    (GeneRecord.ofGene g.gene g.validation g.provenance).toGene = .ok g :=
  GeneRecord.toGene_eq_ok_iff.mpr ⟨rfl, h.identity, g.gene.root, NodeRecord.toTree_ofTree h.complete, rfl⟩

theorem decode_encode (h : g.Exportable) (mode : Mode) (now : Instant) :
    decode mode now (encode g) = .ok g :=
  decode_toJson ⟨NodeRecord.finite_ofTree h.finite, h.metrics⟩ (toGene_ofGene h) mode now

theorem inRange_current {w : Json} (hv : v.InRange) (h : current mode v = .ok w) : w.InRange := by
  unfold current at h
  split at h
  · exact Migration.inRange_migrate hv h
  · obtain rfl := Except.ok.inj h
    exact hv

theorem exportable_of_decode (hv : v.InRange) (h : decode mode now v = .ok g) : g.Exportable := by
  obtain ⟨w, r, hcurrent, -, hread, h⟩ := decode_eq_ok_iff.mp h
  have hfinite : r.Finite :=
    GeneRecord.reader_yields now none _ r ⟨w, inRange_current hv hcurrent, rfl⟩ hread
  obtain ⟨-, hid, root, hroot, rfl⟩ := GeneRecord.toGene_eq_ok_iff.mp h
  exact ⟨hid, NodeRecord.complete_of_toTree hroot, NodeRecord.every_finiteKind_of_toTree hfinite.node hroot,
    hfinite.metrics⟩

/-- Exported genes are decoded as they were, in either mode and at any time. Whatever JSON value
is decoded to a gene, that gene can be exported again and is decoded as it was. -/
theorem exchange_round_trip :
    (∀ g : ExchangedGene, g.Exportable → ∀ mode now, decode mode now (encode g) = .ok g) ∧
    ∀ (v : Json) (mode : Mode) (now : Instant) (g : ExchangedGene), v.InRange → decode mode now v = .ok g →
      g.Exportable ∧ ∀ mode now, decode mode now (encode g) = .ok g := by
  refine ⟨fun g hg => decode_encode hg, fun v mode now g hv hread => ?_⟩
  have hg := exportable_of_decode hv hread
  exact ⟨hg, decode_encode hg⟩

/-- A gene that was measured, made in a leap second, and a record without a version whose tree is
parsed. -/
theorem exchange_round_trip_parsed :
    let now : Instant :=
      ⟨⟨2024, 2, 29, by decide, by decide, by decide⟩, ⟨23, 59, 60, 500000000, by decide⟩⟩
    let g : ExchangedGene :=
      { gene := { root := Tree.compare .less (Tree.indicator .momentum Indicator.momentum.defaults)
                    (Tree.constant 30.5),
                  id := "0123456789abcdef", generation := 3,
                  lineage := { parents := ["fedcba9876543210"], mutation := some "crossover" } },
        validation := { status := .passed, metrics := Table.empty.insert "sharpe" 1.25 },
        provenance := { author := "lab", createdAt := now, source := "search", tags := ["daily"] } }
    let v : Json := .object [("formula", .text "close > 1.5"), ("gene_id", .text "0123456789abcdef"),
      ("generation", .integer 7)]
    (g.Exportable ∧ decode .strict now (encode g) = .ok g) ∧ v.InRange ∧
      ∃ h, decode .strict now v = .ok h ∧ h.Exportable ∧ decode .lenient now (encode h) = .ok h := by
  intro now g v
  have hg : g.Exportable := by
    refine ⟨by decide, ?_, ?_, ?_⟩
    · exact Tree.complete_pair rfl trivial (Tree.complete_leaf rfl ⟨.momentum, rfl⟩)
        (Tree.complete_leaf rfl trivial)
    · have hparams : ∀ e ∈ (Indicator.momentum.defaults (α := Float)).entries, e.2.isFinite = true := by
        decide +kernel
      have hconstant : (30.5 : Float).isFinite = true := by decide +kernel
      refine Tree.every_iff.mpr ⟨trivial, fun c hc => ?_⟩
      rcases List.mem_pair.mp hc with rfl | rfl
      · exact Tree.every_iff.mpr ⟨hparams, by simp⟩
      · exact Tree.every_iff.mpr ⟨hconstant, by simp⟩
    · change ∀ e ∈ [("sharpe", (1.25 : Float))], e.2.isFinite = true
      decide +kernel
  have hv : v.InRange := ⟨trivial, trivial, ⟨by decide, by decide⟩, trivial⟩
  have hok : (decode .strict now v).isOk = true := by decide +kernel
  obtain ⟨h, hread⟩ := exists_of_isOk hok
  obtain ⟨hexport, hagain⟩ := exchange_round_trip.2 v .strict now h hv hread
  exact ⟨⟨hg, exchange_round_trip.1 g hg .strict now⟩, hv, h, hread, hexport, hagain .lenient now⟩

end Exchange
end SignalEvolution
