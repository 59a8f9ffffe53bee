import SignalEvolution.Proofs.Evolution.Duplicates

/-! # What every offer leaves

A hall keeps its entries and their formulas in two places and changes them at different moments
of one offer. After any offers the two agree, the entries are ranked, and they fit.
-/
namespace SignalEvolution.Hall

variable {h : Hall} {e : Elite}

/-- At most as many entries as there are places, best first, and the formulas of just these. -/
structure Orderly (h : Hall) : Prop where
  fits : h.entries.length ≤ h.capacity
  descending : h.entries.Pairwise fun a b => b.standing ≤ a.standing
  indexed : h.Indexed

theorem orderly_empty (capacity : Nat) : Orderly { capacity } where
  fits := Nat.zero_le capacity
  descending := List.Pairwise.nil
  indexed := (holds_empty capacity).indexed

theorem Orderly.offer (ho : h.Orderly) (e : Elite) : (h.offer e).1.Orderly := by
  refine ⟨?_, ?_, ho.indexed.offer e⟩
  · rw [capacity_offer]
    unfold Hall.offer
    split
    · exact ho.fits
    · exact List.length_take_le _ _
  · unfold Hall.offer
    split
    · exact ho.descending
    · exact (ranks (h.entries ++ [e])).descending.sublist (List.take_sublist _ _)

theorem orderly_offerEach (capacity : Nat) (offered : List Elite) :
    (offerEach { capacity } offered).Orderly := by
  induction offered using List.reverseRecOn with
  | nil => exact orderly_empty capacity
  | append_singleton offered e ih =>
    rw [offerEach, List.foldl_append]
    exact ih.offer e

/-- After any offers, whatever the scores and the formulas, a hall has no more entries than places,
in descending order of standing and with distinct formulas, and it knows the formulas of just its
entries. So a formula that it holds is refused, and one that it dropped is ranked again. -/
theorem orderly_always (capacity : Nat) (offerings : List Offering) :
    let hall := offerings.foldl receive { capacity }
    hall.entries.length ≤ capacity ∧
    (hall.entries.Pairwise fun a b => b.standing ≤ a.standing) ∧
    (hall.entries.map Elite.canonical).Nodup ∧
    (∀ s, s ∈ hall.signatures ↔ s ∈ hall.entries.map Elite.canonical) ∧
    ∀ e : Elite,
      (e.canonical ∈ hall.entries.map Elite.canonical ∨ capacity = 0 →
        hall.offer e = (hall, false)) ∧
      (e.canonical ∉ hall.entries.map Elite.canonical → 0 < capacity →
        (hall.offer e).2 = true ∧
        (hall.offer e).1.entries = (ranked (hall.entries ++ [e])).take capacity) := by
  intro hall
  have hall_eq : hall = offerEach { capacity } (offerings.flatMap Offering.elites) :=
    foldl_receive_eq _ offerings
  have hcapacity : hall.capacity = capacity := by rw [hall_eq, capacity_offerEach]
  have horderly : hall.Orderly := hall_eq ▸ orderly_offerEach capacity _
  refine ⟨hcapacity ▸ horderly.fits, horderly.descending, horderly.indexed.nodup,
    horderly.indexed.signatures, ?_⟩
  intro e
  rw [← horderly.indexed.signatures]
  constructor
  · rintro (hknown | hzero)
    · exact offer_of_mem hknown
    · rw [Hall.offer, if_pos (.inl (hcapacity.trans hzero))]
  · intro hnew hpos
    have htaken := offer_of_not_mem (hcapacity ▸ hpos) hnew
    rwa [hcapacity] at htaken

end SignalEvolution.Hall
