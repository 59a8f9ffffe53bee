import SignalEvolution.Proofs.Evolution.Offers

/-! # Which offers enter the hall of fame

An offer is answered before the hall is trimmed. So an accepted entry is in the hall afterwards,
or it ranked below a full hall and has left it again; and the number of accepted offers is
that of the entries that came in together with those that fell short.
-/
namespace SignalEvolution

theorem mem_take_place {α : Type} {standing : α → Int} {ranked : List α} {e : α}
    (h : ∃ a ∈ ranked, standing a < standing e) : e ∈ (place standing e ranked).take ranked.length := by
  induction ranked with
  | nil => simp at h
  | cons a rest ih =>
    rw [place]
    split
    · next hle =>
      have hrest : ∃ b ∈ rest, standing b < standing e := by
        obtain ⟨b, hb, hlt⟩ := h
        refine ⟨b, (List.mem_cons.mp hb).resolve_left ?_, hlt⟩
        rintro rfl
        omega
      exact List.mem_cons_of_mem a (ih hrest)
    · exact List.mem_cons_self

namespace Hall

variable {h : Hall} {e : Elite}

/-- The hall has an entry of this formula. -/
def Contains (h : Hall) (formula : String) : Prop := formula ∈ h.entries.map Elite.canonical

instance (h : Hall) (formula : String) : Decidable (h.Contains formula) :=
  inferInstanceAs (Decidable (formula ∈ _))

/-- After the offer the hall has an entry of a formula that it had none of before. -/
def Enters (h : Hall) (e : Elite) : Prop := ¬ h.Contains e.canonical ∧ (h.offer e).1.Contains e.canonical

instance (h : Hall) (e : Elite) : Decidable (h.Enters e) := inferInstanceAs (Decidable (_ ∧ _))

/-- The formula is new to a hall that is full of entries which stand as high or higher. -/
def FallsShort (h : Hall) (e : Elite) : Prop :=
  ¬ h.Contains e.canonical ∧ 0 < h.capacity ∧ h.entries.length = h.capacity ∧
    ∀ a ∈ h.entries, e.standing ≤ a.standing

instance (h : Hall) (e : Elite) : Decidable (h.FallsShort e) := inferInstanceAs (Decidable (_ ∧ _))

theorem offer_refused (hanswer : (h.offer e).2 = false) : (h.offer e).1 = h := by
  unfold offer at hanswer ⊢
  split at hanswer
  · rw [if_pos ‹_›]
  · cases hanswer

theorem Orderly.accepts_iff (ho : h.Orderly) :
    (h.offer e).2 = true ↔ 0 < h.capacity ∧ ¬ h.Contains e.canonical := by
  rw [Contains, ← ho.indexed.signatures]
  constructor
  · intro haccepted
    constructor
    · apply Nat.pos_of_ne_zero
      intro hzero
      rw [Hall.offer, if_pos (.inl hzero)] at haccepted
      cases haccepted
    · intro hknown
      rw [offer_of_mem hknown] at haccepted
      cases haccepted
  · rintro ⟨hcapacity, hnew⟩
    exact (offer_of_not_mem hcapacity hnew).1

theorem Orderly.offer_fallsShort (ho : h.Orderly) (hshort : h.FallsShort e) : h.offer e = (h, true) := by
  obtain ⟨hnew, hcapacity, hfull, hbelow⟩ := hshort
  have hunknown : e.canonical ∉ h.signatures := by rwa [ho.indexed.signatures]
  exact Prod.ext (offer_last ho.descending hunknown hfull hbelow) (ho.accepts_iff.mpr ⟨hcapacity, hnew⟩)

theorem Orderly.contains_offer (ho : h.Orderly) (hcapacity : 0 < h.capacity) (hnew : ¬ h.Contains e.canonical)
    (hshort : ¬ h.FallsShort e) : (h.offer e).1.Contains e.canonical := by
  have hunknown : e.canonical ∉ h.signatures := by rwa [ho.indexed.signatures]
  have hentries := (offer_of_not_mem hcapacity hunknown).2
  rw [ranked_concat ho.descending] at hentries
  suffices hin : e ∈ (h.offer e).1.entries from List.mem_map_of_mem hin
  rw [hentries]
  rcases ho.fits.lt_or_eq with hroom | hfull
  · have hperm := place_perm Elite.standing e h.entries
    rw [List.take_of_length_le (by simpa [hperm.length_eq] using hroom), hperm.mem_iff]
    exact List.mem_concat_self
  · rw [← hfull]
    apply mem_take_place
    by_contra hnone
    push Not at hnone
    exact hshort ⟨hnew, hcapacity, hfull, hnone⟩

/-- An accepted entry is in the hall afterwards, or it fell short. -/
theorem Orderly.accepts_iff_enters (ho : h.Orderly) :
    (h.offer e).2 = true ↔ h.Enters e ∨ h.FallsShort e := by
  constructor
  · intro haccepted
    obtain ⟨hcapacity, hnew⟩ := ho.accepts_iff.mp haccepted
    by_cases hshort : h.FallsShort e
    · exact .inr hshort
    · exact .inl ⟨hnew, ho.contains_offer hcapacity hnew hshort⟩
  · rintro (⟨hnew, hin⟩ | hshort)
    · by_contra hrefused
      rw [Bool.not_eq_true] at hrefused
      exact hnew (offer_refused hrefused ▸ hin)
    · rw [ho.offer_fallsShort hshort]

theorem Orderly.not_enters_of_fallsShort (ho : h.Orderly) (hshort : h.FallsShort e) : ¬ h.Enters e := by
  rintro ⟨hnew, hin⟩
  rw [ho.offer_fallsShort hshort] at hin
  exact hnew hin

/-- The offers in turn, each with the hall that it is made to. -/
def course (h : Hall) : List Elite → List (Hall × Elite)
  | [] => []
  | e :: rest => (h, e) :: course (h.offer e).1 rest

theorem offerAll_count (h : Hall) (generation : Nat) (scored : List Scored) :
    (h.offerAll generation scored).2 =
      (h.course (scored.map fun s => Elite.ofScored s generation)).countP fun o => (o.1.offer o.2).2 := by
  induction scored generalizing h with
  | nil => rfl
  | cons s rest ih =>
    let e := Elite.ofScored s generation
    have hstep : (h.offerAll generation (s :: rest)).2 = if (h.offer e).2 = true
        then ((h.offer e).1.offerAll generation rest).2 + 1
        else ((h.offer e).1.offerAll generation rest).2 := rfl
    rw [hstep, ih, List.map_cons, course, List.countP_cons]
    split <;> rfl

theorem Orderly.course (ho : h.Orderly) (es : List Elite) : ∀ o ∈ h.course es, o.1.Orderly := by
  induction es generalizing h with
  | nil => exact fun o ho => absurd ho List.not_mem_nil
  | cons e rest ih => exact List.forall_mem_cons.mpr ⟨ho, ih (ho.offer e)⟩

theorem countP_accepted {os : List (Hall × Elite)} (horderly : ∀ o ∈ os, o.1.Orderly) :
    os.countP (fun o => (o.1.offer o.2).2) =
      os.countP (fun o => o.1.Enters o.2) + os.countP (fun o => o.1.FallsShort o.2) := by
  induction os with
  | nil => rfl
  | cons o rest ih =>
    obtain ⟨ho, hrest⟩ := List.forall_mem_cons.mp horderly
    have haccepts := ho.accepts_iff_enters (e := o.2)
    have hone := ho.not_enters_of_fallsShort (e := o.2)
    rw [List.countP_cons, List.countP_cons, List.countP_cons, ih hrest]
    by_cases henters : o.1.Enters o.2 <;> by_cases hshort : o.1.FallsShort o.2 <;>
      simp_all <;> omega

/-- In any hall that offers have made, an offer is accepted if and only if its formula comes into the
hall with it, or is new and falls short of a full one; then, as after a refusal, the hall is what it was.
So the number of accepted offers of a generation is that of the entries that came in and of those
that fell short, each in the hall as it was at its turn. -/
theorem accepted_offers (capacity : Nat) (offerings : List Offering) :
    let hall := offerings.foldl receive { capacity }
    (∀ e : Elite,
      ((hall.offer e).2 = true ↔ hall.Enters e ∨ hall.FallsShort e) ∧
      (hall.FallsShort e → ¬ hall.Enters e ∧ (hall.offer e).1 = hall) ∧
      ((hall.offer e).2 = false → (hall.offer e).1 = hall)) ∧
    ∀ (generation : Nat) (scored : List Scored),
      let offers := hall.course (scored.map fun s => Elite.ofScored s generation)
      (hall.offerAll generation scored).2 =
        offers.countP (fun o => o.1.Enters o.2) + offers.countP (fun o => o.1.FallsShort o.2) := by
  intro hall
  have hall_eq : hall = offerEach { capacity } (offerings.flatMap Offering.elites) :=
    foldl_receive_eq _ offerings
  have horderly : hall.Orderly := hall_eq ▸ orderly_offerEach capacity _
  refine ⟨?_, ?_⟩
  · intro e
    refine ⟨horderly.accepts_iff_enters, ?_, offer_refused⟩
    intro hshort
    exact ⟨horderly.not_enters_of_fallsShort hshort, congrArg Prod.fst (horderly.offer_fallsShort hshort)⟩
  · intro generation scored offers
    rw [offerAll_count, countP_accepted (horderly.course _)]

/-- A hall of one place accepts and counts an entry that is no better than the one it holds, and has not
taken it in. -/
theorem accepted_offer_not_entered :
    let high : Elite := Elite.ofScored ⟨⟨.series .volume, "00000000000000bb", 0, {}⟩, { score := 0.5 }⟩ 0
    let low : Scored := ⟨⟨.series .close, "00000000000000aa", 0, {}⟩, { score := 0.25 }⟩
    let hall := [Offering.entry high].foldl receive { capacity := 1 }
    (hall.offer (Elite.ofScored low 1)).2 = true ∧ ¬ hall.Enters (Elite.ofScored low 1) ∧
      (hall.offerAll 1 [low]).2 = 1 := by
  intro high low hall
  have horderly : hall.Orderly := orderly_offerEach 1 [high]
  have hentries : hall.entries = [high] := by
    change ([high].mergeSort _).take 1 = _
    rw [List.mergeSort_singleton]
    rfl
  have hshort : hall.FallsShort (Elite.ofScored low 1) := by
    unfold FallsShort Contains
    rw [hentries]
    decide +kernel
  have hoffer := horderly.offer_fallsShort hshort
  refine ⟨by rw [hoffer], horderly.not_enters_of_fallsShort hshort, ?_⟩
  rw [offerAll_count, List.map_singleton, course, course, List.countP_singleton, hoffer]
  rfl

end Hall
end SignalEvolution
