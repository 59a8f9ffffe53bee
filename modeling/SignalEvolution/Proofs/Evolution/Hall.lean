import Mathlib.Data.List.Induction
import SignalEvolution.Proofs.Evolution.Ranking

/-! # The hall of fame remembers the best

A hall drops what does not fit and forgets its formula, and yet after any offers it holds
the best of everything it was offered: what was dropped ranks below a full hall, and so it
does when it comes again.
-/
namespace SignalEvolution

variable {h : Hall} {e : Elite} {offered : List Elite}

/-- The first entry under each formula, in the order in which they came. -/
def Elite.firsts : List Elite → List Elite
  | [] => []
  | e :: rest => e :: (firsts rest).filter fun d => d.canonical ≠ e.canonical

namespace Elite

theorem exists_mem_firsts (he : e ∈ offered) : ∃ d ∈ firsts offered, d.canonical = e.canonical := by
  induction offered with
  | nil => exact absurd he List.not_mem_nil
  | cons a rest ih =>
    by_cases ha : a.canonical = e.canonical
    · exact ⟨a, List.mem_cons_self, ha⟩
    · have hrest : e ∈ rest := (List.mem_cons.mp he).resolve_left fun heq => ha (by rw [heq])
      obtain ⟨d, hd, hde⟩ := ih hrest
      refine ⟨d, List.mem_cons_of_mem _ (List.mem_filter.mpr ⟨hd, ?_⟩), hde⟩
      simpa [hde] using Ne.symm ha

theorem mem_of_mem_firsts (he : e ∈ firsts offered) : e ∈ offered := by
  induction offered with
  | nil => exact he
  | cons a rest ih =>
    rcases List.mem_cons.mp he with rfl | he
    · exact List.mem_cons_self
    · exact List.mem_cons_of_mem _ (ih (List.mem_filter.mp he).1)

theorem firsts_concat_new (he : e.canonical ∉ offered.map canonical) :
    firsts (offered ++ [e]) = firsts offered ++ [e] := by
  induction offered with
  | nil => rfl
  | cons a rest ih =>
    obtain ⟨hae, hrest⟩ := not_or.mp (List.mem_cons.not.mp he)
    rw [List.cons_append, firsts, firsts, ih hrest, List.filter_append]
    simp [hae]

/-- A formula that came before adds nothing. -/
theorem firsts_concat_known (he : e.canonical ∈ offered.map canonical) :
    firsts (offered ++ [e]) = firsts offered := by
  induction offered with
  | nil => exact absurd he List.not_mem_nil
  | cons a rest ih =>
    rw [List.cons_append, firsts, firsts]
    by_cases hrest : e.canonical ∈ rest.map canonical
    · rw [ih hrest]
    · have hae : e.canonical = a.canonical := (List.mem_cons.mp he).resolve_right hrest
      rw [firsts_concat_new hrest, List.filter_append]
      simp [hae]

end Elite

namespace Hall

/-- No formula is held twice, and the formulas kept for recognition are those of the entries. -/
structure Indexed (h : Hall) : Prop where
  nodup : (h.entries.map Elite.canonical).Nodup
  signatures : ∀ s, s ∈ h.signatures ↔ s ∈ h.entries.map Elite.canonical

theorem Indexed.trim (hi : h.Indexed) : h.trim.Indexed := by
  have hnodup := hi.nodup
  rw [← List.take_append_drop h.capacity h.entries, List.map_append] at hnodup
  obtain ⟨htake, -, hdisjoint⟩ := List.nodup_append.mp hnodup
  constructor
  · exact htake
  · intro s
    have hs := hi.signatures s
    rw [← List.take_append_drop h.capacity h.entries, List.map_append, List.mem_append] at hs
    simp only [Hall.trim, List.mem_filter, List.contains_eq_mem, Bool.not_eq_true',
      decide_eq_false_iff_not, hs]
    constructor
    · rintro ⟨hkept | hdropped, hnot⟩
      · exact hkept
      · exact absurd hdropped hnot
    · intro hkept
      exact ⟨.inl hkept, fun hdropped => hdisjoint s hkept s hdropped rfl⟩

theorem Indexed.add (hi : h.Indexed) (he : e.canonical ∉ h.signatures) :
    Indexed { h with
      entries := ranked (h.entries ++ [e])
      signatures := e.canonical :: h.signatures } := by
  have hperm : (ranked (h.entries ++ [e])).Perm (h.entries ++ [e]) := List.mergeSort_perm _ _
  have hmap := hperm.map Elite.canonical
  have hnew : e.canonical ∉ h.entries.map Elite.canonical := by rwa [← hi.signatures]
  constructor
  · rw [hmap.nodup_iff, List.map_append, List.nodup_append]
    refine ⟨hi.nodup, List.pairwise_singleton _ _, ?_⟩
    rintro s hs s' hs' rfl
    exact hnew (List.mem_singleton.mp hs' ▸ hs)
  · intro s
    rw [hmap.mem_iff, List.mem_cons, hi.signatures]
    simp [or_comm]

theorem ranks (entries : List Elite) : Ranks Elite.standing (ranked entries) entries :=
  Ranks.mergeSort Elite.standing entries

theorem ranked_concat (hdescending : h.entries.Pairwise fun a b => b.standing ≤ a.standing) (e : Elite) :
    ranked (h.entries ++ [e]) = place Elite.standing e h.entries :=
  (ranks _).unique ((Ranks.self hdescending).place e)

theorem offer_of_mem (hknown : e.canonical ∈ h.signatures) : h.offer e = (h, false) := by
  rw [Hall.offer, if_pos]
  exact .inr (by simpa using hknown)

theorem offer_of_not_mem (hcapacity : 0 < h.capacity) (hnew : e.canonical ∉ h.signatures) :
    (h.offer e).2 = true ∧ (h.offer e).1.entries = (ranked (h.entries ++ [e])).take h.capacity := by
  have htaken : ¬ (h.capacity = 0 ∨ h.signatures.contains e.canonical = true) := by
    rintro (hzero | hknown)
    · omega
    · exact hnew (by simpa using hknown)
  rw [Hall.offer, if_neg htaken]
  exact ⟨rfl, rfl⟩

/-- An entry that ranks last comes into a full hall and is the one that leaves. -/
theorem offer_last (hdescending : h.entries.Pairwise fun a b => b.standing ≤ a.standing)
    (hnew : e.canonical ∉ h.signatures) (hfull : h.entries.length = h.capacity)
    (hbelow : ∀ d ∈ h.entries, e.standing ≤ d.standing) : (h.offer e).1 = h := by
  unfold offer
  split
  · rfl
  · have hranked : ranked (h.entries ++ [e]) = h.entries ++ [e] := by
      rw [ranked_concat hdescending, place_last hbelow]
    have hsignatures : (h.signatures.filter fun s => !decide (s = e.canonical)) = h.signatures := by
      rw [List.filter_eq_self]
      intro s hs
      have hne : s ≠ e.canonical := fun heq => hnew (heq ▸ hs)
      simpa using hne
    simp only [trim, hranked, ← hfull, List.take_left, List.drop_left]
    simp [hsignatures, hfull]

/-- Equal formulas rank equally. -/
def Consistent (offered : List Elite) : Prop :=
  ∀ a ∈ offered, ∀ b ∈ offered, a.canonical = b.canonical → a.standing = b.standing

/-- The hall holds the best of what it was offered. -/
structure Holds (h : Hall) (offered : List Elite) : Prop where
  indexed : h.Indexed
  entries : h.entries = (ranked (Elite.firsts offered)).take h.capacity

theorem Holds.descending (hh : h.Holds offered) :
    h.entries.Pairwise fun a b => b.standing ≤ a.standing := by
  rw [hh.entries]
  exact (ranks _).descending.sublist (List.take_sublist _ _)

/-- An entry whose formula was offered before stands below a full hall, if it is not held. -/
theorem Holds.evicted (hh : h.Holds offered) (hsame : Consistent (offered ++ [e]))
    (he : e.canonical ∈ offered.map Elite.canonical) (hnot : e.canonical ∉ h.signatures) :
    h.entries.length = h.capacity ∧ ∀ d ∈ h.entries, e.standing ≤ d.standing := by
  obtain ⟨a, ha, hae⟩ := List.mem_map.mp he
  obtain ⟨d, hd, hda⟩ := Elite.exists_mem_firsts ha
  have hstanding : d.standing = e.standing :=
    hsame d (List.mem_append_left _ (Elite.mem_of_mem_firsts hd)) e List.mem_concat_self
      (hda.trans hae)
  have hsplit := List.take_append_drop h.capacity (ranked (Elite.firsts offered))
  have hdropped : d ∈ (ranked (Elite.firsts offered)).drop h.capacity := by
    have hd' := (ranks _).perm.mem_iff.mpr hd
    rw [← hsplit] at hd'
    refine (List.mem_append.mp hd').resolve_left ?_
    intro hkept
    apply hnot
    rw [hh.indexed.signatures, hh.entries, ← hae, ← hda]
    exact List.mem_map_of_mem hkept
  constructor
  · have hpos := List.length_pos_of_mem hdropped
    rw [List.length_drop] at hpos
    rw [hh.entries, List.length_take]
    omega
  · intro c hc
    rw [hh.entries] at hc
    have hdescending := (ranks (Elite.firsts offered)).descending
    rw [← hsplit, List.pairwise_append] at hdescending
    have hbelow := hdescending.2.2 c hc d hdropped
    omega

/-- An entry whose formula was offered before changes nothing. -/
theorem Holds.offer_known (hh : h.Holds offered) (hsame : Consistent (offered ++ [e]))
    (he : e.canonical ∈ offered.map Elite.canonical) : (h.offer e).1 = h := by
  by_cases hknown : e.canonical ∈ h.signatures
  · rw [offer_of_mem hknown]
  · obtain ⟨hfull, hbelow⟩ := hh.evicted hsame he hknown
    exact offer_last hh.descending hknown hfull hbelow

theorem Holds.offer_new (hh : h.Holds offered) (he : e.canonical ∉ offered.map Elite.canonical) :
    (h.offer e).1.Holds (offered ++ [e]) := by
  have hnot : e.canonical ∉ h.signatures := by
    intro hin
    rw [hh.indexed.signatures, hh.entries] at hin
    obtain ⟨d, hd, hde⟩ := List.mem_map.mp hin
    have hfirst := (ranks _).perm.mem_iff.mp (List.mem_of_mem_take hd)
    exact he (hde ▸ List.mem_map_of_mem (Elite.mem_of_mem_firsts hfirst))
  unfold offer
  split
  · next hclosed =>
    have hzero : h.capacity = 0 := by simpa [hnot] using hclosed
    refine ⟨hh.indexed, ?_⟩
    rw [hh.entries, hzero, List.take_zero, List.take_zero]
  · refine ⟨(hh.indexed.add hnot).trim, ?_⟩
    have hplaced := (ranks (Elite.firsts offered)).place e
    have hbest := (ranks (Elite.firsts offered ++ [e])).unique hplaced
    calc (ranked (h.entries ++ [e])).take h.capacity
      _ = (place Elite.standing e ((ranked (Elite.firsts offered)).take h.capacity)).take
            h.capacity := by rw [ranked_concat hh.descending, hh.entries]
      _ = (place Elite.standing e (ranked (Elite.firsts offered))).take h.capacity :=
        take_place_take ..
      _ = (ranked (Elite.firsts (offered ++ [e]))).take h.capacity := by
        rw [Elite.firsts_concat_new he, hbest]

theorem Holds.offer (hh : h.Holds offered) (hsame : Consistent (offered ++ [e])) :
    (h.offer e).1.Holds (offered ++ [e]) := by
  by_cases he : e.canonical ∈ offered.map Elite.canonical
  · rw [hh.offer_known hsame he]
    exact ⟨hh.indexed, by rw [Elite.firsts_concat_known he, hh.entries]⟩
  · exact hh.offer_new he

/-- A single entry, or a scored population of one generation. -/
inductive Offering where
  | entry (e : Elite)
  | population (generation : Nat) (scored : List Scored)

/-- The entries that are offered, in order. -/
def Offering.elites : Offering → List Elite
  | entry e => [e]
  | population generation scored => scored.map fun s => Elite.ofScored s generation

def receive (h : Hall) : Offering → Hall
  | .entry e => (h.offer e).1
  | .population generation scored => (h.offerAll generation scored).1

def offerEach (h : Hall) (es : List Elite) : Hall := es.foldl (fun h e => (h.offer e).1) h

theorem offerAll_eq (h : Hall) (generation : Nat) (scored : List Scored) :
    (h.offerAll generation scored).1 =
      h.offerEach (scored.map fun s => Elite.ofScored s generation) := by
  induction scored generalizing h with
  | nil => rfl
  | cons s rest ih => exact ih (h.offer (Elite.ofScored s generation)).1

theorem receive_eq (h : Hall) (offering : Offering) :
    h.receive offering = h.offerEach offering.elites := by
  cases offering with
  | entry e => rfl
  | population generation scored => exact offerAll_eq h generation scored

theorem foldl_receive_eq (h : Hall) (offerings : List Offering) :
    offerings.foldl receive h = h.offerEach (offerings.flatMap Offering.elites) := by
  induction offerings generalizing h with
  | nil => rfl
  | cons offering rest ih =>
    rw [List.foldl_cons, ih, receive_eq, List.flatMap_cons, offerEach, offerEach, offerEach,
      List.foldl_append]

@[simp] theorem capacity_offer (h : Hall) (e : Elite) : (h.offer e).1.capacity = h.capacity := by
  unfold Hall.offer
  split
  · rfl
  · rfl

@[simp] theorem capacity_offerEach (h : Hall) (es : List Elite) :
    (h.offerEach es).capacity = h.capacity := by
  induction es generalizing h with
  | nil => rfl
  | cons e rest ih => exact (ih (h.offer e).1).trans (capacity_offer h e)

theorem Consistent.left {later : List Elite} (hsame : Consistent (offered ++ later)) :
    Consistent offered := fun a ha b hb =>
  hsame a (List.mem_append_left _ ha) b (List.mem_append_left _ hb)

theorem holds_empty (capacity : Nat) : Holds { capacity } [] := by
  refine ⟨⟨List.nodup_nil, fun s => Iff.rfl⟩, ?_⟩
  simp [Elite.firsts, ranked]

/-- The entries are offered one by one, so the run is followed from its last offer back. -/
theorem holds_offerEach (capacity : Nat) (hsame : Consistent offered) :
    (offerEach { capacity } offered).Holds offered := by
  induction offered using List.reverseRecOn with
  | nil => exact holds_empty capacity
  | append_singleton offered e ih =>
    rw [offerEach, List.foldl_append]
    exact (ih hsame.left).offer hsame

/-- A hall holds the best of all that was offered to it: the first places of the ranking of the
first offers of each formula, which lists equals in the order of their offers. What was offered
before, held or dropped, changes nothing. Equal formulas are to have equal standing, that is scores
of one rank: all NaN rank alike, and zeros of either sign apart. -/
theorem entries_are_best_offers (capacity : Nat) (offerings : List Offering)
    (hsame : ∀ a ∈ offerings.flatMap Offering.elites, ∀ b ∈ offerings.flatMap Offering.elites,
      a.canonical = b.canonical → a.standing = b.standing) :
    let hall := offerings.foldl receive { capacity }
    let firsts := Elite.firsts (offerings.flatMap Offering.elites)
    hall.entries = (ranked firsts).take capacity ∧
    Ranks Elite.standing (ranked firsts) firsts ∧
    ∀ e ∈ offerings.flatMap Offering.elites, (hall.offer e).1 = hall := by
  intro hall firsts
  have hall_eq : hall = offerEach { capacity } (offerings.flatMap Offering.elites) :=
    foldl_receive_eq _ offerings
  have hholds : hall.Holds (offerings.flatMap Offering.elites) :=
    hall_eq ▸ holds_offerEach capacity hsame
  have hcapacity : hall.capacity = capacity := by rw [hall_eq, capacity_offerEach]
  refine ⟨?_, ranks firsts, ?_⟩
  · rw [hholds.entries, hcapacity]
  · intro e he
    have hagain : ∀ a ∈ offerings.flatMap Offering.elites ++ [e],
        a ∈ offerings.flatMap Offering.elites := by
      intro a ha
      rcases List.mem_append.mp ha with ha | ha
      · exact ha
      · rwa [List.mem_singleton.mp ha]
    apply hholds.offer_known
    · exact fun a ha b hb => hsame a (hagain a ha) b (hagain b hb)
    · exact List.mem_map_of_mem he

/-- A hall of one place, in which an entry gives way to a better one and comes again. -/
theorem entries_are_best_offers_again :
    let low : Scored := ⟨⟨.series .close, "00000000000000aa", 0, {}⟩, { score := 0.25 }⟩
    let high : Elite := Elite.ofScored ⟨⟨.series .volume, "00000000000000bb", 0, {}⟩, { score := 0.5 }⟩ 1
    let offerings := [Offering.population 0 [low], .entry high, .population 2 [low]]
    let hall := offerings.foldl receive { capacity := 1 }
    (∀ a ∈ offerings.flatMap Offering.elites, ∀ b ∈ offerings.flatMap Offering.elites,
      a.canonical = b.canonical → a.standing = b.standing) ∧
    hall.entries = (ranked [Elite.ofScored low 0, high]).take 1 ∧
    (ranked [Elite.ofScored low 0, high]).take 1 = [high] ∧
    Ranks Elite.standing (ranked [Elite.ofScored low 0, high]) [Elite.ofScored low 0, high] ∧
    (hall.offer (Elite.ofScored low 2)).1 = hall := by
  intro low high offerings hall
  have hdistinct : (Elite.ofScored low 0).canonical ≠ high.canonical := by decide
  have hbelow : (Elite.ofScored low 0).standing < high.standing := by decide
  have hsame : ∀ a ∈ offerings.flatMap Offering.elites, ∀ b ∈ offerings.flatMap Offering.elites,
      a.canonical = b.canonical → a.standing = b.standing := by
    have hcases : ∀ a ∈ offerings.flatMap Offering.elites, a = high ∨
        a.canonical = (Elite.ofScored low 0).canonical ∧
          a.standing = (Elite.ofScored low 0).standing := by
      intro a ha
      have ha' : a = Elite.ofScored low 0 ∨ a = high ∨ a = Elite.ofScored low 2 := by
        simpa [offerings, Offering.elites] using ha
      rcases ha' with rfl | rfl | rfl
      · exact .inr ⟨rfl, rfl⟩
      · exact .inl rfl
      · exact .inr ⟨rfl, rfl⟩
    intro a ha b hb hab
    rcases hcases a ha with rfl | ⟨hformula, hstanding⟩
    · rcases hcases b hb with rfl | ⟨hformula', -⟩
      · rfl
      · exact absurd (hab.trans hformula').symm hdistinct
    · rcases hcases b hb with rfl | ⟨-, hstanding'⟩
      · exact absurd (hformula.symm.trans hab) hdistinct
      · rw [hstanding, hstanding']
  have hbest : (ranked [Elite.ofScored low 0, high]).take 1 = [high] := by
    have hself : Ranks Elite.standing [Elite.ofScored low 0] [Elite.ofScored low 0] :=
      Ranks.self (List.pairwise_singleton _ _)
    have hplaced := hself.place high
    have hranked := (ranks ([Elite.ofScored low 0] ++ [high])).unique hplaced
    rw [place, if_neg (Int.not_le.mpr hbelow)] at hranked
    exact congrArg (List.take 1) hranked
  have hfirsts : Elite.firsts (offerings.flatMap Offering.elites) = [Elite.ofScored low 0, high] := by
    have hlast : (Elite.ofScored low 2).canonical ∈
        ([Elite.ofScored low 0] ++ [high]).map Elite.canonical := List.mem_cons_self
    have hsecond : high.canonical ∉ [Elite.ofScored low 0].map Elite.canonical := by
      rw [List.map_singleton, List.mem_singleton]
      exact hdistinct.symm
    change Elite.firsts ([Elite.ofScored low 0] ++ [high] ++ [Elite.ofScored low 2]) = _
    rw [Elite.firsts_concat_known hlast, Elite.firsts_concat_new hsecond]
    rfl
  obtain ⟨hentries, hranks, hagain⟩ := entries_are_best_offers 1 offerings hsame
  rw [hfirsts] at hentries hranks
  refine ⟨hsame, hentries, hbest, hranks, ?_⟩
  apply hagain
  simp [offerings, Offering.elites]

end Hall
end SignalEvolution
