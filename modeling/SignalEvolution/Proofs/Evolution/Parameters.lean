import Mathlib.Data.List.Forall2
import SignalEvolution.Proofs.Evolution.Inheritance
import SignalEvolution.Proofs.Indicator.Key

/-! # Parameters of evolved indicators

An indicator is drawn with a value for each parameter that it declares. A mutation changes
one of them or carries those over that another indicator declares too. Every value is brought
into its declared range when it is made, so that readings use just what formulas show.
-/
namespace SignalEvolution

open Binary
open Draw (Always)

variable {σ : Type} [WordSource σ]

namespace Indicator

variable {i : Indicator} {params : Table Float} {spec : ParamSpec Float}

/-- The parameters are exactly the declared ones, and their values are allowed. -/
structure Allows (i : Indicator) (params : Table Float) : Prop where
  declares : Formula.Declares i params
  admits : ∀ spec ∈ (i.specs (α := Float)), spec.Admits (spec.stored params)

theorem Allows.find? (h : i.Allows params) (hspec : spec ∈ i.specs) :
    params.find? spec.name = some (spec.stored params) :=
  Formula.find?_stored ((h.declares spec.name).mpr ⟨spec, hspec, rfl⟩)

theorem Allows.value_eq (h : i.Allows params) (hspec : spec ∈ i.specs) :
    spec.value params = spec.stored params := by
  rw [ParamSpec.value, h.find? hspec]
  exact (specs_sound hspec).normalize_eq (h.admits spec hspec)

theorem exists_mem_of_forall₂ {α β : Type} {R : α → β → Prop} {xs : List α} {ys : List β} {x : α}
    (h : List.Forall₂ R xs ys) (hx : x ∈ xs) : ∃ y ∈ ys, R x y := by
  induction h with
  | nil => cases hx
  | cons hhead _ ih =>
    rcases List.mem_cons.mp hx with rfl | hx
    · exact ⟨_, List.mem_cons_self, hhead⟩
    · obtain ⟨y, hy, hr⟩ := ih hx
      exact ⟨y, List.mem_cons_of_mem _ hy, hr⟩

theorem allows_ofList {es : List (String × Float)}
    (h : List.Forall₂ (fun spec e => e.1 = spec.name ∧ spec.Admits e.2) i.specs es) :
    i.Allows (Table.ofList es) := by
  have hkeys : es.map Prod.fst = (i.specs (α := Float)).map ParamSpec.name := by
    generalize (i.specs (α := Float)) = specs at h
    induction h with
    | nil => rfl
    | cons hhead _ ih => rw [List.map_cons, List.map_cons, hhead.1, ih]
  have hnodup : (es.map Prod.fst).Nodup := hkeys ▸ (Formula.specNames_nodup i)
  constructor
  · intro key
    rw [Table.contains, Table.find?_ofList hnodup, Option.isSome_iff_ne_none, ne_eq,
      Entries.find?_eq_none_iff, not_not, hkeys, List.mem_map]
  · intro spec hspec
    obtain ⟨⟨name, x⟩, hx, hname, hadmits⟩ := exists_mem_of_forall₂ h hspec
    obtain rfl : name = spec.name := hname
    rwa [ParamSpec.stored, Table.find?_ofList hnodup, Entries.find?_of_mem hnodup hx]

theorem Allows.insert {x : Float} (h : i.Allows params) (hspec : spec ∈ i.specs) (hx : spec.Admits x) :
    i.Allows (params.insert spec.name x) := by
  constructor
  · intro key
    rw [Table.contains_insert, Bool.or_eq_true, decide_eq_true_eq, h.declares key]
    constructor
    · rintro (rfl | hdeclared)
      · exact ⟨spec, hspec, rfl⟩
      · exact hdeclared
    · exact .inr
  · intro other hother
    rw [ParamSpec.stored, Table.find?_insert]
    split
    · next hname =>
      obtain rfl : other = spec := List.inj_on_of_nodup_map (Formula.specNames_nodup i) hother hspec hname
      exact hx
    · exact h.admits other hother

/-- The value that another indicator reads is in its own range. -/
theorem Allows.value_admits {j : Indicator} (h : i.Allows params) (hspec : spec ∈ j.specs) : spec.Admits (spec.value params) := by
  apply (specs_sound hspec).value_admits
  intro x hfind
  -- The stored value was allowed under another range, so it is a number.
  have hcontains : params.contains spec.name = true := by rw [Table.contains, hfind]; rfl
  obtain ⟨own, hown, hname⟩ := (h.declares spec.name).mp hcontains
  have hstored := h.find? hown
  rw [hname, hfind] at hstored
  obtain rfl := Option.some.inj hstored
  exact (numbers_of_le (h.admits own hown).1).2

end Indicator

/-- An indicator goes by its name, and it allows the parameters that it holds. -/
def Kind.Declared : Kind → Prop
  | .indicator name params => ∃ i : Indicator, i.mnemonic = name ∧ i.Allows params
  | _ => True

namespace Generator

variable {g : Generator} {spec : ParamSpec Float}

theorem param_admits (hs : spec.Sound) :
    Always (param spec : Draw σ (String × Float)) fun e => e.1 = spec.name ∧ spec.Admits e.2 := by
  apply Always.ite
  · intro _
    apply (Draw.within_finite hs.low hs.scale).bind
    intro x hx
    exact Always.pure ⟨rfl, hs.normalize (isNaN_of_isFinite hx)⟩
  · intro _
    exact Always.pure ⟨rfl, hs.default⟩

omit [WordSource σ] in
theorem forEach_always {α β : Type} {R : α → β → Prop} {f : α → Draw σ β} {xs : List α}
    (h : ∀ x ∈ xs, (f x).Always (R x)) : (Draw.forEach f xs).Always (List.Forall₂ R xs) := by
  induction xs with
  | nil => exact Always.pure .nil
  | cons x xs ih =>
    obtain ⟨hx, hxs⟩ := List.forall_mem_cons.mp h
    apply hx.bind
    intro y hy
    apply (ih hxs).bind
    intro ys hys
    exact Always.pure (.cons hy hys)

theorem draws_declared (g : Generator) : g.Draws σ Kind.Declared where
  operator _ := trivial
  comparator _ := trivial
  series _ := trivial
  constant := constant_unless fun _ => Tree.every_leaf trivial
  indicator := by
    apply Always.after
    intro n
    apply (forEach_always fun spec hspec => param_admits (Indicator.specs_sound hspec)).bind
    intro es hes
    exact Always.pure (Tree.every_leaf ⟨_, rfl, Indicator.allows_ofList hes⟩)

end Generator

namespace Tree

variable {i : Indicator} {params : Table Float}

theorem perturb_declared (h : i.Allows params) :
    Always (perturb i params : Draw σ (Option Kind)) fun out => ∀ l ∈ out, l.Declared := by
  apply (Always.choose?_mem i.specs).bind
  intro spec hspec
  cases spec with
  | none => exact Always.nothing
  | some spec =>
    have hmem := hspec spec rfl
    have hsound := Indicator.specs_sound hmem
    have hlow : Draw.Moderate 0.8 := by decide +kernel
    have hscale : Draw.Moderate (Draw.scaleOf 0.8 1.2) := by decide +kernel
    apply (Draw.within_finite hlow hscale).bind
    intro factor hfactor
    apply Always.pure
    obtain ⟨hleast, hgreatest, -⟩ := h.value_admits hmem
    have hproduct := hasValue_mul (hsound.between hleast hgreatest).1 hfactor
    rintro l ⟨⟩
    exact ⟨i, rfl, h.insert hmem (hsound.normalize hproduct.number)⟩

theorem exchange_declared (h : i.Allows params) :
    Always (exchange i params : Draw σ (Option Kind)) fun out => ∀ l ∈ out, l.Declared := by
  apply Always.after
  intro other
  cases other with
  | none => exact Always.nothing
  | some other =>
    apply Always.pure
    rintro l ⟨⟩
    refine ⟨other, rfl, Indicator.allows_ofList ?_⟩
    rw [List.forall₂_map_right_iff, List.forall₂_same]
    intro spec hspec
    exact ⟨rfl, h.value_admits hspec⟩

theorem mutateKind_declared (s : EvolutionSettings) (k : Kind) :
    Always (mutateKind s k : Draw σ Kind) fun l => k.Declared → l.Declared := by
  apply mutateKind_result (R := fun k l => k.Declared → l.Declared)
  case hindicator =>
    -- A declared indicator is found under its name, so its own parameters are the ones that vary.
    intro name params
    have hfound : ∀ i, Indicator.find? name.toList = some i → (Kind.indicator name params).Declared →
        i.Allows params := by
      rintro i hi ⟨j, rfl, hallows⟩
      rw [Indicator.find?_mnemonic] at hi
      rwa [← Option.some.inj hi]
    apply mutateIndicator_result id
    · exact fun i hi => ⟨fun w l hl h => (perturb_declared (hfound i hi h)).holds w l hl⟩
    · exact fun i hi => ⟨fun w l hl h => (exchange_declared (hfound i hi h)).holds w l hl⟩
  all_goals
    intros
    trivial

end Tree

namespace Indicator

variable {i : Indicator} {params : Table Float}

theorem callText_congr (name : String) (params : Table Float) {specs : List (ParamSpec Float)}
    {f g : ParamSpec Float → Float} (h : ∀ spec ∈ specs, f spec = g spec) :
    callText name specs params f = callText name specs params g := by
  have hmap : specs.map (fun spec => numberText (f spec)) = specs.map fun spec => numberText (g spec) :=
    List.map_congr_left fun spec hspec => congrArg numberText (h spec hspec)
  unfold callText
  rw [hmap]

/-- A call shows the values that the reading uses. -/
theorem formulaCall_eq_readingKey (h : i.Allows params) :
    formulaCall i.mnemonic params = readingKey i.mnemonic params := by
  rw [formulaCall, readingKey, specsOf_mnemonic]
  exact callText_congr _ _ fun spec hspec => (h.value_eq hspec).symm

end Indicator

/-- In every generation of a run from a random population, each indicator of each individual goes by
its name in the catalogue and holds exactly the parameters that it declares, each value lies in its
declared range and is whole where the declaration asks for it, and it is the value that readings use.
So the text of the indicator in formulas is the key of its reading. A run comes to its end if the
generator has a range to draw constants from. -/
theorem Engine.evolved_parameters (e : Engine σ) (evaluator : Evaluator) :
    (∀ scored ∈ e.generations none evaluator, ∀ member ∈ scored, ∀ u ∈ member.gene.root.preorder,
      ∀ name params, u.kind = .indicator name params → ∃ i : Indicator, i.mnemonic = name ∧
        (∀ key, params.contains key = true ↔ ∃ spec ∈ (i.specs (α := Float)), spec.name = key) ∧
        (∀ spec ∈ (i.specs (α := Float)), ∃ x, params.find? spec.name = some x ∧
          spec.least ≤ x ∧ x ≤ spec.greatest ∧ (spec.whole = true → isWhole x = true) ∧
          spec.value params = x) ∧
        Indicator.formulaCall name params = Indicator.readingKey name params) ∧
    (e.generator.Ready → ∃ run, e.evolve none evaluator = some run) ∧
    ∀ run, e.evolve none evaluator = some run →
      (e.generations none evaluator).getLast? = some run.1.population ∧
      run.1.history = (e.generations none evaluator).mapIdx GenerationStats.ofPopulation := by
  have hereditary := EvolutionSettings.hereditary_every (σ := σ) e.generator.draws_declared
    (Tree.mutateKind_declared e.settings)
  have hnone : ∀ genes ∈ (none : Option (List Gene)), ∀ gene ∈ genes, gene.root.Every Kind.Declared := by
    simp
  have hall := generations_inherit hereditary hnone evaluator
  refine ⟨?_, fun hready => exists_evolve hready none evaluator,
    fun _ hrun => ⟨evolve_population hrun, evolve_history hrun⟩⟩
  intro scored hscored member hmember u hu name params hkind
  have hdeclared : (Kind.indicator name params).Declared := hkind ▸ hall scored hscored member hmember u hu
  obtain ⟨i, rfl, hallows⟩ := hdeclared
  refine ⟨i, rfl, hallows.declares, ?_, Indicator.formulaCall_eq_readingKey hallows⟩
  intro spec hspec
  obtain ⟨hleast, hgreatest, hwhole⟩ := hallows.admits spec hspec
  exact ⟨_, hallows.find? hspec, hleast, hgreatest, hwhole, hallows.value_eq hspec⟩

/-- The default settings, with an evaluator that asks for more from one generation to the next. -/
theorem Engine.evolved_parameters_default :
    let e : Engine ListedWords :=
      ⟨.default, .ofSettings .default, { capacity := Hall.defaultCapacity }, ⟨[], 7⟩⟩
    let evaluator : Evaluator := fun generation place gene =>
      { score := Float.ofNat (gene.nodeCount + place) - Float.ofNat generation }
    e.generator.Ready ∧ ∃ run, e.evolve none evaluator = some run ∧
      (e.generations none evaluator).getLast? = some run.1.population ∧
      ∀ member ∈ run.1.population, ∀ u ∈ member.gene.root.preorder, ∀ name params,
        u.kind = .indicator name params →
          Indicator.formulaCall name params = Indicator.readingKey name params := by
  intro e evaluator
  have hready : e.generator.Ready := by decide +kernel
  obtain ⟨hall, hruns, hends⟩ := Engine.evolved_parameters e evaluator
  obtain ⟨run, hrun⟩ := hruns hready
  obtain ⟨hlast, -⟩ := hends run hrun
  refine ⟨hready, run, hrun, hlast, fun member hmember u hu name params hkind => ?_⟩
  obtain ⟨i, -, -, -, htext⟩ :=
    hall _ (List.mem_of_getLast? hlast) member hmember u hu name params hkind
  exact htext

end SignalEvolution
