import SignalEvolution.Proofs.Formula.Language
import SignalEvolution.Proofs.Record.Node
import SignalEvolution.Proofs.Variation.Arity
import SignalEvolution.Tree.Template

/-! # Trees that the library makes

Trees are built by constructors, edited, read from formulas and records, drawn at random and
varied. However these ways are combined, every node of the outcome has its children and
every indicator its name.
-/
namespace SignalEvolution

namespace Formula

variable {mode : Mode} {cs source : List Char} {t : Tree} {ts : List Tree} {op : Operator}

theorem complete_of_fallback {reason : String} (h : fallback mode reason cs = .ok t) : t.Complete := by
  cases mode with
  | strict => cases h
  | lenient =>
    obtain rfl := Except.ok.inj h
    exact Tree.complete_leaf rfl trivial

theorem complete_of_operand (h : operand mode cs = .ok t) : t.Complete := by
  unfold operand at h
  dsimp only at h
  split at h
  · exact complete_of_fallback h
  · split at h
    · obtain rfl := Except.ok.inj h
      exact Tree.complete_leaf rfl trivial
    · obtain rfl := Except.ok.inj h
      exact Tree.complete_leaf rfl trivial
    · unfold indicatorCall at h
      split at h
      · exact complete_of_fallback h
      · obtain ⟨params, -, h⟩ := bind_eq_ok h
        obtain rfl := Except.ok.inj h
        exact Tree.complete_leaf rfl ⟨_, rfl⟩
    · exact complete_of_fallback h

theorem complete_of_clause (h : clause mode source cs = .ok t) : t.Complete := by
  unfold clause at h
  split at h
  · exact complete_of_fallback h
  · split at h
    · obtain ⟨a, ha, h⟩ := bind_eq_ok h
      obtain ⟨b, hb, h⟩ := bind_eq_ok h
      obtain rfl := Except.ok.inj h
      exact Tree.complete_pair rfl trivial (complete_of_operand ha) (complete_of_operand hb)
    · cases h
    · exact complete_of_operand h

theorem complete_join (hop : op = .and ∨ op = .or) (h : ∀ t ∈ ts, t.Complete) : (join op ts).Complete := by
  have harity : (Kind.operator op).arity = 2 := by
    rcases hop with rfl | rfl
    · rfl
    · rfl
  cases ts with
  | nil => exact Tree.complete_leaf rfl trivial
  | cons t ts =>
    obtain ⟨ht, hts⟩ := List.forall_mem_cons.mp h
    change (ts.foldl (fun left right => .node (.operator op) [left, right]) t).Complete
    clear h
    induction ts generalizing t with
    | nil => exact ht
    | cons u ts ih =>
      obtain ⟨hu, hts⟩ := List.forall_mem_cons.mp hts
      exact ih (.node (.operator op) [t, u]) (Tree.complete_pair harity trivial ht hu) hts

theorem exists_part_of_trees {ps : List (List Char)} (h : Outline.trees mode (ps.map part) = .ok ts) :
    ∀ t ∈ ts, ∃ p ∈ ps, (part p).tree mode = .ok t := by
  induction ps generalizing ts with
  | nil =>
    obtain rfl := Except.ok.inj h
    simp
  | cons p ps ih =>
    rw [List.map_cons, Outline.trees] at h
    obtain ⟨t, ht, h⟩ := bind_eq_ok h
    obtain ⟨us, hus, h⟩ := bind_eq_ok h
    obtain rfl := Except.ok.inj h
    refine List.forall_mem_cons.mpr ⟨⟨p, List.mem_cons_self, ht⟩, ?_⟩
    intro u hu
    obtain ⟨q, hq, hread⟩ := ih hus u hu
    exact ⟨q, List.mem_cons_of_mem _ hq, hread⟩

theorem complete_of_outline (h : (outline cs).tree mode = .ok t) : t.Complete := by
  -- A part is shorter than the text that it was cut from.
  induction hn : cs.length using Nat.strongRecOn generalizing cs t with
  | ind n ih =>
    by_cases hne : strip cs = []
    · rw [outline_tree_blank hne] at h
      exact complete_of_fallback h
    by_cases hmany : 1 < (pieces (cutWord (strip cs)) (strip cs)).length
    · rw [outline_joined hne hmany, Outline.tree] at h
      split at h
      · cases h
      · obtain ⟨ts, htrees, rfl⟩ := map_eq_ok h
        apply complete_join (keywordOf_cutOperator (strip cs)).1
        intro t ht
        obtain ⟨p, hp, hread⟩ := exists_part_of_trees htrees t ht
        have hshort := length_lt_of_mem_pieces hp hmany
        have hstrip := length_strip_le cs
        have hstrip' := length_strip_le p
        unfold part at hread
        split at hread
        · exact ih (strip p).length (by omega) hread rfl
        · exact complete_of_clause hread
    · rw [outline_whole hne hmany] at h
      exact complete_of_clause h

theorem complete_of_parse {text : String} (h : parse mode text = .ok t) : t.Complete := complete_of_outline h

end Formula

namespace Tree

/-- The trees that come out of any sequence of operations on trees, for all inputs of these
operations and for all words that a source of randomness may hand out. -/
inductive Made : Tree → Prop
  | checked {k cs t} : (∀ c ∈ cs, Made c) → make k cs = .ok t → Made t
  | indicatorDefault {name t} : Tree.indicatorDefault name = .ok t → Made t
  | constant (x : Float) : Made (Tree.constant x)
  | series (s : Series) : Made (Tree.series s)
  | both {t u} : Made t → Made u → Made (t.both u)
  | either {t u} : Made t → Made u → Made (t.either u)
  | negation {t} : Made t → Made t.negation
  | compare (cmp : Comparator) {t u} : Made t → Made u → Made (compare cmp t u)
  | withKind {t k u} : Made t → t.withKind k = .ok u → Made u
  | reversed {t} : Made t → Made t.reversed
  | part {t path u} : Made t → t.get? path = some u → Made u
  | replaced {t path new out old} : Made t → Made new → t.replaceAt? path new = some (out, old) → Made out
  | takenOut {t path new out old} : Made t → Made new → t.replaceAt? path new = some (out, old) → Made old
  | record {r : NodeRecord} {t} : r.toTree = .ok t → Made t
  | formula {mode text t} : Formula.parse mode text = .ok t → Made t
  | crossoverSignal (fast slow : Nat) : Made (Template.crossover fast slow)
  | oversoldSignal (n : Nat) (limit : Float) : Made (Template.oversold n limit)
  | breakoutSignal (n : Nat) : Made (Template.breakout n)
  | pullbackSignal (n : Nat) (limit : Float) (trend : Nat) : Made (Template.pullback n limit trend)
  | randomTerminal {σ} [WordSource σ] (g : Generator) {t} {w v : σ} : g.terminal.run w = some (t, v) → Made t
  | randomSeries {σ} [WordSource σ] (g : Generator) (w : σ) : Made (g.series.run w).1
  | randomConstant {σ} [WordSource σ] (g : Generator) {t} {w v : σ} : g.constant.run w = some (t, v) → Made t
  | randomIndicator {σ} [WordSource σ] (g : Generator) (w : σ) : Made (g.indicator.run w).1
  | randomTree {σ} [WordSource σ] (g : Generator) (budget : Nat) {t} {w v : σ} :
      (g.tree budget).run w = some (t, v) → Made t
  | randomNumeric {σ} [WordSource σ] (g : Generator) (budget : Nat) {t} {w v : σ} :
      (g.numeric budget).run w = some (t, v) → Made t
  | randomSignal {σ} [WordSource σ] (g : Generator) {t} {w v : σ} : g.signal.run w = some (t, v) → Made t
  | pointMutation {σ} [WordSource σ] (s : EvolutionSettings) {t} (w : σ) : Made t →
      Made ((t.pointMutation s).run w).1
  | subtreeMutation {σ} [WordSource σ] (s : EvolutionSettings) (g : Generator) {t u} {w v : σ} : Made t →
      (t.subtreeMutation s g).run w = some (some u, v) → Made u
  | crossoverFirst {σ} [WordSource σ] (s : EvolutionSettings) {t u a b} (w : σ) : Made t → Made u →
      ((crossover s t u).run w).1 = some (a, b) → Made a
  | crossoverSecond {σ} [WordSource σ] (s : EvolutionSettings) {t u a b} (w : σ) : Made t → Made u →
      ((crossover s t u).run w).1 = some (a, b) → Made b
  | transposition {σ} [WordSource σ] (s : EvolutionSettings) {t u} (w : σ) : Made t →
      ((t.transposition s).run w).1 = some u → Made u
  | rootTransposition {σ} [WordSource σ] (s : EvolutionSettings) {t u} (w : σ) : Made t →
      ((t.rootTransposition s).run w).1 = some u → Made u
  | inversion {σ} [WordSource σ] {t u} (w : σ) : Made t → (t.inversion.run w).1 = some u → Made u

variable {t : Tree}

theorem complete_of_indicatorDefault {name : String} (h : Tree.indicatorDefault name = .ok t) :
    t.Complete := by
  unfold Tree.indicatorDefault at h
  split at h
  · next i _ =>
    obtain rfl := Except.ok.inj h
    exact complete_leaf rfl ⟨i, rfl⟩
  · cases h

/-- Each operation keeps what its trees have. -/
theorem Made.complete (h : Made t) : t.Complete := by
  have hleaf {k : Kind} (hk : k.arity = 0) (hnamed : k.Named) : (node k []).Complete :=
    complete_leaf hk hnamed
  have hlevel {n : Nat} {i : Indicator} : (Template.withPeriod n i).Complete := hleaf rfl ⟨i, rfl⟩
  induction h with
  | checked _ hmake ih => exact complete_of_make ih hmake
  | indicatorDefault h => exact complete_of_indicatorDefault h
  | constant => exact hleaf rfl trivial
  | series => exact hleaf rfl trivial
  | both _ _ ht hu => exact complete_pair rfl trivial ht hu
  | either _ _ ht hu => exact complete_pair rfl trivial ht hu
  | negation _ ht => exact complete_iff.mpr ⟨rfl, trivial, by simpa using ht⟩
  | compare _ _ _ ht hu => exact complete_pair rfl trivial ht hu
  | withKind _ hmake ht => exact complete_of_make ht.children hmake
  | reversed _ ht => exact ht.reversed
  | part _ hget ht => exact ht.get? hget
  | replaced _ _ hreplace ht hnew => exact (ht.replaceAt? hnew hreplace).1
  | takenOut _ _ hreplace ht hnew => exact (ht.replaceAt? hnew hreplace).2
  | record h => exact NodeRecord.complete_of_toTree h
  | formula h => exact Formula.complete_of_parse h
  | crossoverSignal => exact complete_pair rfl trivial hlevel hlevel
  | oversoldSignal => exact complete_pair rfl trivial hlevel (hleaf rfl trivial)
  | breakoutSignal => exact complete_pair rfl trivial (hleaf rfl trivial) (hleaf rfl ⟨.upperBand, rfl⟩)
  | pullbackSignal =>
    exact complete_pair rfl trivial (complete_pair rfl trivial hlevel (hleaf rfl trivial))
      (complete_pair rfl trivial (hleaf rfl trivial) hlevel)
  | randomTerminal g hrun => exact Generator.terminal_complete.of_run hrun
  | randomSeries g w => exact Generator.series_complete.holds w
  | randomConstant g hrun => exact Generator.constant_complete.of_run hrun
  | randomIndicator g w => exact Generator.indicator_complete.holds w
  | randomTree g budget hrun => exact (Generator.tree_complete budget).of_run hrun
  | randomNumeric g budget hrun => exact (Generator.numeric_complete budget).of_run hrun
  | randomSignal g hrun => exact Generator.signal_complete.of_run hrun
  | pointMutation s w _ ht => exact (ht.pointMutation s).holds w
  | subtreeMutation s g _ hrun ht => exact (ht.subtreeMutation s g).of_run hrun _ rfl
  | crossoverFirst s w _ _ hout ht hu => exact ((ht.crossover hu s).holds w _ hout).1
  | crossoverSecond s w _ _ hout ht hu => exact ((ht.crossover hu s).holds w _ hout).2
  | transposition s w _ hu ht => exact (ht.transposition s).holds w _ hu
  | rootTransposition s w _ hu ht => exact (ht.rootTransposition s).holds w _ hu
  | inversion w _ hu ht => exact ht.inversion.holds w _ hu

/-- Every node of a tree that was made has as many children as its kind takes, and the name that an
indicator is stored by is one of the catalogue, under which it is found and recorded. So evaluation and
formulas find every child and every indicator that they ask for. -/
theorem made_trees_complete (h : Made t) :
    (∀ u ∈ t.preorder, u.children.length = u.kind.arity ∧
      ∀ name params, u.kind = .indicator name params → ∃ i ∈ Indicator.all, i.mnemonic = name ∧
        Indicator.find? name.toList = some i ∧ u.toRecord.name = some name) ∧
    (∀ c, t.value? c = some (t.value c)) ∧ t.text? = some t.text := by
  have hcomplete := h.complete
  refine ⟨?_, hcomplete.value?_eq, hcomplete.text?_eq⟩
  intro u hu
  refine ⟨full_iff_preorder.mp hcomplete.full u hu, ?_⟩
  intro name params hkind
  have hnamed := hcomplete.named u hu
  rw [hkind] at hnamed
  obtain ⟨i, rfl⟩ := hnamed
  refine ⟨i, by cases i <;> decide, rfl, Indicator.find?_mnemonic i, ?_⟩
  cases u with
  | node k cs =>
    obtain rfl : k = .indicator i.mnemonic params := hkind
    rfl

/-- A template and a negation, joined, reversed and mutated. -/
theorem made_trees_complete_mutated :
    let t := ((Template.pullback 14 30 50).both (series .close).negation).reversed
    let u := ((t.pointMutation .default).run (⟨[], 7⟩ : ListedWords)).1
    Made u ∧ (∀ v ∈ u.preorder, v.children.length = v.kind.arity ∧
      ∀ name params, v.kind = .indicator name params → ∃ i ∈ Indicator.all, i.mnemonic = name ∧
        Indicator.find? name.toList = some i ∧ v.toRecord.name = some name) ∧
    (∀ c, u.value? c = some (u.value c)) ∧ u.text? = some u.text := by
  intro t u
  have hparts : Made ((Template.pullback 14 30 50).both (series .close).negation) :=
    .both (.pullbackSignal 14 30 50) (.negation (.series .close))
  have hmade := Made.pointMutation .default (⟨[], 7⟩ : ListedWords) (Made.reversed hparts)
  exact ⟨hmade, made_trees_complete hmade⟩

end Tree
end SignalEvolution
