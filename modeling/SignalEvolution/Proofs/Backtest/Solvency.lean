import SignalEvolution.Proofs.Backtest.Balance

/-! # Solvent accounts

Without rounding and at positive prices, an account falls below zero only by costs that exceed what
a trade moves. The check of the settings lets such costs pass: a commission above 1 makes the
first purchase negative, and a slippage above 1 the first sale. Under all other settings that
pass it, and over signals that never hold, an account stays at or above zero.
-/
namespace SignalEvolution

namespace Account

/-- Nothing about the account is below zero. -/
structure Solvent (a : Account Rat) : Prop where
  size : ∀ p ∈ a.position, 0 ≤ p.size
  cash : 0 ≤ a.cash
  equity : ∀ x ∈ a.equity, 0 ≤ x

/-- Costs that are no more than what a trade moves, or that take all of it at once. -/
def Bearable (commission slippage : Rat) : Prop := commission = 1 ∨ commission < 1 ∧ slippage ≤ 1

variable {a : Account Rat} {p : Position Rat} {bar : Nat} {price size : Rat}

theorem proceeds_nonneg (hcosts : Bearable a.commission a.slippage) (hprice : 0 < price) (hsize : 0 ≤ size) :
    0 ≤ a.proceeds price size := by
  rw [proceeds_eq, exitFill_eq]
  rcases hcosts with hall | ⟨hcommission, hslippage⟩
  · rw [hall, sub_self, mul_zero]
  · have hfill : 0 ≤ price * (1 - a.slippage) := mul_nonneg hprice.le (sub_nonneg.mpr hslippage)
    exact mul_nonneg (mul_nonneg hfill hsize) (sub_nonneg.mpr hcommission.le)

theorem proceeds_neg (hcommission : a.commission < 1) (hslippage : 1 < a.slippage) (hprice : 0 < price)
    (hsize : 0 < size) : a.proceeds price size < 0 := by
  rw [proceeds_eq, exitFill_eq]
  have hfill : price * (1 - a.slippage) < 0 := mul_neg_of_pos_of_neg hprice (sub_neg.mpr hslippage)
  exact mul_neg_of_neg_of_pos (mul_neg_of_neg_of_pos hfill hsize) (sub_pos.mpr hcommission)

theorem Solvent.mark (h : a.Solvent) (hprice : 0 < price) : (a.mark price).Solvent := by
  have hworth : 0 ≤ a.worth price := by
    unfold worth
    split
    · next p hp => exact add_nonneg h.cash (mul_nonneg (h.size p hp) hprice.le)
    · exact add_nonneg h.cash le_rfl
  constructor
  case size => exact h.size
  case cash => exact h.cash
  case equity =>
    have hequity : (a.mark price).equity = a.equity ++ [a.worth price] := List.reverse_cons
    rw [hequity]
    intro x hx
    rcases List.mem_append.mp hx with hx | hx
    · exact h.equity x hx
    · rw [List.mem_singleton.mp hx]
      exact hworth

theorem Solvent.buy (h : a.Solvent) (hcommission : a.commission ≤ 1) (hbuys : ¬ a.Refuses price) (bar : Nat) :
    (a.bought bar price).Solvent := by
  constructor
  case size =>
    intro p hp
    rw [position_bought] at hp
    obtain rfl := Option.some.inj hp
    have hfill := entryFill_pos_of_not_refuses hbuys
    exact div_nonneg (mul_nonneg h.cash (sub_nonneg.mpr hcommission)) hfill.le
  case cash => exact le_refl (0 : Rat)
  case equity => exact h.equity

theorem Solvent.sell (h : a.Solvent) (hcosts : Bearable a.commission a.slippage) (hsome : a.position = some p)
    (hprice : 0 < price) (bar : Nat) (reason : ExitReason) : (a.sold p bar price reason).Solvent := by
  constructor
  case size => rintro q ⟨⟩
  case cash => exact add_nonneg h.cash (proceeds_nonneg hcosts hprice (h.size p hsome))
  case equity => exact h.equity

theorem Solvent.step {signal : Bool} (h : a.Solvent) (hprice : 0 < price)
    (hcosts : Bearable a.commission a.slippage ∨ a.position = none ∧ signal = false) :
    (a.step bar signal price).Solvent := by
  obtain ⟨moved, hmoves, heq⟩ := a.step_cases bar signal price
  rw [heq]
  apply Solvent.mark _ hprice
  cases hmoves with
  | waits _ => exact h
  | refused _ _ => exact h
  | buys _ hbuys =>
    rcases hcosts with hcosts | ⟨-, hfalse⟩
    · have hcommission : a.commission ≤ 1 := by
        rcases hcosts with hall | ⟨hless, -⟩
        · exact hall.le
        · exact hless.le
      exact h.buy hcommission hbuys bar
    · cases hfalse
  | holds _ => exact h
  | sells hsome =>
    rcases hcosts with hcosts | ⟨hnone, -⟩
    · exact h.sell hcosts hsome hprice bar .signal
    · cases hsome.symm.trans hnone

theorem Solvent.finish (h : a.Solvent) (hprice : 0 < price)
    (hcosts : Bearable a.commission a.slippage ∨ a.position = none) : (a.finish bar price).Solvent := by
  have hsold : (a.sell bar price .endOfData).Solvent := by
    rcases a.sell_cases bar price .endOfData with ⟨-, heq⟩ | ⟨p, hsome, heq⟩
    · rwa [heq]
    · rw [heq]
      rcases hcosts with hcosts | hnone
      · exact h.sell hcosts hsome hprice bar .endOfData
      · cases hsome.symm.trans hnone
  constructor
  case size => exact hsold.size
  case cash => exact hsold.cash
  case equity =>
    -- Only the last mark is new, and it is the cash.
    intro x hx
    have hx : x ∈ (a.finish bar price).marks := List.mem_reverse.mp hx
    unfold Account.finish at hx
    dsimp only at hx
    split at hx
    · cases hx
    · next last marks hmarks =>
      rcases List.mem_cons.mp hx with rfl | hx
      · exact hsold.cash
      · apply hsold.equity
        change x ∈ (a.sell bar price .endOfData).marks.reverse
        rw [hmarks]
        exact List.mem_reverse.mpr (List.mem_cons_of_mem _ hx)

theorem cash_finish_of_some (h : a.position = some p) :
    (a.finish bar price).cash = a.cash + a.proceeds price p.size := by
  change (a.sell bar price .endOfData).cash = _
  rw [sell_of_some h, sold]

/-- A solvent account keeps what it holds if a sale would cost more than it brings. -/
theorem position_step_of_solvent {signal : Bool} (hsome : a.position = some p) (hsize : 0 < p.size)
    (hcash : a.cash = 0) (hcommission : a.commission < 1) (hslippage : 1 < a.slippage) (hprice : 0 < price)
    (h : (a.step bar signal price).Solvent) : (a.step bar signal price).position = some p := by
  obtain ⟨moved, hmoves, heq⟩ := a.step_cases bar signal price
  rw [heq] at h ⊢
  cases hmoves with
  | waits hnone => cases hsome.symm.trans hnone
  | refused hnone _ => cases hsome.symm.trans hnone
  | buys hnone _ => cases hsome.symm.trans hnone
  | holds _ => exact hsome
  | sells hsome' =>
    obtain rfl := Option.some.inj (hsome.symm.trans hsome')
    have hbrings := h.cash
    change 0 ≤ a.cash + a.proceeds price p.size at hbrings
    rw [hcash, zero_add] at hbrings
    exact absurd (proceeds_neg hcommission hslippage hprice hsize) (not_lt.mpr hbrings)

end Account

namespace BacktestSettings

open Account (Bearable)

/-- Exact settings that pass their check. -/
structure Valid (s : BacktestSettings Rat) : Prop where
  initialCapital : 0 < s.initialCapital
  commission : 0 ≤ s.commission
  slippage : 0 ≤ s.slippage
  periodsPerYear : 0 < s.periodsPerYear

theorem check_eq_ok_iff {s : BacktestSettings Rat} : s.check = .ok () ↔ s.Valid := by
  unfold check
  constructor
  · intro h
    split_ifs at h with hcapital hcosts hperiods
    obtain ⟨hcommission, hslippage⟩ := not_or.mp hcosts
    exact ⟨not_le.mp hcapital, not_lt.mp hcommission, not_lt.mp hslippage, not_le.mp hperiods⟩
  · rintro ⟨hcapital, hcommission, hslippage, hperiods⟩
    rw [if_neg (not_le.mpr hcapital), if_neg (not_or.mpr ⟨not_lt.mpr hcommission, not_lt.mpr hslippage⟩),
      if_neg (not_le.mpr hperiods)]

/-- Nothing falls below zero after any of the bars, nor when the account has been sold out. -/
structure StaysSolvent (s : BacktestSettings Rat) (closes : List Rat) (signals : List Bool) : Prop where
  during : ∀ n ≤ closes.length, (s.accountAfter closes signals n).Solvent
  final : (s.trade closes signals).Solvent

variable {s : BacktestSettings Rat} {closes : List Rat} {signals : List Bool} {n k : Nat}

theorem Valid.solvent_account (h : s.Valid) : s.account.Solvent := by
  constructor
  case size => rintro p ⟨⟩
  case cash => exact h.initialCapital.le
  case equity =>
    intro x hx
    obtain rfl : x = s.initialCapital := List.mem_singleton.mp hx
    exact h.initialCapital.le

theorem exists_first_rise (htrue : true ∈ signals) :
    ∃ k : Nat, signals[k]? = some true ∧ ∀ bar < k, signals[bar]? ≠ some true := by
  have hrises : ∃ bar, signals[bar]? = some true := List.mem_iff_getElem?.mp htrue
  refine ⟨Nat.find hrises, Nat.find_spec hrises, ?_⟩
  intro bar hbar
  exact Nat.find_min hrises hbar

section

variable (hlength : closes.length = signals.length)
include hlength

theorem accountAfter_of_quiet (hn : n ≤ closes.length) (hquiet : ∀ bar < n, signals[bar]? ≠ some true) :
    (s.accountAfter closes signals n).position = none ∧
      (s.accountAfter closes signals n).cash = s.initialCapital := by
  induction n with
  | zero => exact ⟨rfl, rfl⟩
  | succ n ih =>
    obtain ⟨hnone, hcash⟩ := ih (by omega) fun bar hbar => hquiet bar (by omega)
    have hprice : closes[n]? = some closes[n] := List.getElem?_eq_getElem hn
    have hsignal : signals[n]? = some false := by
      have hlt : n < signals.length := by omega
      have hnot := hquiet n (Nat.lt_succ_self n)
      rw [List.getElem?_eq_getElem hlt] at hnot ⊢
      simpa using hnot
    rw [s.accountAfter_succ hprice hsignal]
    obtain ⟨moved, hmoves, heq⟩ := (s.accountAfter closes signals n).step_cases n false closes[n]
    rw [heq]
    cases hmoves with
    | waits _ => exact ⟨hnone, hcash⟩
    | sells hsome => cases hsome.symm.trans hnone

/-- Where the signal holds for the first time the whole capital buys units, and the commission takes its
share of them. -/
theorem exists_first_position (hvalid : s.Valid) (hpositive : ∀ price ∈ closes, 0 < price)
    (htrue : true ∈ signals) :
    ∃ k < closes.length, ∃ p, (s.accountAfter closes signals (k + 1)).position = some p ∧
      ∃ units, 0 < units ∧ p.size = units * (1 - s.commission) := by
  obtain ⟨k, hfirst, hquiet⟩ := exists_first_rise htrue
  have hk : k < closes.length := by
    obtain ⟨hlt, -⟩ := List.getElem?_eq_some_iff.mp hfirst
    omega
  -- Up to there the account has its capital in cash, and so nothing refuses the purchase.
  obtain ⟨hnone, hcash⟩ := s.accountAfter_of_quiet hlength hk.le hquiet
  have hfill : 0 < closes[k] * (1 + s.slippage) :=
    mul_pos (hpositive _ (List.getElem_mem _)) (add_pos_of_pos_of_nonneg one_pos hvalid.slippage)
  refine ⟨k, hk, ?_⟩
  rw [s.accountAfter_succ (List.getElem?_eq_getElem hk) hfirst]
  obtain ⟨moved, hmoves, heq⟩ := (s.accountAfter closes signals k).step_cases k true closes[k]
  rw [heq]
  cases hmoves with
  | refused _ hrefuses =>
    rw [Account.Refuses, Account.entryFill_eq, slippage_accountAfter, hcash] at hrefuses
    rcases hrefuses with hunfilled | hfinite | hpoor
    · exact absurd hunfilled (not_le.mpr hfill)
    · cases hfinite
    · exact absurd hpoor (not_le.mpr hvalid.initialCapital)
  | buys _ _ =>
    refine ⟨_, Account.position_bought _ k closes[k], s.initialCapital / (closes[k] * (1 + s.slippage)),
      div_pos hvalid.initialCapital hfill, ?_⟩
    rw [Account.purchasable, hcash, Account.entryFill_eq, commission_accountAfter, slippage_accountAfter,
      div_mul_eq_mul_div]
  | holds hsome => cases hsome.symm.trans hnone

/-- A position whose sale would cost more than it brings is held on for as long as the account stays
solvent. -/
theorem position_accountAfter_of_solvent {p : Position Rat}
    (hsolvent : ∀ n ≤ closes.length, (s.accountAfter closes signals n).Solvent)
    (hpositive : ∀ price ∈ closes, 0 < price) (hcommission : s.commission < 1) (hslippage : 1 < s.slippage)
    (hsize : 0 < p.size) (hsome : (s.accountAfter closes signals k).position = some p) (hk : k ≤ n)
    (hn : n ≤ closes.length) : (s.accountAfter closes signals n).position = some p := by
  induction n, hk using Nat.le_induction with
  | base => exact hsome
  | succ n _ ih =>
    have hheld := ih (by omega)
    have hprice : closes[n]? = some closes[n] := List.getElem?_eq_getElem hn
    have hsignal : signals[n]? = some signals[n] := List.getElem?_eq_getElem (by omega)
    have hcash := (s.follows_accountAfter hlength n (by omega)).invested p hheld
    have hafter := hsolvent (n + 1) hn
    rw [s.accountAfter_succ hprice hsignal] at hafter ⊢
    exact Account.position_step_of_solvent hheld hsize hcash (by rwa [commission_accountAfter])
      (by rwa [slippage_accountAfter]) (hpositive _ (List.getElem_mem _)) hafter

theorem StaysSolvent.of_bearable (hvalid : s.Valid) (hpositive : ∀ price ∈ closes, 0 < price)
    (h : true ∉ signals ∨ Bearable s.commission s.slippage) : s.StaysSolvent closes signals := by
  have hidle : true ∉ signals → ∀ n ≤ closes.length, (s.accountAfter closes signals n).position = none := by
    intro hquiet n hn
    refine (s.accountAfter_of_quiet hlength hn ?_).1
    intro bar _ htrue
    exact hquiet (List.mem_of_getElem? htrue)
  have hduring : ∀ n ≤ closes.length, (s.accountAfter closes signals n).Solvent := by
    apply s.accountAfter_induction (P := fun _ a => a.Solvent) hlength hvalid.solvent_account
    intro n price signal hprice hsignal hsolvent
    obtain ⟨hn, -⟩ := List.getElem?_eq_some_iff.mp hprice
    apply hsolvent.step (hpositive price (List.mem_of_getElem? hprice))
    rcases h with hquiet | hbearable
    · refine .inr ⟨hidle hquiet n hn.le, ?_⟩
      cases signal with
      | false => rfl
      | true => exact absurd (List.mem_of_getElem? hsignal) hquiet
    · left
      rwa [commission_accountAfter, slippage_accountAfter]
  have hwalked := hduring closes.length le_rfl
  have hwalked' := s.accountAfter_length closes signals
  refine ⟨hduring, ?_⟩
  by_cases hne : closes = []
  · rw [hwalked', hne] at hwalked
    rwa [hne]
  · rw [s.trade_of_ne_nil signals hne, ← hwalked']
    apply hwalked.finish (hpositive _ (List.getLast_mem hne))
    rcases h with hquiet | hbearable
    · exact .inr (hidle hquiet closes.length le_rfl)
    · left
      rwa [commission_accountAfter, slippage_accountAfter]

/-- What is held to the end has to be sold there, and the sale must bring something. -/
theorem StaysSolvent.slippage_le {p : Position Rat} (h : s.StaysSolvent closes signals)
    (hpositive : ∀ price ∈ closes, 0 < price) (hk : k < closes.length)
    (hsome : (s.accountAfter closes signals (k + 1)).position = some p) (hsize : 0 < p.size)
    (hcommission : s.commission < 1) : s.slippage ≤ 1 := by
  by_contra hgreater
  have hslippage : 1 < s.slippage := not_le.mp hgreater
  have hheld := s.position_accountAfter_of_solvent hlength h.during hpositive hcommission hslippage hsize
    hsome hk le_rfl
  have hcash := (s.follows_accountAfter hlength closes.length le_rfl).invested p hheld
  have hne : closes ≠ [] := List.ne_nil_of_length_pos (Nat.zero_lt_of_lt hk)
  have hfinal := h.final.cash
  rw [s.trade_of_ne_nil signals hne, ← s.accountAfter_length, Account.cash_finish_of_some hheld, hcash,
    zero_add] at hfinal
  refine absurd (Account.proceeds_neg ?_ ?_ (hpositive _ (List.getLast_mem hne)) hsize) (not_lt.mpr hfinal)
  · rwa [commission_accountAfter]
  · rwa [slippage_accountAfter]

theorem StaysSolvent.bearable (h : s.StaysSolvent closes signals) (hvalid : s.Valid)
    (hpositive : ∀ price ∈ closes, 0 < price) (htrue : true ∈ signals) :
    Bearable s.commission s.slippage := by
  obtain ⟨k, hk, p, hsome, units, hunits, hsize⟩ := s.exists_first_position hlength hvalid hpositive htrue
  have hcommission : s.commission ≤ 1 := by
    have hnonneg := (h.during (k + 1) hk).size p hsome
    rw [hsize] at hnonneg
    exact sub_nonneg.mp (nonneg_of_mul_nonneg_right hnonneg hunits)
  rcases hcommission.eq_or_lt with hall | hless
  · exact .inl hall
  · have hsize : 0 < p.size := by
      rw [hsize]
      exact mul_pos hunits (sub_pos.mpr hless)
    exact .inr ⟨hless, h.slippage_le hlength hpositive hk hsome hsize hless⟩

/-- Under settings that pass their check, and at positive prices, an account stays solvent if and only if
it never trades or its costs can be borne. -/
theorem staysSolvent_iff (hcheck : s.check = .ok ()) (hpositive : ∀ price ∈ closes, 0 < price) :
    s.StaysSolvent closes signals ↔
      true ∉ signals ∨ s.commission = 1 ∨ s.commission < 1 ∧ s.slippage ≤ 1 := by
  have hvalid := check_eq_ok_iff.mp hcheck
  constructor
  · intro hsolvent
    by_cases htrue : true ∈ signals
    · exact .inr (hsolvent.bearable hlength hvalid hpositive htrue)
    · exact .inl htrue
  · exact .of_bearable hlength hvalid hpositive

end

/-- A rise and a fall at the default costs. -/
theorem staysSolvent_iff_default_costs :
    let s : BacktestSettings Rat := ⟨10000, 1 / 1000, 1 / 2000, 252, 256, -1⟩
    let closes : List Rat := [10, 12, 11]
    let signals := [true, true, false]
    closes.length = signals.length ∧ s.check = .ok () ∧ (∀ price ∈ closes, 0 < price) ∧
      (s.StaysSolvent closes signals ↔
        true ∉ signals ∨ s.commission = 1 ∨ s.commission < 1 ∧ s.slippage ≤ 1) := by
  intro s closes signals
  have hcheck : s.check = .ok () :=
    check_eq_ok_iff.mpr ⟨by norm_num [s], by norm_num [s], by norm_num [s], by norm_num [s]⟩
  have hpositive : ∀ price ∈ closes, 0 < price := by decide
  exact ⟨rfl, hcheck, hpositive, staysSolvent_iff rfl hcheck hpositive⟩

/-- A commission of one and a half passes the check, and the first purchase under it is of a negative size. -/
theorem not_staysSolvent_high_commission :
    let s : BacktestSettings Rat := ⟨10000, 3 / 2, 0, 252, 256, -1⟩
    let closes : List Rat := [10, 10]
    let signals := (Tree.compare .greater (.series .close) (.constant 0)).signals 256
      [.flat 10 1000, .flat 10 1000]
    s.check = .ok () ∧ (∀ price ∈ closes, 0 < price) ∧ ¬ s.StaysSolvent closes signals := by
  intro s closes signals
  have hvalid : s.Valid := ⟨by norm_num [s], by norm_num [s], by norm_num [s], by norm_num [s]⟩
  have hpositive : ∀ price ∈ closes, 0 < price := by decide
  have hlength : closes.length = signals.length := rfl
  have htrue : true ∈ signals := List.mem_cons_self
  refine ⟨check_eq_ok_iff.mpr hvalid, hpositive, ?_⟩
  intro hsolvent
  obtain ⟨k, hk, p, hsome, units, hunits, hsize⟩ := s.exists_first_position hlength hvalid hpositive htrue
  have hnonneg : 0 ≤ p.size := (hsolvent.during (k + 1) hk).size p hsome
  have hneg : p.size < 0 := by
    rw [hsize]
    exact mul_neg_of_pos_of_neg hunits (by norm_num [s])
  exact absurd hneg (not_lt.mpr hnonneg)

end BacktestSettings
end SignalEvolution
