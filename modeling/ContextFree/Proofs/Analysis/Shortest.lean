import ContextFree.Analysis.Shortest
import ContextFree.Proofs.Analysis.Rounds
import ContextFree.Proofs.Derivation.Trees

namespace ContextFree

namespace Debt

theorem add?_infinite_finite (tokens : Int) :
    add? .infinite (.finite tokens) = if fits tokens then some .infinite else none := rfl

theorem add?_finite_infinite (tokens : Int) :
    add? (.finite tokens) .infinite = if fits tokens then some .infinite else none := rfl

theorem fits_neg (tokens : Int) : fits (-tokens) = fits tokens := by
  simp [fits]

theorem limit_le_of_not_fits {n : Nat} (h : ¬ fits n = true) : limit ≤ n := by
  simp only [fits, decide_eq_true_eq] at h
  omega

theorem not_fits_of_limit_le {n : Nat} (h : limit ≤ n) : ¬ fits n = true := by
  simp only [fits, decide_eq_true_eq]
  omega

end Debt

namespace Lengths

-- How many tokens a symbol takes at least, by the lengths.
def size? (lengths : Lengths) : Symbol → Option Nat
  | .terminal _ => some 1
  | .nonterminal name => lengths.of name

-- How many tokens the symbols take together. None if one of them has no sentence.
def sum? (lengths : Lengths) : List Symbol → Option Nat
  | [] => some 0
  | s :: rest => do return (← lengths.size? s) + (← lengths.sum? rest)

theorem sum?_cons_eq_some {lengths : Lengths} {s : Symbol} {rest : List Symbol} {n : Nat} :
    lengths.sum? (s :: rest) = some n ↔
      ∃ a b, lengths.size? s = some a ∧ lengths.sum? rest = some b ∧ n = a + b := by
  cases ha : lengths.size? s <;> cases hb : lengths.sum? rest <;> simp [sum?, ha, hb, eq_comm]

theorem sum?_append_eq_some {lengths : Lengths} {symbols others : List Symbol} {n : Nat} :
    lengths.sum? (symbols ++ others) = some n ↔
      ∃ a b, lengths.sum? symbols = some a ∧ lengths.sum? others = some b ∧ n = a + b := by
  induction symbols generalizing n with
  | nil => simp [sum?]
  | cons s rest ih =>
      simp only [List.cons_append, sum?_cons_eq_some, ih]
      constructor
      · rintro ⟨a, _, ha, ⟨b, d, hb, hd, rfl⟩, rfl⟩
        exact ⟨a + b, d, ⟨a, b, ha, hb, rfl⟩, hd, by omega⟩
      · rintro ⟨_, d, ⟨a, b, ha, hb, rfl⟩, hd, rfl⟩
        exact ⟨a, b + d, ha, ⟨b, d, hb, hd, rfl⟩, by omega⟩

theorem ofSymbol_of_size? {lengths : Lengths} {s : Symbol} {n : Nat}
    (h : lengths.size? s = some n) : Debt.ofSymbol lengths.toInt s = .finite n := by
  cases s with
  | terminal name =>
      obtain rfl := Option.some.inj h
      rfl
  | nonterminal name =>
      have : lengths.of name = some n := h
      simp [Debt.ofSymbol, Debt.ofName, toInt, this]

theorem ofSymbol_of_size?_none {lengths : Lengths} {s : Symbol} (h : lengths.size? s = none) :
    Debt.ofSymbol lengths.toInt s = .infinite := by
  cases s with
  | terminal name => simp [size?] at h
  | nonterminal name =>
      have : lengths.of name = none := h
      simp [Debt.ofSymbol, Debt.ofName, toInt, this]

theorem foldlM_add_finite {lengths : Lengths} {symbols : List Symbol} {n : Nat}
    (h : lengths.sum? symbols = some n) (owed : Int) :
    symbols.foldlM (fun (owed : Debt) s => owed.add? (Debt.ofSymbol lengths.toInt s))
      (.finite owed) = some (.finite (owed + n)) := by
  induction symbols generalizing n owed with
  | nil =>
      obtain rfl := Option.some.inj h
      simp
  | cons s rest ih =>
      obtain ⟨a, b, ha, hb, rfl⟩ := sum?_cons_eq_some.mp h
      rw [List.foldlM_cons, ofSymbol_of_size? ha, Debt.add?, Option.bind_eq_bind, Option.bind_some,
        ih hb]
      congr 2
      omega

theorem foldlM_add_infinite {lengths : Lengths} {symbols : List Symbol} {debt : Debt}
    (h : symbols.foldlM (fun owed s => owed.add? (Debt.ofSymbol lengths.toInt s)) .infinite =
      some debt) : debt = .infinite := by
  induction symbols with
  | nil => exact (Option.some.inj h).symm
  | cons s rest ih =>
      rw [List.foldlM_cons] at h
      obtain ⟨middle, hm, hrest⟩ := Option.bind_eq_some_iff.mp h
      have : middle = .infinite := by
        cases hs : lengths.size? s with
        | none =>
            rw [ofSymbol_of_size?_none hs] at hm
            exact (Option.some.inj hm).symm
        | some n =>
            rw [ofSymbol_of_size? hs] at hm
            simp only [Debt.add?, Option.ite_none_right_eq_some, Option.some.injEq] at hm
            exact hm.2.symm
      exact ih (this ▸ hrest)

-- The debt of a sequence is the sum of the lengths.
theorem ofSequence?_of_sum? {lengths : Lengths} {symbols : List Symbol} {n : Nat}
    (h : lengths.sum? symbols = some n) :
    Debt.ofSequence? lengths.toInt symbols = some (.finite n) := by
  rw [Debt.ofSequence?, foldlM_add_finite h, Int.zero_add]

theorem foldlM_add_none {lengths : Lengths} {symbols : List Symbol} {debt : Debt}
    (h : lengths.sum? symbols = none) (owed : Int)
    (hdebt : symbols.foldlM (fun owed s => owed.add? (Debt.ofSymbol lengths.toInt s))
      (.finite owed) = some debt) : debt = .infinite := by
  induction symbols generalizing owed with
  | nil => simp [sum?] at h
  | cons s rest ih =>
      rw [List.foldlM_cons] at hdebt
      cases hs : lengths.size? s with
      | none =>
          obtain ⟨middle, hm, hrest⟩ := Option.bind_eq_some_iff.mp hdebt
          rw [ofSymbol_of_size?_none hs] at hm
          simp only [Debt.add?, Option.ite_none_right_eq_some, Option.some.injEq] at hm
          exact foldlM_add_infinite (hm.2 ▸ hrest)
      | some n =>
          rw [ofSymbol_of_size? hs, Debt.add?, Option.bind_eq_bind, Option.bind_some] at hdebt
          refine ih ?_ _ hdebt
          cases hrest : lengths.sum? rest with
          | none => rfl
          | some m => simp [sum?, hs, hrest] at h

-- It is infinite if a symbol has no sentence, if it has a value at all.
theorem ofSequence?_of_sum?_none {lengths : Lengths} {symbols : List Symbol} {debt : Debt}
    (h : lengths.sum? symbols = none)
    (hdebt : Debt.ofSequence? lengths.toInt symbols = some debt) : debt = .infinite :=
  foldlM_add_none h 0 hdebt

-- No production shortens a length any more, and the debts of all right sides have values.
structure Settled (g : Grammar) (lengths : Lengths) : Prop where
  names_eq : lengths.names = g.sortedNonterminals
  improve?_eq : ∀ p ∈ g.productions, lengths.improve? p = some lengths

theorem not_ahead_self (lengths : Lengths) : ¬ Ahead lengths lengths := by
  unfold Ahead
  omega

theorem improve?_eq_of_fixed {productions : List Production} {lengths : Lengths}
    (h : productions.foldlM improve? lengths = some lengths) :
    ∀ p ∈ productions, lengths.improve? p = some lengths := by
  induction productions with
  | nil => simp
  | cons p rest ih =>
      rw [List.foldlM_cons] at h
      obtain ⟨middle, hp, hrest⟩ := Option.bind_eq_some_iff.mp h
      -- nothing that comes later makes up for getting ahead
      have hmiddle : middle = lengths := by
        rcases improve?_eq_or_ahead hp with heq | hahead
        · exact heq
        · rcases round?_eq_or_ahead hrest with heq | hahead'
          · exact heq.symm
          · exact absurd (hahead'.trans hahead) (not_ahead_self lengths)
      subst hmiddle
      simpa only [List.mem_cons, forall_eq_or_imp] using ⟨hp, ih hrest⟩

theorem names_improve? {lengths next : Lengths} {p : Production}
    (h : lengths.improve? p = some next) : next.names = lengths.names := by
  obtain ⟨debt, _, rfl⟩ := Option.map_eq_some_iff.mp h
  cases debt with
  | finite length => exact Family.names_change _ _ _
  | _ => rfl

-- What every improvement keeps holds of the lengths that are settled on, or else of lengths
-- at which the debt of a right side has no value.
theorem round?_cases {Holds : Lengths → Prop} {productions : List Production}
    (hkeeps : ∀ p ∈ productions, ∀ lengths next, Holds lengths → lengths.improve? p = some next →
      Holds next) {lengths : Lengths} (h : Holds lengths) :
    (∃ next, productions.foldlM improve? lengths = some next ∧ Holds next) ∨
    (productions.foldlM improve? lengths = none ∧ ∃ last, Holds last ∧ ∃ p ∈ productions,
      Debt.ofSequence? last.toInt p.rhs = none) := by
  induction productions generalizing lengths with
  | nil => exact .inl ⟨lengths, rfl, h⟩
  | cons p rest ih =>
      rw [List.foldlM_cons]
      cases hp : lengths.improve? p with
      | none => exact .inr ⟨rfl, lengths, h, p, by simp, Option.map_eq_none_iff.mp hp⟩
      | some next =>
          rcases ih (fun q hq => hkeeps q (by simp [hq])) (hkeeps p (by simp) _ _ h hp) with
            hnext | ⟨hnone, last, hlast, q, hq, hdebt⟩
          · exact .inl hnext
          · exact .inr ⟨hnone, last, hlast, q, by simp [hq], hdebt⟩

theorem settled?_eq (g : Grammar) (lengths : Lengths) :
    settled? g lengths = (round? g lengths).bind fun next =>
      if next = lengths then some lengths else settled? g next := by
  rw [settled?]
  split
  · rename_i hnone
    rw [hnone, Option.bind_none]
  · rename_i hnext
    rw [hnext, Option.bind_some]

theorem settled?_cases {g : Grammar} {Holds : Lengths → Prop}
    (hkeeps : ∀ p ∈ g.productions, ∀ lengths next, Holds lengths →
      lengths.improve? p = some next → Holds next) {lengths : Lengths} (h : Holds lengths) :
    (∃ final, settled? g lengths = some final ∧ Holds final ∧ round? g final = some final) ∨
    (settled? g lengths = none ∧ ∃ last, Holds last ∧ ∃ p ∈ g.productions,
      Debt.ofSequence? last.toInt p.rhs = none) := by
  have hround := round?_cases hkeeps h
  rw [← round?] at hround
  induction lengths using settled?.induct g with
  | case1 lengths hnone =>
      rcases hround with ⟨next, hnext, _⟩ | ⟨_, hlast⟩
      · simp [hnone] at hnext
      · exact .inr ⟨by rw [settled?_eq, hnone, Option.bind_none], hlast⟩
  | case2 lengths hfixed =>
      exact .inl ⟨lengths, by rw [settled?_eq, hfixed, Option.bind_some, if_pos rfl], h, hfixed⟩
  | case3 lengths next hnext hne ih =>
      rcases hround with ⟨other, hother, hholds⟩ | ⟨hnone, _⟩
      · obtain rfl := Option.some.inj (hnext.symm.trans hother)
        rw [settled?_eq, hnext, Option.bind_some, if_neg hne]
        exact ih hholds (round?_cases hkeeps hholds)
      · simp [hnone] at hnext

theorem names_initial (g : Grammar) : (initial g).names = g.sortedNonterminals := by
  simp [initial, Family.names, Function.comp_def]

theorem of_initial (g : Grammar) (name : String) : (initial g).of name = none := by
  rw [of, initial, Family.value?_map]
  split <;> rfl

theorem settled_shortest? {g : Grammar} {lengths : Lengths} (h : shortest? g = some lengths) :
    Settled g lengths := by
  rcases settled?_cases (fun p _ before next hnames hp => (names_improve? hp).trans hnames)
    (names_initial g) with ⟨final, hfinal, hnames, hround⟩ | ⟨hnone, _⟩
  · obtain rfl := Option.some.inj (hfinal.symm.trans h)
    exact ⟨hnames, improve?_eq_of_fixed hround⟩
  · simp [shortest?, hnone] at h

namespace Settled

variable {g : Grammar} {lengths : Lengths} (h : Settled g lengths)

include h

theorem exists_debt {p : Production} (mem : p ∈ g.productions) :
    ∃ debt, Debt.ofSequence? lengths.toInt p.rhs = some debt := by
  obtain ⟨debt, hdebt, _⟩ := Option.map_eq_some_iff.mp (h.improve?_eq p mem)
  exact ⟨debt, hdebt⟩

-- The left side is no longer than any of its right sides.
theorem le_of_production {p : Production} (mem : p ∈ g.productions) {n : Nat}
    (hn : lengths.sum? p.rhs = some n) : ∃ l, lengths.of p.lhs = some l ∧ l ≤ n := by
  have himprove := h.improve?_eq p mem
  simp only [improve?, ofSequence?_of_sum? hn, Option.map_some, Option.some.injEq,
    Int.toNat_natCast] at himprove
  have hname : p.lhs ∈ lengths.names := by
    rw [h.names_eq, Grammar.sortedNonterminals, Names.mem_sortedSet]
    exact g.lhs_mem p mem
  obtain ⟨value, hvalue⟩ := Family.exists_value?_of_mem hname
  have hself := Family.value?_change_self lengths p.lhs (shorter n)
  rw [himprove, hvalue, Option.map_some, Option.some.injEq] at hself
  cases value with
  | none => simp [shorter] at hself
  | some l =>
      refine ⟨l, by simp [of, hvalue], ?_⟩
      simp only [shorter, Option.some.injEq] at hself
      omega

omit h in
theorem sum?_le (ts : List Tree) (ih : ∀ t ∈ ts, t.Valid g →
      ∃ n, lengths.size? t.root = some n ∧ n ≤ t.yield.length)
    (hvalid : ∀ t ∈ ts, t.Valid g) :
    ∃ n, lengths.sum? (ts.map Tree.root) = some n ∧ n ≤ (Tree.yieldList ts).length := by
  induction ts with
  | nil => exact ⟨0, rfl, Nat.le_refl 0⟩
  | cons t ts ihr =>
      obtain ⟨a, ha, hale⟩ := ih t (by simp) (hvalid t (by simp))
      obtain ⟨b, hb, hble⟩ := ihr (fun u hu => ih u (by simp [hu])) fun u hu => hvalid u (by simp [hu])
      refine ⟨a + b, sum?_cons_eq_some.mpr ⟨a, b, ha, hb, rfl⟩, ?_⟩
      rw [Tree.yieldList_cons, List.length_append]
      omega

-- No tree spells less than the length of its root.
theorem size?_le {t : Tree} (hvalid : t.Valid g) :
    ∃ n, lengths.size? t.root = some n ∧ n ≤ t.yield.length := by
  induction t with
  | leaf terminal => exact ⟨1, rfl, Nat.le_refl 1⟩
  | node symbol children ih =>
      obtain ⟨mem, valid⟩ := (Tree.valid_node g symbol children).mp hvalid
      obtain ⟨n, hn, hle⟩ := sum?_le children ih valid
      obtain ⟨l, hl, hln⟩ := h.le_of_production mem hn
      exact ⟨l, hl, Nat.le_trans hln hle⟩

omit h in
-- An expansion changes what is owed by the difference of the lengths.
theorem replace?_of_sum? {name : String} {rhs rest : List Symbol} {m n : Nat}
    (hm : lengths.sum? rhs = some m) (hn : lengths.sum? (.nonterminal name :: rest) = some n) :
    ∃ k, lengths.sum? (rhs ++ rest) = some k ∧
      (Debt.finite n).replace? lengths.toInt name rhs = some (.finite k) := by
  obtain ⟨l, k, hl, hk, rfl⟩ := sum?_cons_eq_some.mp hn
  have hname : Debt.ofName lengths.toInt name = .finite l := ofSymbol_of_size? hl
  refine ⟨m + k, sum?_append_eq_some.mpr ⟨m, k, hm, hk, rfl⟩, ?_⟩
  simp only [Debt.replace?, ofSequence?_of_sum? hm, hname, Debt.sub?, Debt.neg, Debt.add?,
    Option.bind_eq_bind, Option.bind_some, Option.some.injEq, Debt.finite.injEq]
  omega

-- If a symbol has no sentence, an infinite debt comes in, and what it meets has to fit.
theorem replace?_of_sum?_none {p : Production} (mem : p ∈ g.productions) {rest : List Symbol}
    {n : Nat} (hnone : lengths.sum? p.rhs = none)
    (hn : lengths.sum? (.nonterminal p.lhs :: rest) = some n) :
    (Debt.finite n).replace? lengths.toInt p.lhs p.rhs = some .infinite ∨
      ((Debt.finite n).replace? lengths.toInt p.lhs p.rhs = none ∧ Debt.limit ≤ n) := by
  obtain ⟨l, k, hl, hk, hsplit⟩ := sum?_cons_eq_some.mp hn
  have hname : Debt.ofName lengths.toInt p.lhs = .finite l := ofSymbol_of_size? hl
  obtain ⟨debt, hdebt⟩ := h.exists_debt mem
  obtain rfl := ofSequence?_of_sum?_none hnone hdebt
  simp only [Debt.replace?, hdebt, hname, Debt.sub?, Debt.neg, Debt.add?_infinite_finite,
    Debt.fits_neg, Option.bind_eq_bind, Option.bind_some]
  by_cases hl : Debt.fits l = true
  · rw [if_pos hl, Option.bind_some, Debt.add?_finite_infinite]
    by_cases hn : Debt.fits n = true
    · exact .inl (if_pos hn)
    · exact .inr ⟨if_neg hn, Debt.limit_le_of_not_fits hn⟩
  · have hle := Debt.limit_le_of_not_fits hl
    exact .inr ⟨by rw [if_neg hl, Option.bind_none], by omega⟩

end Settled

end Lengths

end ContextFree
