import ContextFree.Proofs.Analysis.Shortest

namespace ContextFree

namespace Lengths

theorem foldlM_add_infinite_none {lengths : Lengths} {symbols : List Symbol} {most : Nat}
    (hmost : ∀ s ∈ symbols, ∀ n, lengths.size? s = some n → n ≤ most)
    (h : symbols.foldlM (fun owed s => Debt.add? owed (Debt.ofSymbol lengths.toInt s)) .infinite =
      none) : Debt.limit ≤ most := by
  induction symbols with
  | nil => simp at h
  | cons s rest ih =>
      have hrest := ih fun u hu => hmost u (by simp [hu])
      rw [List.foldlM_cons] at h
      cases hs : lengths.size? s with
      | none =>
          rw [ofSymbol_of_size?_none hs] at h
          exact hrest h
      | some n =>
          rw [ofSymbol_of_size? hs, Debt.add?_infinite_finite] at h
          split at h
          · exact hrest h
          · rename_i hfits
            exact Nat.le_trans (Debt.limit_le_of_not_fits hfits) (hmost s (by simp) n hs)

theorem foldlM_add_finite_none {lengths : Lengths} {symbols : List Symbol} {most : Nat}
    (hpos : 0 < most) (hmost : ∀ s ∈ symbols, ∀ n, lengths.size? s = some n → n ≤ most)
    (owed : Nat)
    (h : symbols.foldlM (fun owed s => Debt.add? owed (Debt.ofSymbol lengths.toInt s))
      (.finite owed) = none) :
    Debt.limit ≤ owed + symbols.length * most ∧ ∃ s ∈ symbols, lengths.size? s = none := by
  induction symbols generalizing owed with
  | nil => simp at h
  | cons s rest ih =>
      have hmost' : ∀ u ∈ rest, ∀ n, lengths.size? u = some n → n ≤ most :=
        fun u hu => hmost u (by simp [hu])
      rw [List.foldlM_cons] at h
      rw [List.length_cons, Nat.add_mul, Nat.one_mul]
      cases hs : lengths.size? s with
      | none =>
          refine ⟨?_, s, by simp, hs⟩
          rw [ofSymbol_of_size?_none hs, Debt.add?_finite_infinite] at h
          split at h
          · have := foldlM_add_infinite_none hmost' h
            omega
          · rename_i hfits
            have := Debt.limit_le_of_not_fits hfits
            omega
      | some n =>
          have hn := hmost s (by simp) n hs
          rw [ofSymbol_of_size? hs] at h
          obtain ⟨hle, u, hu, hnone⟩ := ih hmost' (owed + n) h
          exact ⟨by omega, u, by simp [hu], hnone⟩

-- The debt of a sequence has a value unless a symbol has no length and the lengths of the
-- others do not fit.
theorem ofSequence?_none {lengths : Lengths} {symbols : List Symbol} {most : Nat}
    (hpos : 0 < most) (hmost : ∀ s ∈ symbols, ∀ n, lengths.size? s = some n → n ≤ most)
    (h : Debt.ofSequence? lengths.toInt symbols = none) :
    Debt.limit ≤ symbols.length * most ∧ ∃ s ∈ symbols, lengths.size? s = none := by
  simpa using foldlM_add_finite_none hpos hmost 0 h

theorem sum?_le_mul {lengths : Lengths} {symbols : List Symbol} {most n : Nat}
    (hmost : ∀ s ∈ symbols, ∀ n, lengths.size? s = some n → n ≤ most)
    (h : lengths.sum? symbols = some n) : n ≤ symbols.length * most := by
  induction symbols generalizing n with
  | nil =>
      obtain rfl := Option.some.inj h
      exact Nat.zero_le _
  | cons s rest ih =>
      obtain ⟨a, b, ha, hb, rfl⟩ := sum?_cons_eq_some.mp h
      have := hmost s (by simp) a ha
      have := ih (fun u hu => hmost u (by simp [hu])) hb
      rw [List.length_cons, Nat.add_mul, Nat.one_mul]
      omega

theorem missing_le (lengths : Lengths) : lengths.missing ≤ lengths.names.length := by
  induction lengths with
  | nil => exact Nat.le_refl 0
  | cons entry rest ih =>
      obtain ⟨name, length⟩ := entry
      simp only [Family.names, List.map_cons, List.length_cons] at ih ⊢
      cases length <;> simp only [missing] <;> omega

-- A name that is given a length was missing before, or its length gets no longer.
theorem missing_change (lengths : Lengths) (name : String) (length : Nat) :
    missing (lengths.change name (shorter length)) +
      (if lengths.value? name = some none then 1 else 0) = lengths.missing := by
  induction lengths with
  | nil => rfl
  | cons entry rest ih =>
      obtain ⟨other, old⟩ := entry
      by_cases h : other = name
      · subst h
        cases old <;> simp [Family.change, Family.value?, missing, shorter]
      · have hne : (name == other) = false := beq_false_of_ne (Ne.symm h)
        have hvalue : Family.value? ((other, old) :: rest) name = Family.value? rest name := by
          simp only [Family.value?, List.lookup_cons, hne]
        rw [hvalue]
        cases old with
        | none => simp only [Family.change, if_neg h, missing, ← ih]; omega
        | some old => simp only [Family.change, if_neg h, missing, ← ih]

-- As many lengths as there are allow no longer sentence than that of a tree of this height.
def Bounded (base : Nat) (lengths : Lengths) : Prop :=
  ∀ name n, lengths.of name = some n → n ≤ Nat.pow base (lengths.names.length - lengths.missing)

theorem Bounded.size?_le {base : Nat} {lengths : Lengths} (h : Bounded base lengths)
    (hbase : 0 < base) {s : Symbol} {n : Nat} (hn : lengths.size? s = some n) :
    n ≤ Nat.pow base (lengths.names.length - lengths.missing) := by
  cases s with
  | terminal name =>
      obtain rfl := Option.some.inj hn
      exact Nat.pow_pos hbase
  | nonterminal name => exact h name n hn

-- A name that is given its first length is one more, so the tree may be higher by one.
theorem Bounded.improve? {base : Nat} {lengths next : Lengths} (h : Bounded base lengths)
    (hbase : 0 < base) {p : Production} (hp : p.rhs.length ≤ base)
    (hnext : lengths.improve? p = some next) : Bounded base next := by
  obtain ⟨debt, hdebt, rfl⟩ := Option.map_eq_some_iff.mp hnext
  cases hsum : lengths.sum? p.rhs with
  | none =>
      obtain rfl := ofSequence?_of_sum?_none hsum hdebt
      exact h
  | some m =>
      rw [ofSequence?_of_sum? hsum, Option.some.injEq] at hdebt
      subst hdebt
      simp only [Int.toNat_natCast]
      have hm : m ≤ base * Nat.pow base (lengths.names.length - lengths.missing) :=
        Nat.le_trans (sum?_le_mul (fun s _ n => h.size?_le hbase) hsum) (Nat.mul_le_mul_right _ hp)
      have hchange := missing_change lengths p.lhs m
      have hmissing := missing_le lengths
      intro name n hn
      rw [Family.names_change]
      by_cases hname : name = p.lhs
      · subst hname
        rw [of, Family.value?_change_self] at hn
        cases hvalue : lengths.value? p.lhs with
        | none => simp [hvalue] at hn
        | some old =>
            rw [hvalue] at hn hchange
            cases old with
            | none =>
                obtain rfl : m = n := by simpa [shorter] using hn
                rw [if_pos rfl] at hchange
                have hexponent : lengths.names.length - missing (lengths.change p.lhs (shorter m)) =
                    lengths.names.length - lengths.missing + 1 := by
                  omega
                rw [hexponent]
                exact Nat.le_trans hm (Nat.le_of_eq (Nat.mul_comm _ _))
            | some old =>
                have hold := h p.lhs old (by simp [of, hvalue])
                obtain rfl : min m old = n := by simpa [shorter] using hn
                rw [if_neg (by simp)] at hchange
                rw [show missing (lengths.change p.lhs (shorter m)) = lengths.missing from hchange]
                exact Nat.le_trans (Nat.min_le_right m old) hold
      · rw [of, Family.value?_change_of_ne _ _ _ _ hname] at hn
        exact Nat.le_trans (h name n hn) (Nat.pow_le_pow_right hbase (by omega))

theorem bounded_initial (g : Grammar) (base : Nat) : Bounded base (initial g) := by
  intro name n hn
  simp [of_initial] at hn

theorem missing_pos {lengths : Lengths} {name : String} (hm : name ∈ lengths.names)
    (h : lengths.of name = none) : 0 < lengths.missing := by
  obtain ⟨value, hvalue⟩ := Family.exists_value?_of_mem hm
  have hnone : lengths.value? name = some none := by
    rw [hvalue, Option.some.injEq]
    simpa [of, hvalue] using h
  have := missing_change lengths name 0
  rw [if_pos hnone] at this
  omega

-- The lengths of the shortest sentences are found unless the grammar is so large that there
-- could be one that does not fit.
theorem limit_le_of_shortest? {g : Grammar} {base : Nat} (hpos : 0 < base)
    (hbase : ∀ p ∈ g.productions, p.rhs.length ≤ base) (h : shortest? g = none) :
    Debt.limit ≤ Nat.pow base g.sortedNonterminals.length := by
  have hkeeps : ∀ p ∈ g.productions, ∀ lengths next : Lengths,
      (lengths.names = g.sortedNonterminals ∧ Bounded base lengths) →
      lengths.improve? p = some next → next.names = g.sortedNonterminals ∧ Bounded base next :=
    fun p mem lengths next hlengths hnext => ⟨(names_improve? hnext).trans hlengths.1,
      hlengths.2.improve? hpos (hbase p mem) hnext⟩
  rcases settled?_cases hkeeps ⟨names_initial g, bounded_initial g base⟩ with
    ⟨final, hfinal, _⟩ | ⟨_, last, ⟨hnames, hbounded⟩, p, mem, hdebt⟩
  · simp [shortest?, hfinal] at h
  · obtain ⟨hle, s, hs, hnone⟩ := ofSequence?_none (Nat.pow_pos hpos)
      (fun s _ n => hbounded.size?_le hpos) hdebt
    cases s with
    | terminal name => simp [size?] at hnone
    | nonterminal name =>
        have hm : name ∈ last.names := by
          rw [hnames, Grammar.sortedNonterminals, Names.mem_sortedSet]
          exact g.declares_of_mem_rhs p mem _ hs
        have hmissing := missing_pos hm hnone
        have hall := missing_le last
        rw [hnames] at hle hall
        calc
          Debt.limit ≤ p.rhs.length *
              Nat.pow base (g.sortedNonterminals.length - last.missing) := hle
          _ ≤ base * Nat.pow base (g.sortedNonterminals.length - last.missing) :=
            Nat.mul_le_mul_right _ (hbase p mem)
          _ = Nat.pow base (g.sortedNonterminals.length - last.missing + 1) := Nat.mul_comm _ _
          _ ≤ Nat.pow base g.sortedNonterminals.length := Nat.pow_le_pow_right hpos (by omega)

end Lengths

end ContextFree
