import ContextFree.Proofs.Backtracking.Safety
import ContextFree.Proofs.Chart.Safety
import ContextFree.Proofs.Predictive.Safety

namespace ContextFree

-- What the three parsers take for granted on the way is always so, and each of them gives an
-- answer, whatever the grammar and the tokens are. The one thing that can fail is the search. With
-- fewer tokens than the limit it only does because a length, found for good or only on the way, is
-- too large to be added up while the shortest ones are looked for. It takes a grammar in which a
-- tree can be that large, and then no tokens are answered.
--
-- How deep calls may lie inside each other is left out. The trees of a chart and the tree of an
-- attempt are put together with one call inside another for every level of the tree, and there is
-- no bound on the levels here.
theorem parsers_safe (g : Grammar) (tokens : List String) :
    ((∃ outcome, Predictive.parse g tokens = .ok outcome) ∧ Predictive.Safe g tokens) ∧
      ((∃ trees, Chart.parse g tokens = .ok trees) ∧ Chart.Safe g tokens) ∧
      Backtracking.Safe g tokens ∧
      (∀ fault, Backtracking.parse g tokens = .error fault → fault = .tooLarge) ∧
      (tokens.length < Debt.limit → Lengths.shortest? g ≠ none →
        ∃ r, Backtracking.parse g tokens = .ok r) ∧
      (Lengths.shortest? g = none → Backtracking.parse g tokens = .error .tooLarge) ∧
      ∀ base, 0 < base → (∀ p ∈ g.productions, p.rhs.length ≤ base) →
        Nat.pow base g.sortedNonterminals.length < Debt.limit → Lengths.shortest? g ≠ none := by
  refine ⟨⟨Predictive.exists_outcome g tokens, Predictive.safe g tokens⟩, ⟨?_, Chart.safe g tokens⟩,
    Backtracking.safe g tokens, fun fault hfault => ?_, Backtracking.exists_parse,
    fun hnone => Backtracking.parse_of_shortest?_none hnone tokens,
    fun base hpos hbase hlt hnone => ?_⟩
  · obtain ⟨trees, hparse, _⟩ := Chart.exists_parse g tokens
    exact ⟨trees, hparse⟩
  · rcases Backtracking.parse_cases g tokens with ⟨r, hr, _⟩ | ⟨hlarge, _⟩
    · simp [hfault] at hr
    · exact Except.error.inj (hfault.symm.trans hlarge)
  · have := Lengths.limit_le_of_shortest? hpos hbase hnone
    omega

end ContextFree
