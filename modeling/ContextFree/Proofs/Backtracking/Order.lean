import ContextFree.Proofs.Backtracking.Correctness
import ContextFree.Proofs.Derivation.Cycles

namespace ContextFree

namespace Backtracking

section Finding

variable {g : Grammar} {tokens : List String} {r : Option Tree} {t : Tree}

theorem Finds.eq_none_iff (h : Finds g tokens r) :
    r = none ↔ ¬ ∃ t : Tree, t.Admissible g tokens := by
  cases r with
  | none => exact iff_of_true rfl fun ⟨t, ht⟩ => h t ht
  | some t => exact iff_of_false nofun fun hno => hno ⟨t, h.1⟩

-- There is no other tree with the same choices, so the one that comes first is the answer.
theorem Finds.eq_some_iff (h : Finds g tokens r) :
    r = some t ↔
      t.Admissible g tokens ∧ ∀ u : Tree, u.Admissible g tokens → t.choices g ≤ u.choices g := by
  constructor
  · rintro rfl
    exact h
  · rintro ⟨ht, hleast⟩
    cases r with
    | none => exact absurd ht (h t)
    | some u =>
        have heq := le_antisymm (h.2 t ht) (hleast u h.1)
        rw [h.1.derivation.eq_of_choices ht.derivation heq]

-- Where no nonterminal derives itself, the search can come to every derivation.
theorem admissible_iff_of_acyclic (hg : g.Acyclic) :
    t.Admissible g tokens ↔ t.Derivation g g.start tokens := by
  refine ⟨fun h => h.derivation, fun h => ⟨h, ?_⟩⟩
  rw [← h.yield_eq]
  exact (h.valid.simple_of_acyclic hg 0).shallow

end Finding

-- What the search answers is the first, in the order of the choices, of the derivation trees in
-- which no node lies inside more nodes of its nonterminal and its position than there are
-- tokens from there on. These are all derivation trees if no nonterminal derives itself. With
-- fewer tokens than the limit, the one way not to answer is that a length, found for good or only
-- on the way, is too large to be added up while the shortest ones are looked for.
theorem parse_least (g : Grammar) (tokens : List String) :
    (∀ r, parse g tokens = .ok r →
      (r = none ↔ ¬ ∃ t : Tree, t.Admissible g tokens) ∧
      ∀ t, r = some t ↔
        t.Admissible g tokens ∧ ∀ u : Tree, u.Admissible g tokens → t.choices g ≤ u.choices g) ∧
    (g.Acyclic →
      (∀ t : Tree, t.Derivation g g.start tokens → t.Shallow tokens.length [] 0) ∧
      ∀ r, parse g tokens = .ok r → ∀ t, r = some t ↔
        t.Derivation g g.start tokens ∧
          ∀ u : Tree, u.Derivation g g.start tokens → t.choices g ≤ u.choices g) ∧
    (tokens.length < Debt.limit → Lengths.shortest? g ≠ none → ∃ r, parse g tokens = .ok r) ∧
    (Lengths.shortest? g = none → parse g tokens = .error .tooLarge) := by
  refine ⟨fun r hr => ⟨(finds_of_parse hr).eq_none_iff, fun t => (finds_of_parse hr).eq_some_iff⟩,
    fun hg => ⟨fun t ht => ((admissible_iff_of_acyclic hg).mpr ht).shallow, fun r hr t => ?_⟩,
    exists_parse, fun hnone => parse_of_shortest?_none hnone tokens⟩
  rw [(finds_of_parse hr).eq_some_iff]
  simp only [admissible_iff_of_acyclic hg]

end Backtracking

end ContextFree
