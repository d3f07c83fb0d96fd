import ContextFree.Grammar

namespace ContextFree

namespace Declaration

variable {d : Declaration}

theorem declaredTwice_eq_nil_iff : d.declaredTwice = [] ↔ ∀ name ∈ d.nonterminals, name ∉ d.terminals := by
  simp only [List.eq_nil_iff_forall_not_mem, declaredTwice, Names.mem_sortedSet, List.mem_filter,
    decide_eq_true_eq, not_and]

theorem undeclaredIn_eq_nil_iff {p : Production} :
    d.undeclaredIn p = [] ↔ p.lhs ∈ d.nonterminals ∧ ∀ s ∈ p.rhs, d.Declares s := by
  by_cases h : p.lhs ∈ d.nonterminals <;> simp [undeclaredIn, h]

theorem undeclared_eq_nil_iff :
    d.undeclared = [] ↔
      ∀ p ∈ d.productions, p.lhs ∈ d.nonterminals ∧ ∀ s ∈ p.rhs, d.Declares s := by
  simp only [undeclared, List.flatMap_eq_nil_iff, undeclaredIn_eq_nil_iff]

-- A declaration makes a grammar if and only if the end marker is left out of it, no name is of
-- both kinds, and the start symbol and all symbols of the productions are declared.
theorem problems_eq_nil_iff :
    d.problems = [] ↔ (endMarker ∉ d.nonterminals ∧ endMarker ∉ d.terminals) ∧
      (∀ name ∈ d.nonterminals, name ∉ d.terminals) ∧ d.start ∈ d.nonterminals ∧
      ∀ p ∈ d.productions, p.lhs ∈ d.nonterminals ∧ ∀ s ∈ p.rhs, d.Declares s := by
  rw [← undeclared_eq_nil_iff, ← declaredTwice_eq_nil_iff, problems]
  cases d.undeclared <;>
    simp only [List.append_eq_nil_iff, ite_eq_left_iff, ite_eq_right_iff, List.cons_ne_nil, imp_false,
      Classical.not_not, not_or, and_assoc, and_true, and_false]

end Declaration

namespace Grammar

variable {d : Declaration} {g : Grammar}

theorem exists_error_iff : (∃ problems, ofDeclaration? d = .error problems) ↔ d.problems ≠ [] := by
  rw [ofDeclaration?]
  split
  · rename_i hproblems
    simp [hproblems]
  · rename_i hproblems
    exact iff_of_true ⟨_, rfl⟩ hproblems

theorem toDeclaration_of_ok (h : ofDeclaration? d = .ok g) : g.toDeclaration = d := by
  rw [ofDeclaration?] at h
  split at h
  · obtain rfl := Except.ok.inj h
    rfl
  · simp at h

end Grammar

end ContextFree
