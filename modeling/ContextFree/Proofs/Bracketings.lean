import ContextFree.Proofs.Arithmetic
import ContextFree.Proofs.Backtracking.Order
import ContextFree.Proofs.Derivation.Shapes
import Mathlib.Combinatorics.Enumerative.Catalan.Tree

namespace ContextFree

-- As long as no choice is beyond 1, it is best to have all zeros first.
theorem replicate_le_choices {choices : List Nat} (h : ∀ n ∈ choices, n ≤ 1) :
    List.replicate (choices.count 0) 0 ++ List.replicate (choices.count 1) 1 ≤ choices := by
  induction choices with
  | nil => exact nil_le_choices _
  | cons n rest ih =>
      have hrest := ih fun m hm => h m (List.mem_cons_of_mem n hm)
      obtain rfl | rfl : n = 0 ∨ n = 1 := by
        have := h n List.mem_cons_self
        omega
      · rw [List.count_cons_self, List.count_cons_of_ne (by decide), List.replicate_succ,
          List.cons_append]
        exact cons_le_choices_iff.mpr (.inr ⟨rfl, hrest⟩)
      · rw [List.count_cons_self, List.count_cons_of_ne (by decide)]
        cases hzeros : rest.count 0 with
        | zero =>
            rw [hzeros] at hrest
            exact cons_le_choices_iff.mpr (.inr ⟨rfl, hrest⟩)
        | succ zeros => exact cons_le_choices_iff.mpr (.inl Nat.zero_lt_one)

namespace Bracketing

-- The brackets of a binary tree around as many tokens as it has leaves.
def derivation : BinaryTree Unit → Tree
  | .nil => .node "S" [.leaf "b"]
  | .node _ left right => .node "S" [derivation left, derivation right]

-- All brackets open in front of the first token.
def leftNested : Nat → BinaryTree Unit
  | 0 => .nil
  | n + 1 => .node () (leftNested n) .nil

variable {brackets others : BinaryTree Unit}

theorem numNodes_leftNested (n : Nat) : (leftNested n).numNodes = n := by
  induction n with
  | zero => rfl
  | succ n ih => simp [leftNested, ih]

theorem root_derivation (brackets : BinaryTree Unit) :
    (derivation brackets).root = .nonterminal "S" := by
  cases brackets <;> rfl

theorem yield_derivation (brackets : BinaryTree Unit) :
    (derivation brackets).yield = List.replicate (brackets.numNodes + 1) "b" := by
  induction brackets with
  | nil => rfl
  | node value left right ihleft ihright =>
      simp only [derivation, Tree.yield_node, Tree.yieldList_cons, Tree.yieldList_nil,
        List.append_nil, ihleft, ihright, List.replicate_append_replicate, BinaryTree.numNodes]
      congr 1
      omega

theorem derivation_injective : Function.Injective derivation := by
  intro brackets others h
  induction brackets generalizing others with
  | nil =>
      cases others with
      | nil => rfl
      | node value left right => simp [derivation] at h
  | node value left right ihleft ihright =>
      cases others with
      | nil => simp [derivation] at h
      | node value' left' right' =>
          simp only [derivation, Tree.node.injEq, List.cons.injEq, true_and, and_true] at h
          rw [ihleft h.1, ihright h.2]

-- As many bracketings of `n + 1` tokens are listed as there are.
theorem length_eq_catalan {trees : List Tree} {n : Nat} (hnodup : trees.Nodup)
    (h : ∀ t, t ∈ trees ↔ ∃ brackets : BinaryTree Unit, brackets.numNodes = n ∧
      derivation brackets = t) : trees.length = catalan n := by
  have himage : trees.toFinset = (BinaryTree.treesOfNumNodesEq n).image derivation := by
    ext t
    simp only [List.mem_toFinset, h, Finset.mem_image, BinaryTree.mem_treesOfNumNodesEq]
  rw [← List.toFinset_card_of_nodup hnodup, himage,
    Finset.card_image_of_injective _ derivation_injective,
    BinaryTree.treesOfNumNodesEq_card_eq_catalan]

end Bracketing

open Bracketing

theorem productions_binary :
    Sample.binary.grammar.productions = [
      { lhs := "S", rhs := [.nonterminal "S", .nonterminal "S"] },
      { lhs := "S", rhs := [.terminal "b"] }] := by
  decide +kernel

-- The trees of the sample are bracketings.
theorem builds_binary :
    Sample.binary.grammar.Builds fun _ t => ∃ brackets, derivation brackets = t := by
  simp only [Grammar.Builds, productions_binary, List.forall_mem_cons, List.not_mem_nil,
    false_implies, implies_true, and_true, forall_treesFor_nil, forall_treesFor_terminal,
    forall_treesFor_nonterminal]
  constructor
  · intro left hleft right hright
    obtain ⟨front, rfl⟩ := hleft
    obtain ⟨back, rfl⟩ := hright
    exact ⟨.node () front back, rfl⟩
  · exact ⟨.nil, rfl⟩

theorem valid_derivation (brackets : BinaryTree Unit) :
    (derivation brackets).Valid Sample.binary.grammar := by
  induction brackets with
  | nil => simp [derivation, productions_binary]
  | node value left right ihleft ihright =>
      simp [derivation, productions_binary, root_derivation, ihleft, ihright]

theorem start_binary : Sample.binary.grammar.start = "S" := by decide +kernel

theorem derivation_binary_iff {n : Nat} {t : Tree} :
    t.Derivation Sample.binary.grammar Sample.binary.grammar.start (List.replicate (n + 1) "b") ↔
      ∃ brackets : BinaryTree Unit, brackets.numNodes = n ∧ derivation brackets = t := by
  constructor
  · intro h
    obtain ⟨brackets, rfl⟩ := h.valid.induct builds_binary h.root_eq
    have hlength := congrArg List.length h.yield_eq
    rw [yield_derivation, List.length_replicate, List.length_replicate] at hlength
    exact ⟨brackets, by omega, rfl⟩
  · rintro ⟨brackets, rfl, rfl⟩
    exact ⟨by rw [root_derivation, start_binary], valid_derivation brackets,
      yield_derivation brackets⟩

theorem acyclic_binary : Sample.binary.grammar.Acyclic := by
  apply Grammar.acyclic_of_growing
  simp [productions_binary]

@[simp] theorem choices_derivation_nil :
    (derivation .nil).choices Sample.binary.grammar = [1] := by
  simp [derivation, Grammar.productionsFor_eq_filter, productions_binary]

@[simp] theorem choices_derivation_node (value : Unit) (left right : BinaryTree Unit) :
    (derivation (.node value left right)).choices Sample.binary.grammar =
      0 :: ((derivation left).choices Sample.binary.grammar ++
        (derivation right).choices Sample.binary.grammar) := by
  simp [derivation, Grammar.productionsFor_eq_filter, productions_binary, root_derivation]

theorem count_zero_choices (brackets : BinaryTree Unit) :
    ((derivation brackets).choices Sample.binary.grammar).count 0 = brackets.numNodes := by
  induction brackets with
  | nil => simp
  | node value left right ihleft ihright =>
      rw [choices_derivation_node, List.count_cons_self, List.count_append, ihleft, ihright,
        BinaryTree.numNodes]

theorem count_one_choices (brackets : BinaryTree Unit) :
    ((derivation brackets).choices Sample.binary.grammar).count 1 = brackets.numNodes + 1 := by
  induction brackets with
  | nil => simp
  | node value left right ihleft ihright =>
      rw [choices_derivation_node, List.count_cons_of_ne (by decide), List.count_append, ihleft,
        ihright, BinaryTree.numNodes]
      omega

theorem le_one_of_mem_choices (brackets : BinaryTree Unit) :
    ∀ n ∈ (derivation brackets).choices Sample.binary.grammar, n ≤ 1 := by
  induction brackets with
  | nil => simp
  | node value left right ihleft ihright =>
      rw [choices_derivation_node, List.forall_mem_cons, List.forall_mem_append]
      exact ⟨Nat.zero_le 1, ihleft, ihright⟩

theorem choices_leftNested (n : Nat) :
    (derivation (leftNested n)).choices Sample.binary.grammar =
      List.replicate n 0 ++ List.replicate (n + 1) 1 := by
  induction n with
  | zero => simp [leftNested]
  | succ n ih =>
      rw [leftNested, choices_derivation_node, ih, choices_derivation_nil, List.append_assoc,
        ← List.replicate_succ']
      rfl

-- The more brackets open at once, the more zeros stand in front.
theorem choices_leftNested_le (brackets : BinaryTree Unit) :
    (derivation (leftNested brackets.numNodes)).choices Sample.binary.grammar ≤
      (derivation brackets).choices Sample.binary.grammar := by
  have h := replicate_le_choices (le_one_of_mem_choices brackets)
  rwa [count_zero_choices, count_one_choices, ← choices_leftNested] at h

theorem productive_binary : Sample.binary.grammar.Productive := by
  have hnames : Sample.binary.grammar.nonterminals = ["S"] := by decide +kernel
  intro name mem
  obtain rfl : name = "S" := by simpa [hnames] using mem
  refine ⟨["b"], exists_derivation_iff.mp ⟨derivation .nil, ?_⟩⟩
  exact ⟨rfl, valid_derivation .nil, rfl⟩

namespace Sample

-- The chart lists the bracketings of the tokens, each once and all that there are, and the
-- search comes to the one in which all brackets open at the left end.
theorem binary_bracketings (n : Nat) :
    ∃ trees, Chart.parse binary.grammar (List.replicate (n + 1) "b") = .ok trees ∧
      trees.Nodup ∧ trees.length = catalan n ∧
      (∀ t, t ∈ trees ↔
        ∃ brackets : BinaryTree Unit, brackets.numLeaves = n + 1 ∧ derivation brackets = t) ∧
      Backtracking.parse binary.grammar (List.replicate (n + 1) "b") =
        .ok (some (derivation (leftNested n))) := by
  obtain ⟨trees, hparse, htrees⟩ := Chart.exists_parse binary.grammar (List.replicate (n + 1) "b")
  obtain ⟨r, hr⟩ := Backtracking.exists_parse_of_productive binary.shortest?_ne_none
    productive_binary (List.replicate (n + 1) "b")
  have hmem (t : Tree) : t ∈ trees ↔
      ∃ brackets : BinaryTree Unit, brackets.numNodes = n ∧ derivation brackets = t := by
    rw [← derivation_binary_iff]
    constructor
    · intro h
      exact ((htrees.mem_iff t).mp h).1
    · intro h
      exact mem_chart_of_acyclic htrees h acyclic_binary
  refine ⟨trees, hparse, htrees.nodup, length_eq_catalan htrees.nodup hmem, ?_, ?_⟩
  · intro t
    simp only [hmem, BinaryTree.numLeaves_eq_numNodes_succ, Nat.add_right_cancel_iff]
  · rw [hr]
    refine congrArg Except.ok ((Backtracking.finds_of_parse hr).eq_some_iff.mpr ⟨?_, ?_⟩)
    · rw [Backtracking.admissible_iff_of_acyclic acyclic_binary, derivation_binary_iff]
      exact ⟨leftNested n, numNodes_leftNested n, rfl⟩
    · intro u hu
      rw [Backtracking.admissible_iff_of_acyclic acyclic_binary, derivation_binary_iff] at hu
      obtain ⟨brackets, rfl, rfl⟩ := hu
      exact choices_leftNested_le brackets

end Sample

end ContextFree
