import ContextFree.Proofs.Derivation.Trees
import Mathlib.Data.List.Forall2

namespace ContextFree

-- A tree for a symbol: the leaf of a terminal, or one of the trees of a nonterminal.
def TreeFor (trees : String → Tree → Prop) : Symbol → Tree → Prop
  | .terminal name, t => t = .leaf name
  | .nonterminal name, t => trees name t

section Children

variable {trees : String → Tree → Prop} {rest : List Symbol} {name : String}
  {motive : List Tree → Prop}

-- What is so of all children for a right-hand side, symbol by symbol.
theorem forall_treesFor_nil :
    (∀ children, List.Forall₂ (TreeFor trees) [] children → motive children) ↔ motive [] := by
  simp

theorem forall_treesFor_terminal :
    (∀ children, List.Forall₂ (TreeFor trees) (.terminal name :: rest) children →
      motive children) ↔
      ∀ others, List.Forall₂ (TreeFor trees) rest others → motive (.leaf name :: others) := by
  constructor
  · intro h others hothers
    exact h _ (.cons rfl hothers)
  · intro h children hchildren
    obtain ⟨t, others, rfl, hothers, rfl⟩ := List.forall₂_cons_left_iff.mp hchildren
    exact h others hothers

theorem forall_treesFor_nonterminal :
    (∀ children, List.Forall₂ (TreeFor trees) (.nonterminal name :: rest) children →
      motive children) ↔
      ∀ t, trees name t →
        ∀ others, List.Forall₂ (TreeFor trees) rest others → motive (t :: others) := by
  constructor
  · intro h t ht others hothers
    exact h _ (.cons ht hothers)
  · intro h children hchildren
    obtain ⟨t, others, ht, hothers, rfl⟩ := List.forall₂_cons_left_iff.mp hchildren
    exact h t ht others hothers

end Children

-- Above trees for a right-hand side there is a tree of the left side.
def Grammar.Builds (g : Grammar) (trees : String → Tree → Prop) : Prop :=
  ∀ p ∈ g.productions, ∀ children, List.Forall₂ (TreeFor trees) p.rhs children →
    trees p.lhs (.node p.lhs children)

-- The valid trees are the least that are built in this way.
theorem Tree.Valid.induct {g : Grammar} {trees : String → Tree → Prop} {t : Tree} (h : t.Valid g)
    (builds : g.Builds trees) {name : String} (hroot : t.root = .nonterminal name) :
    trees name t := by
  induction h generalizing name with
  | leaf terminal => simp at hroot
  | node symbol children mem valid ih =>
      obtain rfl := Symbol.nonterminal.inj hroot
      refine builds _ mem children (List.forall₂_map_left_iff.mpr (List.forall₂_same.mpr ?_))
      intro child hchild
      cases hchild' : child.root with
      | terminal name => exact eq_leaf_of_root hchild'
      | nonterminal name => exact ih child hchild hchild'

end ContextFree
