import ContextFree.Proofs.Derivation.Trees
import Mathlib.Data.List.Lex

namespace ContextFree

-- Choices are compared like words in a dictionary.
theorem nil_le_choices (choices : List Nat) : [] ≤ choices := by
  cases choices with
  | nil => exact le_refl []
  | cons m ms => exact le_of_lt .nil

theorem cons_le_choices_iff {m n : Nat} {ms ns : List Nat} :
    m :: ms ≤ n :: ns ↔ m < n ∨ m = n ∧ ms ≤ ns := by
  have hlt : m :: ms < n :: ns ↔ m < n ∨ m = n ∧ ms < ns := List.cons_lt_cons_iff
  rw [le_iff_lt_or_eq, hlt, le_iff_lt_or_eq, List.cons.injEq]
  tauto

theorem idxOf_lt_of_notMem {before after : List Production} {p q : Production} (hp : p ∉ before)
    (hq : q ∉ before) (hne : p ≠ q) :
    (before ++ p :: after).idxOf p < (before ++ p :: after).idxOf q := by
  rw [List.idxOf_append_of_notMem hp, List.idxOf_append_of_notMem hq, List.idxOf_cons_self,
    List.idxOf_cons_ne _ hne]
  omega

namespace Tree

mutual

-- Which of its productions each nonterminal of the tree was replaced by, from the top and from
-- the left. Two equal productions count as the first of them.
def choices (g : Grammar) : Tree → List Nat
  | .leaf _ => []
  | .node symbol children =>
    (g.productionsFor symbol).idxOf { lhs := symbol, rhs := children.map root } ::
      choicesList g children

def choicesList (g : Grammar) : List Tree → List Nat
  | [] => []
  | t :: ts => choices g t ++ choicesList g ts

end

@[simp] theorem choicesList_nil (g : Grammar) : choicesList g [] = [] := rfl

@[simp] theorem choicesList_cons (g : Grammar) (t : Tree) (ts : List Tree) :
    choicesList g (t :: ts) = t.choices g ++ choicesList g ts := rfl

@[simp] theorem choicesList_append (g : Grammar) (ts us : List Tree) :
    choicesList g (ts ++ us) = choicesList g ts ++ choicesList g us := by
  induction ts with
  | nil => rfl
  | cons t ts ih => simp [ih]

@[simp] theorem choices_leaf (g : Grammar) (terminal : String) :
    (Tree.leaf terminal).choices g = [] := rfl

@[simp] theorem choices_node (g : Grammar) (symbol : String) (children : List Tree) :
    (Tree.node symbol children).choices g =
      (g.productionsFor symbol).idxOf { lhs := symbol, rhs := children.map root } ::
        choicesList g children := rfl

theorem eq_of_choicesList {g : Grammar} {ts us : List Tree} {after others : List Nat}
    (ih : ∀ t ∈ ts, ∀ u : Tree, t.Valid g → u.Valid g → t.root = u.root →
      ∀ after others, t.choices g ++ after = u.choices g ++ others → t = u ∧ after = others)
    (hts : ∀ t ∈ ts, t.Valid g) (hus : ∀ u ∈ us, u.Valid g) (hroots : ts.map root = us.map root)
    (h : choicesList g ts ++ after = choicesList g us ++ others) : ts = us ∧ after = others := by
  induction ts generalizing us with
  | nil =>
      obtain rfl := List.map_eq_nil_iff.mp hroots.symm
      exact ⟨rfl, h⟩
  | cons t ts ihr =>
      obtain ⟨u, us, rfl, hroot, hrest⟩ := List.map_eq_cons_iff.mp hroots.symm
      simp only [choicesList_cons, List.append_assoc] at h
      obtain ⟨rfl, hafter⟩ := ih t (by simp) u (hts t (by simp)) (hus u (by simp)) hroot.symm _ _ h
      obtain ⟨rfl, hothers⟩ := ihr (fun t ht => ih t (by simp [ht])) (fun t ht => hts t (by simp [ht]))
        (fun u hu => hus u (by simp [hu])) hrest.symm hafter
      exact ⟨rfl, hothers⟩

-- The choices of a tree are no part of those of another one with the same symbol at the top.
theorem Valid.eq_of_choices_append {g : Grammar} {t u : Tree} (ht : t.Valid g) (hu : u.Valid g)
    (hroot : t.root = u.root) {after others : List Nat}
    (h : t.choices g ++ after = u.choices g ++ others) : t = u ∧ after = others := by
  induction t generalizing u after others with
  | leaf terminal =>
      obtain rfl := eq_leaf_of_root hroot.symm
      exact ⟨rfl, h⟩
  | node symbol children ih =>
      obtain ⟨ds, rfl⟩ := exists_node_of_root hroot.symm
      obtain ⟨mem, valid⟩ := (valid_node g _ _).mp ht
      simp only [choices_node, List.cons_append, List.cons.injEq] at h
      have hp := (List.idxOf_inj ((g.mem_productionsFor _ _).mpr ⟨mem, rfl⟩)).mp h.1
      obtain ⟨rfl, hafter⟩ := eq_of_choicesList
        (fun t hm u ht hu hroot after others heq => ih t hm ht hu hroot heq) valid
        ((valid_node g _ _).mp hu).2 (Production.mk.inj hp).2 h.2
      exact ⟨rfl, hafter⟩

theorem Derivation.eq_of_choices {g : Grammar} {symbol : String} {tokens others : List String}
    {t u : Tree} (ht : t.Derivation g symbol tokens) (hu : u.Derivation g symbol others)
    (h : t.choices g = u.choices g) : t = u :=
  (ht.valid.eq_of_choices_append hu.valid (ht.root_eq.trans hu.root_eq.symm)
    (congrArg (· ++ []) h)).1

end Tree

end ContextFree
