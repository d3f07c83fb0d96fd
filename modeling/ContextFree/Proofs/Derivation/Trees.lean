import ContextFree.Derivation
import Mathlib.Logic.Relation

namespace ContextFree

theorem not_rel_self_of_acc {r : α → α → Prop} {a : α} (h : Acc r a) : ¬ r a a := by
  induction h with
  | intro a _ ih => exact fun ha => ih a ha ha

section Machine

-- A machine that has one next state at most.
variable {r : α → α → Prop} (hunique : ∀ {a b b'}, r a b → r a b' → b = b') {first last : α}
  (h : Relation.ReflTransGen r first last) (hend : ∀ next, ¬ r last next)

include hunique h hend

-- If it comes to a state with no next one, it cannot go on forever.
theorem acc_of_reaches : Acc (fun next a => r a next) first := by
  induction h using Relation.ReflTransGen.head_induction_on with
  | refl => exact ⟨_, fun next hnext => absurd hnext (hend next)⟩
  | head hfirst _ ih => exact ⟨_, fun next hnext => hunique hfirst hnext ▸ ih⟩

-- And it comes to no other such state.
theorem eq_of_reaches {other : α} (h' : Relation.ReflTransGen r first other)
    (hend' : ∀ next, ¬ r other next) : other = last := by
  have hright : Relator.RightUnique r := fun _ _ _ => hunique
  rcases Relation.ReflTransGen.total_of_right_unique hright h' h with hrest | hrest
  all_goals rcases hrest.cases_head with heq | ⟨next, hnext, _⟩
  · exact heq
  · exact absurd hnext (hend' next)
  · exact heq.symm
  · exact absurd hnext (hend next)

end Machine

namespace Tree

-- A tree is a leaf, or a node above smaller trees.
@[elab_as_elim, induction_eliminator]
theorem induct {motive : Tree → Prop} (leaf : ∀ terminal, motive (.leaf terminal))
    (node : ∀ symbol children, (∀ child ∈ children, motive child) →
      motive (.node symbol children)) : ∀ t : Tree, motive t
  | .leaf terminal => leaf terminal
  | .node symbol children => node symbol children fun child _ => induct leaf node child

@[simp] theorem yield_leaf (terminal : String) : (Tree.leaf terminal).yield = [terminal] := rfl

@[simp] theorem yield_node (symbol : String) (children : List Tree) :
    (Tree.node symbol children).yield = yieldList children := rfl

@[simp] theorem yieldList_nil : yieldList [] = [] := rfl

@[simp] theorem yieldList_cons (t : Tree) (ts : List Tree) :
    yieldList (t :: ts) = t.yield ++ yieldList ts := rfl

@[simp] theorem yieldList_append (ts us : List Tree) :
    yieldList (ts ++ us) = yieldList ts ++ yieldList us := by
  induction ts with
  | nil => rfl
  | cons t ts ih => simp [ih]

theorem mem_yieldList (ts : List Tree) (token : String) :
    token ∈ yieldList ts ↔ ∃ t ∈ ts, token ∈ t.yield := by
  induction ts with
  | nil => simp
  | cons t ts ih => simp [ih]

@[simp] theorem root_leaf (terminal : String) : (Tree.leaf terminal).root = .terminal terminal := rfl

@[simp] theorem root_node (symbol : String) (children : List Tree) :
    (Tree.node symbol children).root = .nonterminal symbol := rfl

@[simp] theorem valid_leaf (g : Grammar) (terminal : String) : (Tree.leaf terminal).Valid g :=
  .leaf terminal

@[simp] theorem valid_node (g : Grammar) (symbol : String) (children : List Tree) :
    (Tree.node symbol children).Valid g ↔
      { lhs := symbol, rhs := children.map root } ∈ g.productions ∧
        ∀ child ∈ children, child.Valid g := by
  constructor
  · intro h
    cases h with
    | node _ _ mem valid => exact ⟨mem, valid⟩
  · rintro ⟨mem, valid⟩
    exact .node symbol children mem valid

-- A tree with a nonterminal at the top is a node.
theorem exists_node_of_root {t : Tree} {symbol : String} (h : t.root = .nonterminal symbol) :
    ∃ children, t = .node symbol children := by
  cases t with
  | leaf terminal => simp at h
  | node name children =>
      simp only [root_node, Symbol.nonterminal.injEq] at h
      exact ⟨children, by rw [h]⟩

-- A tree with a terminal at the top is that leaf.
theorem eq_leaf_of_root {t : Tree} {terminal : String} (h : t.root = .terminal terminal) :
    t = .leaf terminal := by
  cases t with
  | leaf name => simpa using h
  | node name children => simp at h

-- Only declared terminals occur in a tree that has a node at the top.
theorem Valid.mem_terminals {g : Grammar} {t : Tree} (h : t.Valid g) (token : String)
    (ht : token ∈ t.yield) : t = .leaf token ∨ token ∈ g.terminals := by
  induction t with
  | leaf terminal =>
      simp only [yield_leaf, List.mem_singleton] at ht
      exact .inl (by rw [ht])
  | node symbol children ih =>
      obtain ⟨mem, valid⟩ := (valid_node g symbol children).mp h
      right
      obtain ⟨child, hc, htc⟩ := (mem_yieldList children token).mp ht
      rcases ih child hc (valid child hc) htc with rfl | ht
      · exact g.declares_of_mem_rhs _ mem (.terminal token) (List.mem_map.mpr ⟨_, hc, rfl⟩)
      · exact ht

theorem Derivation.mem_terminals {g : Grammar} {symbol : String} {tokens : List String} {t : Tree}
    (h : Derivation g symbol tokens t) (token : String) (ht : token ∈ tokens) :
    token ∈ g.terminals := by
  rw [← h.yield_eq] at ht
  rcases h.valid.mem_terminals token ht with rfl | ht
  · have := h.root_eq
    simp at this
  · exact ht

end Tree

end ContextFree
