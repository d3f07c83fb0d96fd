import ContextFree.Grammar
import ContextFree.Tree

namespace ContextFree

-- One step of a derivation: somewhere in the sentential form a nonterminal is
-- replaced by one of its right-hand sides.
inductive Rewrites (g : Grammar) : List Symbol → List Symbol → Prop where
  | replace (before after : List Symbol) (p : Production) (mem : p ∈ g.productions) :
      Rewrites g (before ++ .nonterminal p.lhs :: after) (before ++ p.rhs ++ after)

-- Any number of steps, also none.
inductive Derives (g : Grammar) : List Symbol → List Symbol → Prop where
  | refl (form : List Symbol) : Derives g form form
  | step {first last next : List Symbol} (derives : Derives g first last)
      (rewrites : Rewrites g last next) : Derives g first next

-- The tokens as a sentential form.
def sentence (tokens : List String) : List Symbol := tokens.map .terminal

theorem sentence_append (tokens others : List String) :
    sentence (tokens ++ others) = sentence tokens ++ sentence others :=
  List.map_append

theorem Rewrites.append {g : Grammar} {form next : List Symbol} (h : Rewrites g form next)
    (before after : List Symbol) :
    Rewrites g (before ++ form ++ after) (before ++ next ++ after) := by
  cases h with
  | replace left right p mem =>
    have := Rewrites.replace (before ++ left) (right ++ after) p mem
    simpa only [List.append_assoc, List.cons_append] using this

namespace Derives

theorem trans {g : Grammar} {a b c : List Symbol} (first : Derives g a b)
    (second : Derives g b c) : Derives g a c := by
  induction second with
  | refl => exact first
  | step _ rewrites ih => exact ih.step rewrites

theorem append {g : Grammar} {form last : List Symbol} (h : Derives g form last)
    (before after : List Symbol) :
    Derives g (before ++ form ++ after) (before ++ last ++ after) := by
  induction h with
  | refl => exact .refl _
  | step _ rewrites ih => exact ih.step (rewrites.append before after)

-- Two neighbours can be derived one after the other.
theorem concat {g : Grammar} {a b c d : List Symbol} (left : Derives g a b)
    (right : Derives g c d) : Derives g (a ++ c) (b ++ d) := by
  have h₁ : Derives g (a ++ c) (b ++ c) := by simpa using left.append [] c
  have h₂ : Derives g (b ++ c) (b ++ d) := by simpa using right.append b []
  exact h₁.trans h₂

theorem of_production {g : Grammar} {p : Production} (mem : p ∈ g.productions) :
    Derives g [.nonterminal p.lhs] p.rhs := by
  have h := Rewrites.replace [] [] p mem
  simp only [List.nil_append, List.append_nil] at h
  exact (Derives.refl _).step h

end Derives

namespace Tree

-- The symbol at the top.
def root : Tree → Symbol
  | .leaf terminal => .terminal terminal
  | .node symbol _ => .nonterminal symbol

-- At every node the symbols of the children are a right-hand side for its symbol.
inductive Valid (g : Grammar) : Tree → Prop where
  | leaf (terminal : String) : Valid g (.leaf terminal)
  | node (symbol : String) (children : List Tree)
      (mem : { lhs := symbol, rhs := children.map root } ∈ g.productions)
      (valid : ∀ child ∈ children, Valid g child) : Valid g (.node symbol children)

-- The tree is a derivation of the tokens from the nonterminal.
structure Derivation (g : Grammar) (symbol : String) (tokens : List String) (t : Tree) :
    Prop where
  root_eq : t.root = .nonterminal symbol
  valid : t.Valid g
  yield_eq : t.yield = tokens

-- The terminals come off the stack as the trees on it spell them.
theorem stackLeaves_eq (stack : List Tree) : stackLeaves stack = yieldList stack := by
  fun_induction stackLeaves stack with
  | case1 => rfl
  | case2 terminal stack ih => simp only [yieldList, yield, ih, List.singleton_append]
  | case3 symbol children stack ih =>
    rw [ih]
    clear ih
    simp only [yieldList, yield]
    induction children with
    | nil => rfl
    | cons child rest ih => simp only [List.cons_append, yieldList, ih, List.append_assoc]

theorem leaves_eq_yield (t : Tree) : t.leaves = t.yield := by
  simp [leaves, stackLeaves_eq, yieldList]

-- A valid tree is a derivation of what it spells.
theorem Valid.derives {g : Grammar} {t : Tree} (h : t.Valid g) :
    Derives g [t.root] (sentence t.yield) := by
  induction h with
  | leaf terminal => exact .refl _
  | node symbol children mem valid ih =>
    refine (Derives.of_production mem).trans ?_
    clear mem valid
    show Derives g (children.map root) (sentence (yieldList children))
    induction children with
    | nil => exact .refl _
    | cons child rest ihr =>
      have first := ih child (by simp)
      have others := ihr fun c hc => ih c (by simp [hc])
      have h := first.concat others
      rw [← sentence_append] at h
      exact h

end Tree

end ContextFree
