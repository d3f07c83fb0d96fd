import ContextFree.Proofs.Agreement
import ContextFree.Samples

namespace ContextFree

def Expression.letters : List String := ["w", "x", "y", "z"]

def Expression.operators : List String := ["+", "*"]

-- An arithmetic expression is a letter, an expression in brackets, or two expressions with an
-- operator between them.
inductive Expression : List String → Prop where
  | letter {name : String} (mem : name ∈ Expression.letters) : Expression [name]
  | group {inner : List String} (expression : Expression inner) :
      Expression ("(" :: (inner ++ [")"]))
  | join {left right : List String} {op : String} (mem : op ∈ Expression.operators)
      (first : Expression left) (second : Expression right) : Expression (left ++ op :: right)

-- What the productions of the sample without left recursion ask of the texts.
@[mk_iff]
structure ArithmeticRules (texts : String → List String → Prop) : Prop where
  sum : ∀ term, texts "T" term → ∀ rest, texts "E'" rest → texts "E" (term ++ rest)
  more : ∀ term, texts "T" term → ∀ rest, texts "E'" rest → texts "E'" ("+" :: (term ++ rest))
  last : texts "E'" []
  product : ∀ factor, texts "F" factor → ∀ rest, texts "T'" rest → texts "T" (factor ++ rest)
  moreFactors : ∀ factor, texts "F" factor → ∀ rest, texts "T'" rest →
    texts "T'" ("*" :: (factor ++ rest))
  lastFactor : texts "T'" []
  group : ∀ inner, texts "E" inner → texts "F" ("(" :: (inner ++ [")"]))
  atom : ∀ name, texts "ID" name → texts "F" name
  letter : ∀ name ∈ Expression.letters, texts "ID" [name]

theorem closed_arithmetic_iff {texts : String → List String → Prop} :
    Sample.arithmetic.grammar.Closed texts ↔ ArithmeticRules texts := by
  have hproductions : Sample.arithmetic.grammar.productions = [
      { lhs := "E", rhs := [.nonterminal "T", .nonterminal "E'"] },
      { lhs := "E'", rhs := [.terminal "+", .nonterminal "T", .nonterminal "E'"] },
      { lhs := "E'", rhs := [] },
      { lhs := "T", rhs := [.nonterminal "F", .nonterminal "T'"] },
      { lhs := "T'", rhs := [.terminal "*", .nonterminal "F", .nonterminal "T'"] },
      { lhs := "T'", rhs := [] },
      { lhs := "F", rhs := [.terminal "(", .nonterminal "E", .terminal ")"] },
      { lhs := "F", rhs := [.nonterminal "ID"] },
      { lhs := "ID", rhs := [.terminal "w"] }, { lhs := "ID", rhs := [.terminal "x"] },
      { lhs := "ID", rhs := [.terminal "y"] }, { lhs := "ID", rhs := [.terminal "z"] }] := by
    decide +kernel
  simp only [Grammar.Closed, hproductions, arithmeticRules_iff, Expression.letters,
    List.forall_mem_cons, List.not_mem_nil, false_implies, implies_true, and_true,
    forall_spelled_nil, forall_spelled_terminal, forall_spelled_nonterminal, List.append_nil]

namespace ArithmeticRules

-- What makes another expression of every one that stands in front of it.
def Tail (tokens : List String) : Prop :=
  ∀ front, Expression front → Expression (front ++ tokens)

theorem tail_nil : Tail [] := fun front h => by rwa [List.append_nil]

theorem tail_cons {op : String} (mem : op ∈ Expression.operators) {tokens rest : List String}
    (h : Expression tokens) (hrest : Tail rest) : Tail (op :: (tokens ++ rest)) := by
  intro front hfront
  simpa using hrest _ (.join mem hfront h)

-- What the nonterminals stand for: two of them for what is behind an expression.
def meaning (name : String) (tokens : List String) : Prop :=
  if name = "E'" ∨ name = "T'" then Tail tokens else Expression tokens

theorem meaning_rules : ArithmeticRules meaning where
  sum term hterm rest hrest := hrest term hterm
  more term hterm rest hrest := tail_cons (by decide) hterm hrest
  last := tail_nil
  product factor hfactor rest hrest := hrest factor hfactor
  moreFactors factor hfactor rest hrest := tail_cons (by decide) hfactor hrest
  lastFactor := tail_nil
  group inner hinner := .group hinner
  atom name hname := hname
  letter name mem := .letter mem

section Reading

variable {texts : String → List String → Prop} (h : ArithmeticRules texts)

-- What can come behind a factor: the rest of a product, and the rest of a sum.
def Trails (texts : String → List String → Prop) (tokens : List String) : Prop :=
  ∃ product sum, tokens = product ++ sum ∧ texts "T'" product ∧ texts "E'" sum

-- A factor and what can come behind it.
def Begins (texts : String → List String → Prop) (tokens : List String) : Prop :=
  ∃ factor rest, tokens = factor ++ rest ∧ texts "F" factor ∧ Trails texts rest

include h

theorem trails_nil : Trails texts [] := ⟨[], [], rfl, h.lastFactor, h.last⟩

theorem expression_of_begins {tokens : List String} (hbegins : Begins texts tokens) :
    texts "E" tokens := by
  obtain ⟨factor, _, rfl, hfactor, product, sum, rfl, hproduct, hsum⟩ := hbegins
  rw [← List.append_assoc]
  exact h.sum _ (h.product factor hfactor product hproduct) sum hsum

-- An operator goes on with the product, or it ends the product and goes on with the sum.
theorem trails_cons {op : String} (mem : op ∈ Expression.operators) {tokens : List String}
    (hbegins : Begins texts tokens) : Trails texts (op :: tokens) := by
  obtain ⟨factor, _, rfl, hfactor, product, sum, rfl, hproduct, hsum⟩ := hbegins
  rcases List.mem_pair.mp mem with rfl | rfl
  · refine ⟨[], _, rfl, h.lastFactor, ?_⟩
    rw [← List.append_assoc]
    exact h.more _ (h.product factor hfactor product hproduct) sum hsum
  · refine ⟨"*" :: (factor ++ product), sum, by simp, ?_, hsum⟩
    exact h.moreFactors factor hfactor product hproduct

-- Read from the right, every expression puts a factor in front.
theorem begins_of_expression {tokens : List String} (hexpression : Expression tokens)
    {rest : List String} (hrest : Trails texts rest) : Begins texts (tokens ++ rest) := by
  induction hexpression generalizing rest with
  | letter mem => exact ⟨_, rest, rfl, h.atom _ (h.letter _ mem), hrest⟩
  | @group inner _ ih =>
      have hinner := expression_of_begins h (ih (trails_nil h))
      rw [List.append_nil] at hinner
      exact ⟨_, rest, rfl, h.group inner hinner, hrest⟩
  | join mem _ _ ihleft ihright =>
      rw [List.append_assoc, List.cons_append]
      exact ihleft (trails_cons h mem (ihright hrest))

end Reading

-- Each nonterminal has a text.
theorem exists_text {texts : String → List String → Prop} (h : ArithmeticRules texts) :
    ∀ name ∈ Sample.arithmetic.grammar.nonterminals, ∃ tokens, texts name tokens := by
  have hnames : Sample.arithmetic.grammar.nonterminals = ["E", "E'", "T", "T'", "F", "ID"] := by
    decide +kernel
  have hname := h.letter "w" (by decide)
  have hfactor := h.atom _ hname
  have hterm := h.product _ hfactor _ h.lastFactor
  have hsum := h.sum _ hterm _ h.last
  simp only [hnames, List.forall_mem_cons]
  exact ⟨⟨_, hsum⟩, ⟨_, h.last⟩, ⟨_, hterm⟩, ⟨_, h.lastFactor⟩, ⟨_, hfactor⟩, ⟨_, hname⟩, nofun⟩

end ArithmeticRules

theorem generates_arithmetic_iff (tokens : List String) :
    Sample.arithmetic.grammar.Generates "E" tokens ↔ Expression tokens := by
  constructor
  · intro h
    exact h.induct (closed_arithmetic_iff.mpr ArithmeticRules.meaning_rules)
  · intro h
    have hrules := closed_arithmetic_iff.mp Sample.arithmetic.grammar.closed_generates
    have hbegins := hrules.begins_of_expression h hrules.trails_nil
    rw [List.append_nil] at hbegins
    exact hrules.expression_of_begins hbegins

-- What the productions of the left recursive sample ask of the texts.
@[mk_iff]
structure LeftRecursiveRules (texts : String → List String → Prop) : Prop where
  sum : ∀ front, texts "E" front → ∀ term, texts "T" term → texts "E" (front ++ "+" :: term)
  term : ∀ term, texts "T" term → texts "E" term
  product : ∀ front, texts "T" front → ∀ factor, texts "F" factor →
    texts "T" (front ++ "*" :: factor)
  factor : ∀ factor, texts "F" factor → texts "T" factor
  group : ∀ inner, texts "E" inner → texts "F" ("(" :: (inner ++ [")"]))
  atom : ∀ name, texts "ID" name → texts "F" name
  letter : ∀ name ∈ Expression.letters, texts "ID" [name]

theorem productions_leftRecursive :
    Sample.leftRecursive.grammar.productions = [
      { lhs := "E", rhs := [.nonterminal "E", .terminal "+", .nonterminal "T"] },
      { lhs := "E", rhs := [.nonterminal "T"] },
      { lhs := "T", rhs := [.nonterminal "T", .terminal "*", .nonterminal "F"] },
      { lhs := "T", rhs := [.nonterminal "F"] },
      { lhs := "F", rhs := [.terminal "(", .nonterminal "E", .terminal ")"] },
      { lhs := "F", rhs := [.nonterminal "ID"] },
      { lhs := "ID", rhs := [.terminal "w"] }, { lhs := "ID", rhs := [.terminal "x"] },
      { lhs := "ID", rhs := [.terminal "y"] }, { lhs := "ID", rhs := [.terminal "z"] }] := by
  decide +kernel

theorem closed_leftRecursive_iff {texts : String → List String → Prop} :
    Sample.leftRecursive.grammar.Closed texts ↔ LeftRecursiveRules texts := by
  simp only [Grammar.Closed, productions_leftRecursive, leftRecursiveRules_iff, Expression.letters,
    List.forall_mem_cons, List.not_mem_nil, false_implies, implies_true, and_true,
    forall_spelled_nil, forall_spelled_terminal, forall_spelled_nonterminal, List.append_nil]

namespace LeftRecursiveRules

theorem meaning_rules : LeftRecursiveRules fun _ => Expression where
  sum _ hfront _ hterm := .join (by decide) hfront hterm
  term _ hterm := hterm
  product _ hfront _ hfactor := .join (by decide) hfront hfactor
  factor _ hfactor := hfactor
  group _ hinner := .group hinner
  atom _ hname := hname
  letter _ mem := .letter mem

section Reading

variable {texts : String → List String → Prop} (h : LeftRecursiveRules texts)

-- What a term goes on to a sum.
def LeadsTerm (texts : String → List String → Prop) (front : List String) : Prop :=
  ∀ term, texts "T" term → texts "E" (front ++ term)

-- What can come in front of a factor: the front of a sum, and the front of a product.
def Leads (texts : String → List String → Prop) (front : List String) : Prop :=
  ∃ sum product, front = sum ++ product ∧ LeadsTerm texts sum ∧
    ∀ factor, texts "F" factor → texts "T" (product ++ factor)

-- A factor and what can come in front of it.
def Ends (texts : String → List String → Prop) (tokens : List String) : Prop :=
  ∃ sum term, tokens = sum ++ term ∧ LeadsTerm texts sum ∧ texts "T" term

theorem Leads.factor {front : List String} (hfront : Leads texts front) {factor : List String}
    (hfactor : texts "F" factor) : Ends texts (front ++ factor) := by
  obtain ⟨sum, product, rfl, hsum, hproduct⟩ := hfront
  exact ⟨sum, product ++ factor, by simp, hsum, hproduct factor hfactor⟩

theorem expression_of_ends {tokens : List String} (hends : Ends texts tokens) :
    texts "E" tokens := by
  obtain ⟨sum, term, rfl, hsum, hterm⟩ := hends
  exact hsum term hterm

include h

theorem leads_nil : Leads texts [] := ⟨[], [], rfl, h.term, h.factor⟩

-- An operator goes on with the product, or it ends the product and goes on with the sum.
theorem leads_append {op : String} (mem : op ∈ Expression.operators) {tokens : List String}
    (hends : Ends texts tokens) : Leads texts (tokens ++ [op]) := by
  rcases List.mem_pair.mp mem with rfl | rfl
  · refine ⟨tokens ++ ["+"], [], by simp, fun term hterm => ?_, h.factor⟩
    simpa using h.sum _ (expression_of_ends hends) term hterm
  · obtain ⟨sum, front, rfl, hsum, hfront⟩ := hends
    refine ⟨sum, front ++ ["*"], by simp, hsum, fun factor hfactor => ?_⟩
    simpa using h.product front hfront factor hfactor

-- Read from the left, every expression puts a factor behind.
theorem ends_of_expression {tokens : List String} (hexpression : Expression tokens)
    {front : List String} (hfront : Leads texts front) : Ends texts (front ++ tokens) := by
  induction hexpression generalizing front with
  | letter mem => exact hfront.factor (h.atom _ (h.letter _ mem))
  | group _ ih => exact hfront.factor (h.group _ (expression_of_ends (ih (leads_nil h))))
  | join mem _ _ ihleft ihright =>
      have hends := ihright (leads_append h mem (ihleft hfront))
      simpa using hends

end Reading

-- Each nonterminal has a text.
theorem exists_text {texts : String → List String → Prop} (h : LeftRecursiveRules texts) :
    ∀ name ∈ Sample.leftRecursive.grammar.nonterminals, ∃ tokens, texts name tokens := by
  have hnames : Sample.leftRecursive.grammar.nonterminals = ["E", "T", "F", "ID"] := by
    decide +kernel
  have hname := h.letter "w" (by decide)
  have hfactor := h.atom _ hname
  have hterm := h.factor _ hfactor
  simp only [hnames, List.forall_mem_cons]
  exact ⟨⟨_, h.term _ hterm⟩, ⟨_, hterm⟩, ⟨_, hfactor⟩, ⟨_, hname⟩, nofun⟩

end LeftRecursiveRules

theorem generates_leftRecursive_iff (tokens : List String) :
    Sample.leftRecursive.grammar.Generates "E" tokens ↔ Expression tokens := by
  constructor
  · intro h
    exact h.induct (closed_leftRecursive_iff.mpr LeftRecursiveRules.meaning_rules)
  · intro h
    have hrules := closed_leftRecursive_iff.mp Sample.leftRecursive.grammar.closed_generates
    exact LeftRecursiveRules.expression_of_ends (hrules.ends_of_expression h hrules.leads_nil)

-- What the productions of the ambiguous sample ask of the texts.
@[mk_iff]
structure AmbiguousRules (texts : String → List String → Prop) : Prop where
  sum : ∀ left, texts "E" left → ∀ right, texts "E" right → texts "E" (left ++ "+" :: right)
  product : ∀ left, texts "E" left → ∀ right, texts "E" right → texts "E" (left ++ "*" :: right)
  group : ∀ inner, texts "E" inner → texts "E" ("(" :: (inner ++ [")"]))
  atom : ∀ name, texts "ID" name → texts "E" name
  letter : ∀ name ∈ Expression.letters, texts "ID" [name]

theorem closed_ambiguous_iff {texts : String → List String → Prop} :
    Sample.ambiguous.grammar.Closed texts ↔ AmbiguousRules texts := by
  have hproductions : Sample.ambiguous.grammar.productions = [
      { lhs := "E", rhs := [.nonterminal "E", .terminal "+", .nonterminal "E"] },
      { lhs := "E", rhs := [.nonterminal "E", .terminal "*", .nonterminal "E"] },
      { lhs := "E", rhs := [.terminal "(", .nonterminal "E", .terminal ")"] },
      { lhs := "E", rhs := [.nonterminal "ID"] },
      { lhs := "ID", rhs := [.terminal "w"] }, { lhs := "ID", rhs := [.terminal "x"] },
      { lhs := "ID", rhs := [.terminal "y"] }, { lhs := "ID", rhs := [.terminal "z"] }] := by
    decide +kernel
  simp only [Grammar.Closed, hproductions, ambiguousRules_iff, Expression.letters,
    List.forall_mem_cons, List.not_mem_nil, false_implies, implies_true, and_true,
    forall_spelled_nil, forall_spelled_terminal, forall_spelled_nonterminal, List.append_nil]

namespace AmbiguousRules

theorem meaning_rules : AmbiguousRules fun _ => Expression where
  sum _ hleft _ hright := .join (by decide) hleft hright
  product _ hleft _ hright := .join (by decide) hleft hright
  group _ hinner := .group hinner
  atom _ hname := hname
  letter _ mem := .letter mem

theorem of_expression {texts : String → List String → Prop} (h : AmbiguousRules texts)
    {tokens : List String} (hexpression : Expression tokens) : texts "E" tokens := by
  induction hexpression with
  | letter mem => exact h.atom _ (h.letter _ mem)
  | group _ ih => exact h.group _ ih
  | join mem _ _ ihleft ihright =>
      rcases List.mem_pair.mp mem with rfl | rfl
      · exact h.sum _ ihleft _ ihright
      · exact h.product _ ihleft _ ihright

-- Each nonterminal has a text.
theorem exists_text {texts : String → List String → Prop} (h : AmbiguousRules texts) :
    ∀ name ∈ Sample.ambiguous.grammar.nonterminals, ∃ tokens, texts name tokens := by
  have hnames : Sample.ambiguous.grammar.nonterminals = ["E", "ID"] := by
    decide +kernel
  have hname := h.letter "w" (by decide)
  simp only [hnames, List.forall_mem_cons]
  exact ⟨⟨_, h.atom _ hname⟩, ⟨_, hname⟩, nofun⟩

end AmbiguousRules

theorem generates_ambiguous_iff (tokens : List String) :
    Sample.ambiguous.grammar.Generates "E" tokens ↔ Expression tokens := by
  constructor
  · intro h
    exact h.induct (closed_ambiguous_iff.mpr AmbiguousRules.meaning_rules)
  · intro h
    exact (closed_ambiguous_iff.mp Sample.ambiguous.grammar.closed_generates).of_expression h

namespace Sample

-- No sample has a tree that could be too large.
theorem shortest?_ne_none (s : Sample) : Lengths.shortest? s.grammar ≠ none := by
  intro hnone
  have hbase : ∀ p ∈ s.grammar.productions, p.rhs.length ≤ 3 := by cases s <;> decide +kernel
  have hlt : Nat.pow 3 s.grammar.sortedNonterminals.length < Debt.limit := by
    rw [Grammar.sortedNonterminals, Names.length_sortedSet]
    cases s <;> decide +kernel
  exact absurd (Lengths.limit_le_of_shortest? (by decide) hbase hnone) (Nat.not_le.mpr hlt)

theorem decides {s : Sample} (hproductive : s.grammar.Productive) (hstart : s.grammar.start = "E")
    {tokens : List String} (hlanguage : s.grammar.Generates "E" tokens ↔ Expression tokens) :
    s.grammar.Decides tokens (Expression tokens) :=
  hproductive.decides s.shortest?_ne_none (by rw [hstart, hlanguage])

-- The three samples of arithmetic have one language, the expressions, and whichever of them is
-- taken, both parsers accept all expressions and nothing else.
theorem decide_expressions (tokens : List String) :
    arithmetic.grammar.Decides tokens (Expression tokens) ∧
      leftRecursive.grammar.Decides tokens (Expression tokens) ∧
      ambiguous.grammar.Decides tokens (Expression tokens) := by
  refine ⟨?_, ?_, ?_⟩
  · have hrules := closed_arithmetic_iff.mp arithmetic.grammar.closed_generates
    exact decides hrules.exists_text (by decide +kernel) (generates_arithmetic_iff tokens)
  · have hrules := closed_leftRecursive_iff.mp leftRecursive.grammar.closed_generates
    exact decides hrules.exists_text (by decide +kernel) (generates_leftRecursive_iff tokens)
  · have hrules := closed_ambiguous_iff.mp ambiguous.grammar.closed_generates
    exact decides hrules.exists_text (by decide +kernel) (generates_ambiguous_iff tokens)

end Sample

end ContextFree
