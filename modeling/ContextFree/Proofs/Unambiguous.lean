import ContextFree.Proofs.Arithmetic
import ContextFree.Proofs.Derivation.Shapes

namespace ContextFree

-- No tokens have two derivation trees.
def Grammar.Unambiguous (g : Grammar) : Prop :=
  ∀ (tokens : List String) (t u : Tree), t.Derivation g g.start tokens →
    u.Derivation g g.start tokens → t = u

-- Then the chart has the tree that the search finds, and no other.
theorem Grammar.Unambiguous.parses {g : Grammar} (h : g.Unambiguous) (hproductive : g.Productive)
    (hshortest : Lengths.shortest? g ≠ none) (tokens : List String) :
    ∃ r, Backtracking.parse g tokens = .ok r ∧ Chart.parse g tokens = .ok r.toList := by
  obtain ⟨trees, hparse, htrees⟩ := Chart.exists_parse g tokens
  obtain ⟨r, hr⟩ := Backtracking.exists_parse_of_productive hshortest hproductive tokens
  refine ⟨r, hr, ?_⟩
  cases r with
  | none =>
      have hnone := Backtracking.not_exists_of_parse hr
      rw [← Chart.ne_nil_iff htrees, not_not] at hnone
      rw [hparse, hnone, Option.toList_none]
  | some t =>
      have ht := Backtracking.derivation_of_parse hr
      rw [hparse, chart_eq_singleton htrees ht fun u hu => h tokens u t hu ht, Option.toList_some]

-- The nonterminals of the left recursive sample, each of which stands inside of the one above.
inductive Level where
  | sum
  | term
  | factor
  | letter

namespace Level

def symbol : Level → String
  | .sum => "E"
  | .term => "T"
  | .factor => "F"
  | .letter => "ID"

-- The operator of a level, and the level of its right operand.
def below? : Level → Option (String × Level)
  | .sum => some ("+", .term)
  | .term => some ("*", .factor)
  | .factor => none
  | .letter => none

-- The operators that may stand in a text of the level outside of all brackets.
def operators : Level → List String
  | .sum => ["+", "*"]
  | .term => ["*"]
  | .factor => []
  | .letter => []

theorem symbol_inj {level other : Level} (h : level.symbol = other.symbol) : level = other := by
  cases level <;> cases other <;> simp [symbol] at h ⊢

theorem mem_operators {level lower : Level} {op : String} (h : level.below? = some (op, lower)) :
    level.operators = op :: lower.operators ∧ op ∉ lower.operators := by
  cases level <;> simp only [below?, Option.some.injEq, Prod.mk.injEq, reduceCtorEq] at h <;>
    obtain ⟨rfl, rfl⟩ := h <;> decide

end Level

-- The trees of the left recursive sample, by the level at the top.
inductive Built : Level → Tree → Prop where
  | join {upper lower : Level} {op : String} {front operand : Tree}
      (below : upper.below? = some (op, lower)) (left : Built upper front)
      (right : Built lower operand) : Built upper (.node upper.symbol [front, .leaf op, operand])
  | single {upper lower : Level} {op : String} {operand : Tree}
      (below : upper.below? = some (op, lower)) (only : Built lower operand) :
      Built upper (.node upper.symbol [operand])
  | group {inner : Tree} (sum : Built .sum inner) :
      Built .factor (.node "F" [.leaf "(", inner, .leaf ")"])
  | atom {name : Tree} (letter : Built .letter name) : Built .factor (.node "F" [name])
  | letter {name : String} (mem : name ∈ Expression.letters) :
      Built .letter (.node "ID" [.leaf name])

-- The trees of the sample are of these forms.
theorem builds_leftRecursive :
    Sample.leftRecursive.grammar.Builds fun name t =>
      ∀ level : Level, level.symbol = name → Built level t := by
  simp only [Grammar.Builds, productions_leftRecursive, List.forall_mem_cons, List.not_mem_nil,
    false_implies, implies_true, and_true, forall_treesFor_nil, forall_treesFor_terminal,
    forall_treesFor_nonterminal]
  refine ⟨?_, ?_, ?_, ?_, ?_, ?_, ?letters⟩
  · intro front hfront operand hoperand level h
    obtain rfl : level = .sum := Level.symbol_inj h
    exact .join rfl (hfront .sum rfl) (hoperand .term rfl)
  · intro operand hoperand level h
    obtain rfl : level = .sum := Level.symbol_inj h
    exact .single rfl (hoperand .term rfl)
  · intro front hfront operand hoperand level h
    obtain rfl : level = .term := Level.symbol_inj h
    exact .join rfl (hfront .term rfl) (hoperand .factor rfl)
  · intro operand hoperand level h
    obtain rfl : level = .term := Level.symbol_inj h
    exact .single rfl (hoperand .factor rfl)
  · intro inner hinner level h
    obtain rfl : level = .factor := Level.symbol_inj h
    exact .group (hinner .sum rfl)
  · intro name hname level h
    obtain rfl : level = .factor := Level.symbol_inj h
    exact .atom (hname .letter rfl)
  case letters =>
    refine ⟨?_, ?_, ?_, ?_⟩
    all_goals
      intro level h
      obtain rfl : level = .letter := Level.symbol_inj h
      exact .letter (by decide)

namespace Level

-- What stands in front of a text does not end in an operator that the text could go on from.
def Apart (level : Level) (before : List String) : Prop :=
  ∀ op ∈ before.getLast?, op ∉ level.operators

variable {level lower : Level} {op : String} {before : List String}

theorem apart_append_iff : level.Apart (before ++ [op]) ↔ op ∉ level.operators := by
  simp [Apart]

theorem Apart.below (h : level.Apart before) (below : level.below? = some (op, lower)) :
    lower.Apart before := by
  intro other hother hm
  apply h other hother
  rw [(mem_operators below).1]
  exact List.mem_cons_of_mem op hm

end Level

namespace Built

variable {level upper lower : Level} {op : String} {t : Tree}

theorem cases_of_below (below : upper.below? = some (op, lower)) (h : Built upper t) :
    (∃ front operand, t = .node upper.symbol [front, .leaf op, operand] ∧ Built upper front ∧
      Built lower operand) ∨
    ∃ operand, t = .node upper.symbol [operand] ∧ Built lower operand := by
  cases h with
  | join below' left right =>
      obtain ⟨rfl, rfl⟩ := Prod.mk.inj (Option.some.inj (below.symm.trans below'))
      exact .inl ⟨_, _, rfl, left, right⟩
  | single below' only =>
      obtain ⟨rfl, rfl⟩ := Prod.mk.inj (Option.some.inj (below.symm.trans below'))
      exact .inr ⟨_, rfl, only⟩
  | group sum => simp [Level.below?] at below
  | atom letter => simp [Level.below?] at below
  | letter mem => simp [Level.below?] at below

theorem exists_of_letter (h : Built .letter t) :
    ∃ name ∈ Expression.letters, t = .node "ID" [.leaf name] := by
  cases h with
  | join below left right => simp [Level.below?] at below
  | single below only => simp [Level.below?] at below
  | letter mem => exact ⟨_, mem, rfl⟩

theorem cases_of_factor (h : Built .factor t) :
    (∃ inner, t = .node "F" [.leaf "(", inner, .leaf ")"] ∧ Built .sum inner) ∨
    ∃ name ∈ Expression.letters, t = .node "F" [.node "ID" [.leaf name]] := by
  cases h with
  | join below left right => simp [Level.below?] at below
  | single below only => simp [Level.below?] at below
  | group sum => exact .inl ⟨_, rfl, sum⟩
  | atom letter =>
      obtain ⟨name, mem, rfl⟩ := letter.exists_of_letter
      exact .inr ⟨name, mem, rfl⟩

end Built

-- The last tokens tell the tree: no other one of the level ends in the same tokens, whatever
-- stands in front, as long as it is apart from the tree.
def Told (level : Level) (t : Tree) : Prop :=
  ∀ (u : Tree) (before others : List String), Built level u → level.Apart before →
    level.Apart others → before ++ t.yield = others ++ u.yield → t = u ∧ before = others

section Reading

variable {upper lower : Level} {op : String} {front operand inner : Tree}

-- The right operand is found first, and its operator shows where the left operand ends.
theorem told_join (below : upper.below? = some (op, lower)) (hfront : Told upper front)
    (hoperand : Told lower operand) :
    Told upper (.node upper.symbol [front, .leaf op, operand]) := by
  intro u before others hu hbefore hothers h
  obtain ⟨hoperators, hop⟩ := Level.mem_operators below
  have hapart (tokens : List String) : lower.Apart (tokens ++ [op]) :=
    Level.apart_append_iff.mpr hop
  rcases hu.cases_of_below below with ⟨left, right, rfl, hleft, hright⟩ | ⟨right, rfl, hright⟩
  · have hlast : before ++ front.yield ++ [op] ++ operand.yield =
        others ++ left.yield ++ [op] ++ right.yield := by
      simpa using h
    obtain ⟨rfl, hrest⟩ := hoperand _ _ _ hright (hapart _) (hapart _) hlast
    obtain ⟨rfl, hsame⟩ := hfront _ _ _ hleft hbefore hothers (List.append_cancel_right hrest)
    exact ⟨rfl, hsame⟩
  · have hlast : before ++ front.yield ++ [op] ++ operand.yield = others ++ right.yield := by
      simpa using h
    obtain ⟨-, rfl⟩ := hoperand _ _ _ hright (hapart _) (hothers.below below) hlast
    exact absurd (Level.apart_append_iff.mp hothers) (by simp [hoperators])

theorem told_single (below : upper.below? = some (op, lower)) (hoperand : Told lower operand) :
    Told upper (.node upper.symbol [operand]) := by
  intro u before others hu hbefore hothers h
  obtain ⟨hoperators, hop⟩ := Level.mem_operators below
  rcases hu.cases_of_below below with ⟨left, right, rfl, hleft, hright⟩ | ⟨right, rfl, hright⟩
  · have hlast : before ++ operand.yield = others ++ left.yield ++ [op] ++ right.yield := by
      simpa using h
    obtain ⟨-, rfl⟩ := hoperand _ _ _ hright (hbefore.below below)
      (Level.apart_append_iff.mpr hop) hlast
    exact absurd (Level.apart_append_iff.mp hbefore) (by simp [hoperators])
  · have hlast : before ++ operand.yield = others ++ right.yield := by simpa using h
    obtain ⟨rfl, hsame⟩ := hoperand _ _ _ hright (hbefore.below below) (hothers.below below) hlast
    exact ⟨rfl, hsame⟩

-- The opening bracket is the one that the text inside begins behind, so there is no need to
-- count the brackets.
theorem told_group (hinner : Told .sum inner) :
    Told .factor (.node "F" [.leaf "(", inner, .leaf ")"]) := by
  intro u before others hu hbefore hothers h
  have hopen (tokens : List String) : Level.sum.Apart (tokens ++ ["("]) :=
    Level.apart_append_iff.mpr (by decide)
  rcases hu.cases_of_factor with ⟨inner', rfl, hinner'⟩ | ⟨name, mem, rfl⟩
  · have hall : before ++ ["("] ++ inner.yield ++ [")"] =
        others ++ ["("] ++ inner'.yield ++ [")"] := by
      simpa using h
    obtain ⟨rfl, hsame⟩ := hinner _ _ _ hinner' (hopen _) (hopen _) (List.append_cancel_right hall)
    exact ⟨rfl, List.append_cancel_right hsame⟩
  · have hlast : before ++ ["("] ++ inner.yield ++ [")"] = others ++ [name] := by simpa using h
    obtain ⟨-, rfl⟩ := List.append_singleton_inj.mp hlast
    exact absurd mem (by decide)

theorem told_letter (name : String) : Told .letter (.node "ID" [.leaf name]) := by
  intro u before others hu hbefore hothers h
  obtain ⟨name', -, rfl⟩ := hu.exists_of_letter
  have hlast : before ++ [name] = others ++ [name'] := by simpa using h
  obtain ⟨hsame, rfl⟩ := List.append_singleton_inj.mp hlast
  exact ⟨rfl, hsame⟩

theorem told_atom {name : String} (mem : name ∈ Expression.letters) :
    Told .factor (.node "F" [.node "ID" [.leaf name]]) := by
  intro u before others hu hbefore hothers h
  rcases hu.cases_of_factor with ⟨inner, rfl, hinner⟩ | ⟨name', -, rfl⟩
  · have hlast : before ++ [name] = others ++ ["("] ++ inner.yield ++ [")"] := by simpa using h
    obtain ⟨-, rfl⟩ := List.append_singleton_inj.mp hlast
    exact absurd mem (by decide)
  · have hlast : before ++ [name] = others ++ [name'] := by simpa using h
    obtain ⟨hsame, rfl⟩ := List.append_singleton_inj.mp hlast
    exact ⟨rfl, hsame⟩

end Reading

theorem Built.told {level : Level} {t : Tree} (h : Built level t) : Told level t := by
  induction h with
  | join below left right ihleft ihright => exact told_join below ihleft ihright
  | single below only ih => exact told_single below ih
  | group sum ih => exact told_group ih
  | atom letter ih =>
      obtain ⟨name, mem, rfl⟩ := letter.exists_of_letter
      exact told_atom mem
  | letter mem => exact told_letter _

theorem unambiguous_leftRecursive : Sample.leftRecursive.grammar.Unambiguous := by
  have hstart : Sample.leftRecursive.grammar.start = Level.sum.symbol := by decide +kernel
  intro tokens t u ht hu
  rw [hstart] at ht hu
  have hbuilt := ht.valid.induct builds_leftRecursive ht.root_eq .sum rfl
  have hbuilt' := hu.valid.induct builds_leftRecursive hu.root_eq .sum rfl
  have hyield : [] ++ t.yield = [] ++ u.yield := by rw [ht.yield_eq, hu.yield_eq]
  have hempty : Level.sum.Apart [] := fun op hop => by simp at hop
  exact (hbuilt.told u [] [] hbuilt' hempty hempty hyield).1

namespace Sample

-- The left recursive sample is not ambiguous, and both parsers that take it show that: the
-- chart has one tree at most, and it is the one that the search finds.
theorem one_tree_leftRecursive (tokens : List String) :
    ∃ trees r, Chart.parse leftRecursive.grammar tokens = .ok trees ∧
      Backtracking.parse leftRecursive.grammar tokens = .ok r ∧ trees.length ≤ 1 ∧
      (∀ t, trees = [t] ↔ r = some t) ∧
      ∀ t u : Tree, t.Derivation leftRecursive.grammar leftRecursive.grammar.start tokens →
        u.Derivation leftRecursive.grammar leftRecursive.grammar.start tokens → t = u := by
  have hrules := closed_leftRecursive_iff.mp leftRecursive.grammar.closed_generates
  obtain ⟨r, hr, htrees⟩ := unambiguous_leftRecursive.parses hrules.exists_text
    leftRecursive.shortest?_ne_none tokens
  refine ⟨r.toList, r, htrees, hr, ?_, fun t => ?_, unambiguous_leftRecursive tokens⟩
  · cases r <;> simp
  · cases r <;> simp

end Sample

end ContextFree
