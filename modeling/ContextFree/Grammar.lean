import ContextFree.Family
import ContextFree.Names
import ContextFree.Production
import ContextFree.Text.Layout
import ContextFree.Text.Words

namespace ContextFree

-- What a grammar is made of, as it was written down. Names may be repeated in
-- the two lists; what counts is which names occur.
structure Declaration where
  nonterminals : List String
  terminals : List String
  productions : List Production
  start : String

-- A use of a symbol that was never declared.
inductive UndeclaredUse where
  | leftSide (production : Production)
  | rightSide (symbol : Symbol) (production : Production)

def UndeclaredUse.text : UndeclaredUse → String
  | .leftSide p => p.lhs ++ " (left side of '" ++ p.text ++ "')"
  | .rightSide s p => s.name ++ " (in '" ++ p.text ++ "')"

-- What can be wrong with a declaration.
inductive Problem where
  -- the end marker is declared
  | reservedName
  -- these names are declared both as terminals and as nonterminals
  | declaredTwice (names : List String)
  -- the start symbol is no declared nonterminal
  | undeclaredStart (start : String)
  | undeclaredSymbols (uses : List UndeclaredUse)

def Problem.text : Problem → String
  | .reservedName => "'" ++ endMarker ++ "' is reserved for the end of input"
  | .declaredTwice names =>
    "declared as both terminal and nonterminal: " ++ ", ".intercalate names
  | .undeclaredStart start => "start symbol " ++ start ++ " is not a declared nonterminal"
  | .undeclaredSymbols uses =>
    "undeclared symbols: " ++ ", ".intercalate (uses.map UndeclaredUse.text)

-- The report on a declaration that is no grammar.
def Problem.report (problems : List Problem) : String :=
  "Malformed grammar: " ++ "; ".intercalate (problems.map Problem.text)

namespace Declaration

def Declares (d : Declaration) : Symbol → Prop
  | .terminal name => name ∈ d.terminals
  | .nonterminal name => name ∈ d.nonterminals

instance (d : Declaration) (s : Symbol) : Decidable (d.Declares s) :=
  match s with
  | .terminal name => inferInstanceAs (Decidable (name ∈ d.terminals))
  | .nonterminal name => inferInstanceAs (Decidable (name ∈ d.nonterminals))

-- The names declared as both kinds of symbol, sorted.
def declaredTwice (d : Declaration) : List String :=
  Names.sortedSet (d.nonterminals.filter (· ∈ d.terminals))

-- The undeclared symbols of one production, the left side first.
def undeclaredIn (d : Declaration) (p : Production) : List UndeclaredUse :=
  (if p.lhs ∈ d.nonterminals then [] else [.leftSide p]) ++
    (p.rhs.filter (¬ d.Declares ·)).map (.rightSide · p)

def undeclared (d : Declaration) : List UndeclaredUse := d.productions.flatMap d.undeclaredIn

def problems (d : Declaration) : List Problem :=
  (if endMarker ∈ d.nonterminals ∨ endMarker ∈ d.terminals then [.reservedName] else []) ++
    (if d.declaredTwice = [] then [] else [.declaredTwice d.declaredTwice]) ++
    (if d.start ∈ d.nonterminals then [] else [.undeclaredStart d.start]) ++
    (match d.undeclared with
      | [] => []
      | uses => [.undeclaredSymbols uses])

-- The productions by their left sides: every declared nonterminal has an entry, and a production
-- is put behind those of its left side that were declared before it.
def index (d : Declaration) : Family (List Production) :=
  d.productions.foldl (fun index p => index.change p.lhs (· ++ [p]))
    ((distinct d.nonterminals).map (·, []))

-- Whatever is in the index before, each name gets its productions behind what it has.
theorem value?_foldl_change (productions : List Production) (index : Family (List Production))
    (name : String) :
    (productions.foldl (fun index p => index.change p.lhs (· ++ [p])) index).value? name =
      (index.value? name).map (· ++ productions.filter (·.lhs = name)) := by
  induction productions generalizing index with
  | nil => simp
  | cons p rest ih =>
    rw [List.foldl_cons, ih]
    by_cases h : p.lhs = name
    · subst h
      simp [Family.value?_change_self, Function.comp_def]
    · rw [Family.value?_change_of_ne _ _ _ _ (Ne.symm h), List.filter_cons_of_neg (by simpa using h)]

theorem value?_index (d : Declaration) (name : String) :
    d.index.value? name =
      if name ∈ d.nonterminals then some (d.productions.filter (·.lhs = name)) else none := by
  simp only [index, value?_foldl_change, Family.value?_map, mem_distinct]
  split <;> rfl

end Declaration

-- A context-free grammar: a declaration without problems. It comes with its index, so that this
-- is made once.
structure Grammar extends Declaration where
  problems_eq : toDeclaration.problems = []
  byLeft : Family (List Production) := toDeclaration.index
  byLeft_eq : byLeft = toDeclaration.index := by rfl

namespace Grammar

def ofDeclaration? (d : Declaration) : Except (List Problem) Grammar :=
  match h : d.problems with
  | [] => .ok { toDeclaration := d, problems_eq := h }
  | problems => .error problems

-- The productions of a nonterminal, in declared order. An undeclared one has none.
def productionsFor (g : Grammar) (name : String) : List Production :=
  (g.byLeft.value? name).getD []

-- The declared nonterminals, each once, in order of their names.
def sortedNonterminals (g : Grammar) : List String := Names.sortedSet g.nonterminals

-- The declared terminals, each once, in order of their names.
def sortedTerminals (g : Grammar) : List String := Names.sortedSet g.terminals

def text (g : Grammar) : String := joinLines (g.productions.map Production.text)

-- A one-line description.
def summary (g : Grammar) : String :=
  "<Grammar start=" ++ g.start ++ " productions=" ++ toString g.productions.length ++ ">"

theorem endMarker_not_mem (g : Grammar) :
    endMarker ∉ g.nonterminals ∧ endMarker ∉ g.terminals := by
  have h := g.problems_eq
  simp only [Declaration.problems, List.append_eq_nil_iff] at h
  have h := h.1.1.1
  split at h
  · simp at h
  · rename_i hn
    exact not_or.mp hn

theorem start_mem (g : Grammar) : g.start ∈ g.nonterminals := by
  have h := g.problems_eq
  simp only [Declaration.problems, List.append_eq_nil_iff] at h
  have h := h.1.2
  split at h
  · assumption
  · simp at h

theorem undeclared_eq (g : Grammar) : g.undeclared = [] := by
  have h := g.problems_eq
  simp only [Declaration.problems, List.append_eq_nil_iff] at h
  have h := h.2
  split at h
  · assumption
  · simp at h

theorem lhs_mem (g : Grammar) (p : Production) (h : p ∈ g.productions) :
    p.lhs ∈ g.nonterminals := by
  have hu := List.flatMap_eq_nil_iff.mp (undeclared_eq g) p h
  simp only [Declaration.undeclaredIn, List.append_eq_nil_iff] at hu
  have hu := hu.1
  split at hu
  · assumption
  · simp at hu

theorem declares_of_mem_rhs (g : Grammar) (p : Production) (h : p ∈ g.productions)
    (s : Symbol) (hs : s ∈ p.rhs) : g.Declares s := by
  have hu := List.flatMap_eq_nil_iff.mp (undeclared_eq g) p h
  simp only [Declaration.undeclaredIn, List.append_eq_nil_iff, List.map_eq_nil_iff,
    List.filter_eq_nil_iff] at hu
  simpa using hu.2 s hs

theorem productionsFor_eq_filter (g : Grammar) (name : String) :
    g.productionsFor name = g.productions.filter (·.lhs = name) := by
  rw [productionsFor, g.byLeft_eq, Declaration.value?_index]
  by_cases hname : name ∈ g.nonterminals
  · rw [if_pos hname]
    rfl
  · have hnone : g.productions.filter (·.lhs = name) = [] := by
      simp only [List.filter_eq_nil_iff, decide_eq_true_eq]
      rintro p mem rfl
      exact hname (g.lhs_mem p mem)
    rw [if_neg hname, hnone]
    rfl

theorem mem_productionsFor (g : Grammar) (name : String) (p : Production) :
    p ∈ g.productionsFor name ↔ p ∈ g.productions ∧ p.lhs = name := by
  rw [productionsFor_eq_filter, List.mem_filter, decide_eq_true_eq]

end Grammar

end ContextFree
