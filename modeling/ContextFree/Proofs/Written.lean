import ContextFree.Journal
import ContextFree.Proofs.Declared
import ContextFree.Proofs.Distinct
import ContextFree.Proofs.Text.Words
import Mathlib.Data.List.Forall2

namespace ContextFree

-- What a written grammar says, label by label.
structure Reading where
  nonterminals : List String
  terminals : List String
  -- each left side with the labels of its alternatives
  rules : List (String × List (List String))
  start : String

namespace Reading

-- The labels of all alternatives, in order.
def labels (r : Reading) : List String := r.rules.flatMap fun rule => rule.2.flatten

def symbol (r : Reading) (label : String) : Symbol :=
  if label ∈ r.nonterminals then .nonterminal label else .terminal label

def productions (r : Reading) : List Production :=
  r.rules.flatMap fun rule =>
    rule.2.map fun labels => { lhs := rule.1, rhs := labels.map r.symbol }

-- Everything that is wrong with it can be seen from the labels.
def Malformed (r : Reading) : Prop :=
  (endMarker ∈ r.nonterminals ∨ endMarker ∈ r.terminals ∨ endMarker ∈ r.labels) ∨
    (∃ label ∈ r.nonterminals, label ∈ r.terminals) ∨
    r.start ∉ r.nonterminals ∨ ∃ rule ∈ r.rules, rule.1 ∉ r.nonterminals

-- A label of an alternative that is in neither list.
def Undeclared (r : Reading) (label : String) : Prop :=
  label ∈ r.labels ∧ label ∉ r.nonterminals ∧ label ∉ r.terminals

end Reading

-- A left side, and its alternatives between the bars.
def ReadsRule (rule : String × String) (read : String × List (List String)) : Prop :=
  Trimmed rule.1 read.1 ∧ ∃ pieces, Pieces '|' rule.2 pieces ∧
    List.Forall₂ (fun piece labels => Labelled piece.toList labels) pieces read.2

structure WrittenGrammar.Reads (w : WrittenGrammar) (r : Reading) : Prop where
  nonterminals : Labelled w.nonterminals.toList r.nonterminals
  terminals : Labelled w.terminals.toList r.terminals
  rules : List.Forall₂ ReadsRule w.rules r.rules
  start : Trimmed w.start r.start

-- The labels that are in neither list, each where it occurs first.
def undeclaredOf (nonterminals terminals labels : List String) : List String :=
  distinct (labels.filter fun label => label ∉ nonterminals ∧ label ∉ terminals)

theorem undeclaredOf_append_singleton (nonterminals terminals labels : List String)
    (last : String) :
    undeclaredOf nonterminals terminals (labels ++ [last]) =
      if last ∈ nonterminals ∨ last ∈ terminals ++ undeclaredOf nonterminals terminals labels then
        undeclaredOf nonterminals terminals labels
      else undeclaredOf nonterminals terminals labels ++ [last] := by
  have hknown : (last ∈ labels.filter fun label => label ∉ nonterminals ∧ label ∉ terminals) ↔
      last ∈ undeclaredOf nonterminals terminals labels := (mem_distinct ..).symm
  rw [undeclaredOf, List.filter_append]
  by_cases hdeclared : last ∈ nonterminals ∨ last ∈ terminals
  · have hnot : ¬ (last ∉ nonterminals ∧ last ∉ terminals) := by
      rwa [← not_or, not_not]
    rw [if_pos (hdeclared.imp_right (List.mem_append_left _)), List.filter_cons,
      decide_eq_false hnot]
    simp [undeclaredOf]
  · have hnew := not_or.mp hdeclared
    rw [List.filter_singleton, decide_eq_true hnew, cond_true, distinct_append_singleton]
    simp only [List.mem_append, hnew, false_or, hknown]
    rfl

theorem forall₂_map_eq_iff {f : α → β} {as : List α} {bs : List β} :
    List.Forall₂ (fun a b => f a = b) as bs ↔ as.map f = bs := by
  rw [← List.forall₂_map_left_iff, List.forall₂_eq_eq_eq]

theorem readsRule_iff {rule : String × String} {read : String × List (List String)} :
    ReadsRule rule read ↔ (trimBlanks rule.1, (splitAtMark '|' rule.2).map words) = read := by
  simp only [ReadsRule, trimmed_iff, pieces_iff, exists_eq_left', labelled_iff, forall₂_map_eq_iff,
    Prod.ext_iff]

namespace Reading

variable {r : Reading} {label : String}

theorem flatMap_rhs (r : Reading) : r.productions.flatMap (·.rhs) = r.labels.map r.symbol := by
  simp only [productions, labels, List.flatMap_assoc, List.flatMap_map, List.map_flatMap,
    List.map_flatten]
  rfl

theorem terminal?_symbol : (r.symbol label).terminal? =
    if label ∈ r.nonterminals then none else some label := by
  rw [symbol]
  split <;> rfl

end Reading

namespace WrittenGrammar

variable {w : WrittenGrammar} {label : String}

def reading (w : WrittenGrammar) : Reading where
  nonterminals := words w.nonterminals
  terminals := words w.terminals
  rules := w.rules.map fun rule => (trimBlanks rule.1, (splitAtMark '|' rule.2).map words)
  start := trimBlanks w.start

theorem forall₂_readsRule_iff {reads : List (String × List (List String))} :
    List.Forall₂ ReadsRule w.rules reads ↔ w.reading.rules = reads := by
  have hrule : ReadsRule = fun rule read =>
      (trimBlanks rule.1, (splitAtMark '|' rule.2).map words) = read := by
    funext rule read
    exact propext readsRule_iff
  rw [hrule, forall₂_map_eq_iff, reading]

-- There is one way to read a written grammar.
theorem reads_iff {r : Reading} : w.Reads r ↔ r = w.reading := by
  constructor
  · intro h
    have hnonterminals := labelled_iff.mp h.nonterminals
    have hterminals := labelled_iff.mp h.terminals
    have hrules := forall₂_readsRule_iff.mp h.rules
    have hstart := trimmed_iff.mp h.start
    cases r
    exact (Reading.mk.injEq ..).mpr ⟨hnonterminals.symm, hterminals.symm, hrules.symm, hstart.symm⟩
  · rintro rfl
    exact ⟨labelled_iff.mpr rfl, labelled_iff.mpr rfl, forall₂_readsRule_iff.mpr rfl,
      trimmed_iff.mpr rfl⟩

theorem productions_eq (w : WrittenGrammar) : w.productions = w.reading.productions := by
  simp only [productions, Reading.productions, reading, List.flatMap_map, List.map_map]
  rfl

theorem undeclaredLabels_eq (w : WrittenGrammar) :
    w.undeclaredLabels =
      undeclaredOf w.reading.nonterminals w.reading.terminals w.reading.labels := by
  rw [undeclaredOf, undeclaredLabels, productions_eq, Reading.flatMap_rhs, List.filterMap_map,
    ← List.filterMap_eq_filter]
  have hterminals : words w.terminals = w.reading.terminals := rfl
  congr 2
  funext label
  simp only [Function.comp_apply, Reading.terminal?_symbol, Option.guard, hterminals]
  by_cases h : label ∈ w.reading.nonterminals <;> simp [h, Option.filter]

theorem mem_undeclaredLabels : label ∈ w.undeclaredLabels ↔ w.reading.Undeclared label := by
  rw [undeclaredLabels_eq, undeclaredOf, mem_distinct, List.mem_filter, Reading.Undeclared]
  simp only [decide_eq_true_eq]

-- Every left side has an alternative, so none of them is passed over.
theorem forall_lhs_iff {P : String → Prop} :
    (∀ p ∈ w.reading.productions, P p.lhs) ↔ ∀ rule ∈ w.reading.rules, P rule.1 := by
  have hne : ∀ rule ∈ w.reading.rules, rule.2 ≠ [] := by
    intro rule hrule
    obtain ⟨rule, -, rfl⟩ := List.mem_map.mp hrule
    simpa using (pieces_splitAtMark '|' rule.2).ne
  simp only [Reading.productions, List.mem_flatMap, List.mem_map]
  constructor
  · intro h rule hrule
    obtain ⟨labels, hlabels⟩ := List.exists_mem_of_ne_nil _ (hne rule hrule)
    exact h _ ⟨rule, hrule, labels, hlabels, rfl⟩
  · rintro h p ⟨rule, hrule, labels, -, rfl⟩
    exact h rule hrule

-- No right-hand side has a symbol that is not declared in the end.
theorem declares_rhs {p : Production} (mem : p ∈ w.reading.productions) :
    ∀ s ∈ p.rhs, w.declaration.Declares s := by
  intro s hs
  have hlabel : s ∈ w.reading.productions.flatMap (·.rhs) := List.mem_flatMap.mpr ⟨p, mem, hs⟩
  rw [Reading.flatMap_rhs] at hlabel
  obtain ⟨label, hmem, rfl⟩ := List.mem_map.mp hlabel
  rw [Reading.symbol]
  split
  · assumption
  · rename_i hnonterminal
    by_cases hterminal : label ∈ w.reading.terminals
    · exact List.mem_append_left _ hterminal
    · exact List.mem_append_right _ (mem_undeclaredLabels.mpr ⟨hmem, hnonterminal, hterminal⟩)

-- The terminals in the end.
theorem mem_terminals : label ∈ w.declaration.terminals ↔
    label ∈ w.reading.terminals ∨ label ∈ w.reading.labels ∧ label ∉ w.reading.nonterminals := by
  have hterminals : w.declaration.terminals = w.reading.terminals ++ w.undeclaredLabels := rfl
  rw [hterminals, List.mem_append, mem_undeclaredLabels, Reading.Undeclared]
  by_cases h : label ∈ w.reading.terminals <;> simp [h]

theorem problems_eq_nil_iff : w.declaration.problems = [] ↔ ¬ w.reading.Malformed := by
  have hnonterminals : w.declaration.nonterminals = w.reading.nonterminals := rfl
  have hstart : w.declaration.start = w.reading.start := rfl
  have hproductions : w.declaration.productions = w.reading.productions := productions_eq w
  have hmarker : (endMarker ∉ w.reading.nonterminals ∧ endMarker ∉ w.declaration.terminals) ↔
      ¬ (endMarker ∈ w.reading.nonterminals ∨ endMarker ∈ w.reading.terminals ∨
        endMarker ∈ w.reading.labels) := by
    rw [mem_terminals]
    by_cases h : endMarker ∈ w.reading.nonterminals <;> simp [h]
  have hkinds : (∀ label ∈ w.reading.nonterminals, label ∉ w.declaration.terminals) ↔
      ¬ ∃ label ∈ w.reading.nonterminals, label ∈ w.reading.terminals := by
    simp only [mem_terminals, not_exists, not_and, not_or, not_not]
    exact forall₂_congr fun label h => ⟨fun hall => hall.1, fun hno => ⟨hno, fun _ => h⟩⟩
  have huses : (∀ p ∈ w.reading.productions, p.lhs ∈ w.reading.nonterminals ∧
      ∀ s ∈ p.rhs, w.declaration.Declares s) ↔
      ¬ ∃ rule ∈ w.reading.rules, rule.1 ∉ w.reading.nonterminals := by
    simp only [not_exists, not_and, not_not]
    rw [← forall_lhs_iff]
    exact forall₂_congr fun p mem => ⟨fun h => h.1, fun h => ⟨h, declares_rhs mem⟩⟩
  rw [Declaration.problems_eq_nil_iff, hnonterminals, hstart, hproductions, hmarker, hkinds, huses,
    Reading.Malformed]
  simp only [not_or, not_not, and_assoc]

end WrittenGrammar

-- The rules as they are taken in one label after the other. The terminals are not the same all
-- along: an undeclared label is one from where it is met first.
structure Intake where
  terminals : List String
  reported : List String

namespace Intake

def takeLabel (nonterminals : List String) (label : String) : StateM Intake Symbol := do
  if label ∈ nonterminals then
    return .nonterminal label
  if label ∉ (← get).terminals then
    modify fun i => { terminals := i.terminals ++ [label], reported := i.reported ++ [label] }
  return .terminal label

def learn (nonterminals : List String) (i : Intake) (label : String) : Intake :=
  if label ∈ nonterminals ∨ label ∈ i.terminals then i
  else { terminals := i.terminals ++ [label], reported := i.reported ++ [label] }

theorem run_takeLabel (nonterminals : List String) (label : String) (i : Intake) :
    (takeLabel nonterminals label).run i =
      (if label ∈ nonterminals then .nonterminal label else .terminal label,
        i.learn nonterminals label) := by
  rw [takeLabel, learn]
  by_cases hnonterminal : label ∈ nonterminals
  · simp [hnonterminal]
    rfl
  · by_cases hterminal : label ∈ i.terminals <;> simp [hnonterminal, hterminal] <;> rfl

-- One after the other, if each leaves behind what `next` says whatever it finds.
theorem run_mapM {f : α → StateM Intake β} {g : α → β} {next : Intake → α → Intake}
    (hrun : ∀ a i, (f a).run i = (g a, next i a)) (items : List α) (i : Intake) :
    (items.mapM f).run i = (items.map g, items.foldl next i) := by
  induction items generalizing i with
  | nil => rfl
  | cons a items ih =>
      simp only [List.mapM_cons, StateT.run_bind, StateT.run_pure, hrun, ih]
      rfl

-- What is known is what is declared and what has been reported.
theorem foldl_learn (nonterminals terminals labels : List String) :
    labels.foldl (learn nonterminals) { terminals, reported := [] } =
      { terminals := terminals ++ undeclaredOf nonterminals terminals labels
        reported := undeclaredOf nonterminals terminals labels } := by
  induction labels using List.reverseRecOn with
  | nil => simp [undeclaredOf, distinct, merge]
  | append_singleton labels last ih =>
      rw [List.foldl_append, ih, List.foldl_cons, List.foldl_nil, learn,
        undeclaredOf_append_singleton]
      split
      · rfl
      · rw [List.append_assoc]

end Intake

namespace WrittenGrammar

variable {w : WrittenGrammar}

def takeAlternative (w : WrittenGrammar) (lhs alternative : String) :
    StateM Intake Production := do
  let rhs ← (words alternative).mapM (Intake.takeLabel (words w.nonterminals))
  return { lhs := trimBlanks lhs, rhs }

def takeRules (w : WrittenGrammar) : StateM Intake (List Production) := do
  let taken ← w.rules.mapM fun rule => (splitAtMark '|' rule.2).mapM (w.takeAlternative rule.1)
  return taken.flatten

theorem run_takeAlternative (w : WrittenGrammar) (lhs alternative : String) (i : Intake) :
    (w.takeAlternative lhs alternative).run i =
      ({ lhs := trimBlanks lhs, rhs := (words alternative).map w.symbol },
        (words alternative).foldl (Intake.learn (words w.nonterminals)) i) := by
  rw [takeAlternative, StateT.run_bind, Intake.run_mapM (Intake.run_takeLabel _)]
  rfl

-- Taken in one after the other, the rules give the productions, and the undeclared labels are
-- what has been reported then.
theorem run_takeRules (w : WrittenGrammar) :
    w.takeRules.run { terminals := words w.terminals, reported := [] } =
      (w.productions,
        { terminals := w.declaration.terminals, reported := w.undeclaredLabels }) := by
  have hrule : ∀ (rule : String × String) (i : Intake),
      ((splitAtMark '|' rule.2).mapM (w.takeAlternative rule.1)).run i =
        (w.ruleProductions rule, ((splitAtMark '|' rule.2).flatMap words).foldl
          (Intake.learn (words w.nonterminals)) i) := by
    intro rule i
    rw [Intake.run_mapM (w.run_takeAlternative rule.1), List.foldl_flatMap]
    rfl
  have hlabels : w.reading.labels =
      w.rules.flatMap fun rule => (splitAtMark '|' rule.2).flatMap words := by
    simp only [Reading.labels, reading, List.flatMap_def, List.map_map]
    rfl
  rw [takeRules, StateT.run_bind, Intake.run_mapM hrule, ← List.foldl_flatMap, ← hlabels,
    Intake.foldl_learn, declaration, undeclaredLabels_eq]
  rfl

-- What a written grammar becomes, and what is reported on the way.
theorem exists_reading (w : WrittenGrammar) :
    ∃ r : Reading, (∀ read, w.Reads read ↔ read = r) ∧
      ((∃ problems, w.grammar? = .error problems) ↔ r.Malformed) ∧
      (∀ g, w.grammar? = .ok g →
        g.productions = r.productions ∧ g.start = r.start ∧
        (∀ label, label ∈ g.nonterminals ↔ label ∈ r.nonterminals) ∧
        (∀ label, label ∈ g.terminals ↔
          label ∈ r.terminals ∨ label ∈ r.labels ∧ label ∉ r.nonterminals) ∧
        ∀ name, g.productionsFor name = r.productions.filter (·.lhs = name)) ∧
      ∃ undeclared,
        w.takeRules.run { terminals := r.terminals, reported := [] } =
          (r.productions, { terminals := r.terminals ++ undeclared, reported := undeclared }) ∧
        Journal.ofWritten w = undeclared.map (fun label =>
          { reporter := .grammar
            message := "treating undeclared label " ++ quoted label ++ " as a terminal" }) ∧
        undeclared.Nodup ∧ (∀ label, label ∈ undeclared ↔ r.Undeclared label) ∧
        undeclared.Pairwise fun a b => r.labels.idxOf a < r.labels.idxOf b := by
  refine ⟨w.reading, fun _ => reads_iff, ?refused, ?made, w.undeclaredLabels, ?taken, rfl, ?once,
    fun _ => mem_undeclaredLabels, ?order⟩
  case refused =>
    rw [grammar?, Grammar.exists_error_iff, ne_eq, problems_eq_nil_iff, not_not]
  case made =>
    intro g hok
    have hproductions : w.declaration.productions = w.reading.productions := productions_eq w
    simp only [Grammar.productionsFor_eq_filter]
    rw [Grammar.toDeclaration_of_ok hok, hproductions]
    exact ⟨rfl, rfl, fun _ => .rfl, fun _ => mem_terminals, fun _ => rfl⟩
  case taken =>
    rw [← productions_eq]
    exact run_takeRules w
  case once => exact nodup_distinct _
  case order =>
    rw [undeclaredLabels_eq]
    exact pairwise_idxOf_distinct_filter _ _

end WrittenGrammar

end ContextFree
