import ContextFree.Predictive.Machine
import ContextFree.Proofs.Analysis.Follow

namespace ContextFree

namespace Table

theorem productionsAt_of_cell {t : Table} {nonterminal terminal : String} {cell : Cell}
    (h : t.cell? nonterminal terminal = some cell) :
    t.productionsAt nonterminal terminal = cell.productions := by
  simp [productionsAt, h]

theorem productionsAt_eq_nil {t : Table} {nonterminal terminal : String}
    (h : t.cell? nonterminal terminal = none) : t.productionsAt nonterminal terminal = [] := by
  simp [productionsAt, h]

-- Without conflicts a pair of nonterminal and lookahead has one production at most.
theorem length_productionsAt_le {t : Table} (h : t.conflicts = []) (nonterminal terminal : String) :
    (t.productionsAt nonterminal terminal).length ≤ 1 := by
  cases hc : t.cell? nonterminal terminal with
  | none => simp [productionsAt_eq_nil hc]
  | some cell =>
      rw [productionsAt_of_cell hc]
      have hn := List.filter_eq_nil_iff.mp h cell (List.mem_of_find?_eq_some hc)
      simpa [Cell.isConflict] using hn

theorem productionsAt_eq_singleton {t : Table} (h : t.conflicts = [])
    {nonterminal terminal : String} {p : Production}
    (hp : p ∈ t.productionsAt nonterminal terminal) : t.productionsAt nonterminal terminal = [p] := by
  have hle := length_productionsAt_le h nonterminal terminal
  match hcell : t.productionsAt nonterminal terminal with
  | [] => simp [hcell] at hp
  | [q] => simpa [hcell, eq_comm] using hp
  | _ :: _ :: _ => simp [hcell] at hle

section Sets

variable {g : Grammar} {firsts : FirstSets} {follows : FollowSets} {row column : String}
  {p : Production}

-- The productions of a row that call for the column, each where it occurs first.
def callers (g : Grammar) (firsts : FirstSets) (follows : FollowSets) (row column : String) :
    List Production :=
  distinct (g.productions.filter fun p => p.lhs = row ∧ column ∈ lookahead firsts follows p)

theorem mem_callers : p ∈ callers g firsts follows row column ↔
    p ∈ g.productions ∧ p.lhs = row ∧ column ∈ lookahead firsts follows p := by
  simp [callers, mem_distinct]

theorem mem_columns : column ∈ (ofSets g firsts follows).terminals ↔
    column ∈ g.terminals ∨ column = endMarker := by
  simp [ofSets, Grammar.sortedTerminals, Names.mem_sortedSet]

-- The order of the terminals does not count, and neither does a terminal that comes twice: the
-- second time the production is there.
theorem foldl_enter (p : Production) (terminals : List String) (cells : List Cell) :
    terminals.foldl (enter p) cells = cells.map fun cell =>
      if p.lhs = cell.nonterminal ∧ cell.terminal ∈ terminals then cell.add p else cell := by
  induction terminals generalizing cells with
  | nil => simp
  | cons terminal rest ih =>
      rw [List.foldl_cons, ih, enter, List.map_map]
      refine List.map_congr_left fun cell _ => ?_
      by_cases h : p.lhs = cell.nonterminal ∧ cell.terminal = terminal
      · simp [h]
      · simp only [Function.comp_apply, if_neg h, List.mem_cons]
        simp only [and_or_left, h, false_or]

-- Filled with productions, a cell holds those that call for it behind what it had.
theorem foldl_enterAll (productions : List Production) (cells : List Cell) :
    productions.foldl (enterAll firsts follows) cells = cells.map fun cell =>
      { cell with
        productions := merge cell.productions (productions.filter fun p =>
          p.lhs = cell.nonterminal ∧ cell.terminal ∈ lookahead firsts follows p) } := by
  induction productions generalizing cells with
  | nil => simp [merge]
  | cons p rest ih =>
      rw [List.foldl_cons, ih, enterAll, foldl_enter, List.map_map]
      refine List.map_congr_left fun cell _ => ?_
      by_cases h : p.lhs = cell.nonterminal ∧ cell.terminal ∈ lookahead firsts follows p
      · simp [Cell.add, h, merge]
      · simp only [Function.comp_apply, if_neg h, List.filter_cons, decide_eq_false h]
        rfl

theorem cells_eq_callers : (ofSets g firsts follows).cells =
    g.sortedNonterminals.flatMap fun row => (ofSets g firsts follows).terminals.map fun column =>
      { nonterminal := row, terminal := column,
        productions := callers g firsts follows row column } := by
  simp only [ofSets, foldl_enterAll, blank, List.map_flatMap, List.map_map]
  rfl

theorem mem_cells_ofSets {cell : Cell} : cell ∈ (ofSets g firsts follows).cells ↔
    cell.nonterminal ∈ g.sortedNonterminals ∧ cell.terminal ∈ (ofSets g firsts follows).terminals ∧
      cell.productions = callers g firsts follows cell.nonterminal cell.terminal := by
  rw [cells_eq_callers]
  constructor
  · intro h
    obtain ⟨row, hrow, h⟩ := List.mem_flatMap.mp h
    obtain ⟨column, hcolumn, rfl⟩ := List.mem_map.mp h
    exact ⟨hrow, hcolumn, rfl⟩
  · rintro ⟨hrow, hcolumn, hproductions⟩
    refine List.mem_flatMap.mpr ⟨_, hrow, List.mem_map.mpr ⟨_, hcolumn, ?_⟩⟩
    rw [← hproductions]

-- Where there is a cell, the look-up gives its productions.
theorem productionsAt_eq_callers (hrow : row ∈ g.sortedNonterminals)
    (hcolumn : column ∈ (ofSets g firsts follows).terminals) :
    (ofSets g firsts follows).productionsAt row column = callers g firsts follows row column := by
  have hfind : ((ofSets g firsts follows).cell? row column).isSome := by
    rw [cell?, List.find?_isSome]
    exact ⟨⟨row, column, callers g firsts follows row column⟩,
      mem_cells_ofSets.mpr ⟨hrow, hcolumn, rfl⟩, by simp⟩
  obtain ⟨cell, hcell⟩ := Option.isSome_iff_exists.mp hfind
  have hkey := List.find?_some hcell
  simp only [decide_eq_true_eq] at hkey
  rw [productionsAt_of_cell hcell, (mem_cells_ofSets.mp (List.mem_of_find?_eq_some hcell)).2.2,
    hkey.1, hkey.2]

-- A production stands in the row of its left side, in the columns that call for it.
theorem mem_productionsAt_ofSets : p ∈ (ofSets g firsts follows).productionsAt row column ↔
    (p ∈ g.productions ∧ p.lhs = row ∧ column ∈ lookahead firsts follows p) ∧
      (column ∈ g.terminals ∨ column = endMarker) := by
  constructor
  · intro h
    obtain ⟨cell, hc, rfl, rfl, hp⟩ := mem_cells_of_productionsAt _ _ _ _ h
    obtain ⟨_, hcolumn, hproductions⟩ := mem_cells_ofSets.mp hc
    exact ⟨mem_callers.mp (hproductions ▸ hp), mem_columns.mp hcolumn⟩
  · rintro ⟨⟨mem, rfl, h⟩, hcolumn⟩
    rw [productionsAt_eq_callers ((Names.mem_sortedSet _ _).mpr (g.lhs_mem p mem))
      (mem_columns.mpr hcolumn)]
    exact mem_callers.mpr ⟨mem, rfl, h⟩

end Sets

-- By the sets of the grammar itself: what the right-hand side can begin with, and what
-- follows the left side if the right-hand side can vanish.
def Calls (g : Grammar) (token : String) (p : Production) : Prop :=
  BeginsSequence g token p.rhs ∨ ((∀ s ∈ p.rhs, Nullable g s) ∧
    token ∈ (FollowSets.ofGrammar g (FirstSets.ofGrammar g)).of p.lhs)

theorem mem_lookahead_iff_calls (g : Grammar) (p : Production) (token : String) :
    token ∈ lookahead (FirstSets.ofGrammar g) (FollowSets.ofGrammar g (FirstSets.ofGrammar g)) p ↔
      Calls g token p := by
  have hexact := FirstSets.exact_ofGrammar g
  rw [Calls, ← hexact.mem_iff, ← hexact.nullable_iff]
  simp only [lookahead]
  split <;> rename_i hn <;> simp [mem_merge, hn]

theorem mem_productionsAt_ofGrammar {g : Grammar} {row column : String} {p : Production} :
    p ∈ (ofGrammar g).productionsAt row column ↔
      (p ∈ g.productions ∧ p.lhs = row ∧ Calls g column p) ∧
        (column ∈ g.terminals ∨ column = endMarker) := by
  rw [← mem_lookahead_iff_calls]
  exact mem_productionsAt_ofSets

-- Without conflicts, the production that is called for is the one in the cell.
theorem productionsAt_eq_of_calls {g : Grammar} (h : (ofGrammar g).conflicts = []) {token : String}
    {p : Production} (mem : p ∈ g.productions) (hcolumn : token ∈ g.terminals ∨ token = endMarker)
    (hcalls : Calls g token p) : (ofGrammar g).productionsAt p.lhs token = [p] := by
  apply productionsAt_eq_singleton h
  exact mem_productionsAt_ofGrammar.mpr ⟨⟨mem, rfl, hcalls⟩, hcolumn⟩

end Table

end ContextFree
