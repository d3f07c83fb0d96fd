import ContextFree.Proofs.Predictive.Circles

namespace ContextFree

namespace Table

variable {t : Table} {start : String} {tokens : List String} {tree : Tree}

-- A tree is given if and only if the table is free of conflicts, the end marker is no token, and
-- the machine accepts with a forest that is resolved to the tree. Whether the machine looks out
-- for circles makes no difference.
theorem parse_eq_parse_iff : t.parse start tokens = .ok (.parse tree) ↔
    t.conflicts = [] ∧ endMarker ∉ tokens ∧ ∃ forest : Forest,
      t.Arrives (Config.initial start tokens) (.accepted forest) ∧ forest.root? = some tree := by
  have harrives (forest : Forest) :=
    run_eq_ok_iff (nested_initial t start tokens) (.accepted forest)
  simp only [← harrives]
  unfold parse
  by_cases hconflicts : t.conflicts = []
  · by_cases hend : endMarker ∈ tokens
    · simp [hconflicts, hend]
    · simp only [hconflicts, ne_eq, not_true_eq_false, if_false, hend, not_false_eq_true, true_and]
      cases hrun : t.run (Config.initial start tokens) with
      | error fault => simp
      | ok verdict =>
          cases verdict with
          | rejected => simp
          | accepted forest => cases hroot : forest.root? <;> simp [hroot]
  · simp [hconflicts]

-- Whatever table the machine is given, with productions in rows that are not theirs, with the end
-- marker inside of right-hand sides, with cells too few or too many: a tree that it gives has the
-- start symbol at the top and spells the tokens, and at each node the children begin a right-hand
-- side in the row of its symbol, all of it unless the table has the end marker on some right-hand
-- side. If the table was made for a grammar, by whatever sets, the tree is a derivation.
theorem parse_sound (t : Table) (start : String) (tokens : List String) (tree : Tree) :
    (t.parse start tokens = .ok (.parse tree) ↔ t.conflicts = [] ∧ endMarker ∉ tokens ∧
      ∃ forest : Forest, t.Arrives (Config.initial start tokens) (.accepted forest) ∧
        forest.root? = some tree) ∧
    (t.parse start tokens = .ok (.parse tree) →
      tree.root = .nonterminal start ∧ tree.leaves = tokens ∧ t.Grown tree ∧
        ∀ g firsts follows, t = ofSets g firsts follows → tree.Derivation g start tokens) := by
  refine ⟨parse_eq_parse_iff, fun h => ?_⟩
  obtain ⟨_, _, forest, harrives, hroot⟩ := parse_eq_parse_iff.mp h
  obtain ⟨children, hresolved, hgrown, hyield⟩ :=
    tree_of_run (run_of_arrives (nested_initial t start tokens) harrives)
  obtain rfl := Option.some.inj (hroot.symm.trans hresolved)
  refine ⟨rfl, by rw [Tree.leaves_eq_yield, hyield], hgrown, ?_⟩
  rintro g firsts follows rfl
  exact ⟨rfl, hgrown.valid, hyield⟩

-- A production of `T` in the row of `S`, with an end marker in the middle.
def patchwork : Table where
  nonterminals := ["S"]
  terminals := ["a", "$"]
  cells := [{ nonterminal := "S", terminal := "a",
              productions := [{ lhs := "T", rhs := [.terminal "a", .terminal "$", .nonterminal "S"] }] }]

-- The table of the brackets by sets that are not theirs: nothing says that the input can end.
def borrowed : Table := ofSets Predictive.brackets [] [("S", [")"])]

theorem parse_sound_patchwork_borrowed :
    (patchwork.parse "S" ["a"] = .ok (.parse (.node "S" [.leaf "a"])) ∧
      (Tree.node "S" [.leaf "a"]).leaves = ["a"] ∧ patchwork.Grown (.node "S" [.leaf "a"])) ∧
    borrowed.parse "S" ["(", ")"] =
      .ok (.parse (.node "S" [.leaf "(", .node "S" [], .leaf ")"])) ∧
      (Tree.node "S" [.leaf "(", .node "S" [], .leaf ")"]).Derivation Predictive.brackets "S"
        ["(", ")"] := by
  have hpatchwork : patchwork.run (Config.initial "S" ["a"]) =
      .ok (.accepted #[[.node "S" 1], [.leaf "a"]]) := by
    rw [run_of_next rfl, run_of_next rfl, run_of_stop rfl]
    rfl
  have htable : borrowed =
      { nonterminals := ["S"]
        terminals := ["(", ")", "$"]
        cells := [
          ⟨"S", "(", [{ lhs := "S", rhs := [.terminal "(", .nonterminal "S", .terminal ")"] }]⟩,
          ⟨"S", ")", [{ lhs := "S", rhs := [] }]⟩,
          ⟨"S", "$", []⟩] } := by
    rw [borrowed, ofSets, Predictive.sortedNonterminals_brackets,
      Predictive.sortedTerminals_brackets]
    rfl
  have hborrowed : borrowed.run (Config.initial "S" ["(", ")"]) =
      .ok (.accepted #[[.node "S" 1], [.leaf "(", .node "S" 2, .leaf ")"], []]) := by
    rw [htable, run_of_next rfl, run_of_next rfl, run_of_next rfl, run_of_next rfl, run_of_stop rfl]
    rfl
  have hcut : patchwork.parse "S" ["a"] = .ok (.parse (.node "S" [.leaf "a"])) := by
    simp only [parse, hpatchwork]
    rfl
  have hwhole : borrowed.parse "S" ["(", ")"] =
      .ok (.parse (.node "S" [.leaf "(", .node "S" [], .leaf ")"])) := by
    simp only [parse, hborrowed]
    rw [htable]
    rfl
  obtain ⟨_, hleaves, hgrown, _⟩ := (parse_sound patchwork "S" ["a"] _).2 hcut
  obtain ⟨_, _, _, hderivation⟩ := (parse_sound borrowed "S" ["(", ")"] _).2 hwhole
  exact ⟨⟨hcut, hleaves, hgrown⟩, hwhole, hderivation _ _ _ rfl⟩

end Table

end ContextFree
