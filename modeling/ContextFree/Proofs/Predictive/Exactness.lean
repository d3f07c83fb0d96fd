import ContextFree.Proofs.Analysis.Neighbours
import ContextFree.Proofs.Distinct
import ContextFree.Proofs.Predictive.Cells

namespace ContextFree

namespace Grammar

-- The production is of use to a form of `origin` when the token comes next: applied to its left
-- side there, it lets what stands from there on begin with the token.
def Predicts (g : Grammar) (origin : String) (p : Production) (token : String) : Prop :=
  ∃ before after rest, Derives g [.nonterminal origin] (before ++ .nonterminal p.lhs :: after) ∧
    Derives g (p.rhs ++ after) (.terminal token :: rest)

-- The production is of use to a form of the start symbol at the end of the input: applied to its
-- left side there, it lets everything from there on vanish.
def PredictsEnd (g : Grammar) (p : Production) : Prop :=
  ∃ before after, Derives g [.nonterminal g.start] (before ++ .nonterminal p.lhs :: after) ∧
    Derives g (p.rhs ++ after) []

variable {g : Grammar} {origin token : String} {p : Production}

-- What is predicted is a terminal of the grammar.
theorem Predicts.mem_terminals (mem : p ∈ g.productions) (horigin : origin ∈ g.nonterminals)
    (h : g.Predicts origin p token) : token ∈ g.terminals := by
  obtain ⟨before, after, rest, hform, hd⟩ := h
  have hdeclared : ∀ s ∈ before ++ .nonterminal p.lhs :: after, g.Declares s := by
    apply hform.declares
    intro s hs
    rw [List.mem_singleton.mp hs]
    exact horigin
  have hbody : ∀ s ∈ p.rhs ++ after, g.Declares s := by
    intro s hs
    rcases List.mem_append.mp hs with hs | hs
    · exact g.declares_of_mem_rhs p mem s hs
    · exact hdeclared s (by simp [hs])
  exact hd.declares hbody (.terminal token) (by simp)

theorem Predicts.ne_endMarker (mem : p ∈ g.productions) (horigin : origin ∈ g.nonterminals)
    (h : g.Predicts origin p token) : token ≠ endMarker := by
  rintro rfl
  exact g.endMarker_not_mem.2 (h.mem_terminals mem horigin)

end Grammar

namespace Table

section Calling

variable {g : Grammar} {p : Production} {token : String}

-- A production that is called for by a token is one that some form needs.
theorem Calls.exists_predicts (mem : p ∈ g.productions) (hne : token ≠ endMarker)
    (h : Calls g token p) : ∃ origin ∈ g.nonterminals, g.Predicts origin p token := by
  rcases h with hbegins | ⟨hnull, hfollow⟩
  · obtain ⟨rest, hd⟩ := beginsSequence_iff.mp hbegins
    exact ⟨p.lhs, g.lhs_mem p mem, [], [], rest, .refl _, by simpa using hd⟩
  · obtain ⟨origin, horigin, before, after, hform⟩ :=
      (FollowSets.mem_and_ne_iff g p.lhs token).mp ⟨hfollow, hne⟩
    have hvanish := (derives_nil_iff.mpr hnull).append [] (.terminal token :: after)
    exact ⟨origin, horigin, before, .terminal token :: after, after, hform, by simpa using hvanish⟩

-- The token begins the right-hand side, or it comes behind the left side.
theorem calls_of_predicts {origin : String} (h : g.Predicts origin p token) : Calls g token p := by
  obtain ⟨before, after, rest, hform, hd⟩ := h
  rcases beginsSequence_append.mp (beginsSequence_iff.mpr ⟨rest, hd⟩) with
    hbody | ⟨hnull, hafter⟩
  · exact .inl hbody
  · exact .inr ⟨hnull, FollowSets.mem_of_begins_behind hform hafter⟩

-- No right-hand side begins with the end of the input, so that calls for a production only if
-- all of the right-hand side can vanish.
theorem calls_endMarker_iff (mem : p ∈ g.productions) :
    Calls g endMarker p ↔ (∀ s ∈ p.rhs, Nullable g s) ∧ g.CanEnd p.lhs := by
  have hbody : ¬ BeginsSequence g endMarker p.rhs := by
    intro hbegins
    obtain ⟨rest, hd⟩ := beginsSequence_iff.mp hbegins
    exact g.endMarker_not_mem.2
      (hd.declares (g.declares_of_mem_rhs p mem) (.terminal endMarker) (by simp))
  rw [Calls, FollowSets.endMarker_mem_iff]
  simp only [hbody, false_or]

theorem calls_endMarker_iff_predictsEnd (mem : p ∈ g.productions) :
    Calls g endMarker p ↔ g.PredictsEnd p := by
  rw [calls_endMarker_iff mem]
  constructor
  · rintro ⟨hnull, before, hform⟩
    exact ⟨before, [], hform, by simpa using derives_nil_iff.mpr hnull⟩
  · rintro ⟨before, after, hform, hd⟩
    have hnull := derives_nil_iff.mp hd
    have hafter : Derives g after [] :=
      derives_nil_iff.mpr fun s hs => hnull s (List.mem_append_right _ hs)
    have hend := hafter.append (before ++ [.nonterminal p.lhs]) []
    simp only [List.append_assoc, List.cons_append, List.nil_append, List.append_nil] at hend
    exact ⟨fun s hs => hnull s (List.mem_append_left _ hs), before, hform.trans hend⟩

end Calling

theorem mem_and_ne_iff_predicts (g : Grammar) (row column : String) (p : Production) :
    p ∈ (ofGrammar g).productionsAt row column ∧ column ≠ endMarker ↔
      p ∈ g.productions ∧ p.lhs = row ∧ ∃ origin ∈ g.nonterminals, g.Predicts origin p column := by
  rw [mem_productionsAt_ofGrammar]
  constructor
  · rintro ⟨⟨⟨mem, hrow, hcalls⟩, _⟩, hne⟩
    exact ⟨mem, hrow, hcalls.exists_predicts mem hne⟩
  · rintro ⟨mem, hrow, origin, horigin, hp⟩
    exact ⟨⟨⟨mem, hrow, calls_of_predicts hp⟩, .inl (hp.mem_terminals mem horigin)⟩,
      hp.ne_endMarker mem horigin⟩

theorem mem_endMarker_iff_predictsEnd (g : Grammar) (row : String) (p : Production) :
    p ∈ (ofGrammar g).productionsAt row endMarker ↔
      p ∈ g.productions ∧ p.lhs = row ∧ g.PredictsEnd p := by
  rw [mem_productionsAt_ofGrammar]
  simp only [or_true, and_true]
  refine and_congr_right fun mem => and_congr_right fun _ => ?_
  exact calls_endMarker_iff_predictsEnd mem

end Table

namespace Table

section Sets

variable {g : Grammar} {firsts : FirstSets} {follows : FollowSets}

-- The table has one cell for each pair of a nonterminal and a terminal or the end marker, and
-- the look-up finds it.
theorem cells_ofSets_eq : (ofSets g firsts follows).cells =
    g.sortedNonterminals.flatMap fun row => (ofSets g firsts follows).terminals.map fun column =>
      { nonterminal := row, terminal := column,
        productions := (ofSets g firsts follows).productionsAt row column } := by
  rw [cells_eq_callers]
  refine List.flatMap_congr fun row hrow => List.map_congr_left fun column hcolumn => ?_
  rw [productionsAt_eq_callers hrow hcolumn]

theorem pairwise_productionsAt (row column : String) :
    ((ofSets g firsts follows).productionsAt row column).Pairwise fun p q =>
      g.productions.idxOf p < g.productions.idxOf q := by
  cases hc : (ofSets g firsts follows).cell? row column with
  | none =>
      rw [productionsAt_eq_nil hc]
      exact .nil
  | some cell =>
      rw [productionsAt_of_cell hc, (mem_cells_ofSets.mp (List.mem_of_find?_eq_some hc)).2.2]
      exact pairwise_idxOf_distinct_filter _ g.productions

end Sets

-- The table has one cell for each pair of a nonterminal and a terminal or the end marker. The
-- cell holds what derivations need there: for a token the productions after which a form of some
-- nonterminal can go on with the token, and for the end marker those after which a form of the
-- start symbol can end. Each is there once, and they keep the order of the grammar.
theorem cells_exact (g : Grammar) :
    ((ofGrammar g).cells = g.sortedNonterminals.flatMap fun row =>
      (g.sortedTerminals ++ [endMarker]).map fun column =>
        { nonterminal := row, terminal := column,
          productions := (ofGrammar g).productionsAt row column }) ∧
    (∀ row column p, p ∈ (ofGrammar g).productionsAt row column ∧ column ≠ endMarker ↔
      p ∈ g.productions ∧ p.lhs = row ∧ ∃ origin ∈ g.nonterminals, g.Predicts origin p column) ∧
    (∀ row p, p ∈ (ofGrammar g).productionsAt row endMarker ↔
      p ∈ g.productions ∧ p.lhs = row ∧ g.PredictsEnd p) ∧
    ∀ row column, ((ofGrammar g).productionsAt row column).Nodup ∧
      ((ofGrammar g).productionsAt row column).Pairwise fun p q =>
        g.productions.idxOf p < g.productions.idxOf q := by
  refine ⟨cells_ofSets_eq, mem_and_ne_iff_predicts g, mem_endMarker_iff_predictsEnd g,
    fun row column => ?_⟩
  have horder : ((ofGrammar g).productionsAt row column).Pairwise fun p q =>
      g.productions.idxOf p < g.productions.idxOf q := pairwise_productionsAt row column
  exact ⟨horder.imp fun hlt heq => by simp [heq] at hlt, horder⟩

end Table

end ContextFree
