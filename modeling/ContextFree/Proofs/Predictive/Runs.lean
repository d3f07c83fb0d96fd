import ContextFree.Predictive.Parser
import ContextFree.Proofs.Predictive.Planting

namespace ContextFree

namespace Table

theorem run_of_next {t : Table} {c next : Config} (h : t.step c = .next next) :
    t.run c = t.run next := by
  rw [run]
  split <;> rename_i heq <;> rw [h] at heq
  · simp at heq
  · rw [Step.next.inj heq]

theorem run_of_stop {t : Table} {c : Config} {verdict : Except MachineFault Verdict}
    (h : t.step c = .stop verdict) : t.run c = verdict := by
  rw [run]
  split <;> rename_i heq <;> rw [h] at heq
  · rw [Step.stop.inj heq]
  · simp at heq

-- A step that goes on reads the terminal on top of the stack or expands the
-- nonterminal there by the only production of its cell.
theorem step_eq_next {t : Table} {c next : Config} (h : t.step c = .next next) :
    (∃ goal rest name input, c.stack = goal :: rest ∧ goal.symbol = .terminal name ∧
      name ≠ endMarker ∧ c.input = name :: input ∧
      next = { stack := rest, forest := c.forest.addTo goal.list (.leaf name), input }) ∨
    (∃ goal rest name p, c.stack = goal :: rest ∧ goal.symbol = .nonterminal name ∧
      t.productionsAt name c.lookahead = [p] ∧ name ∉ goal.enclosing c.input.length ∧
      next = c.expand goal rest name p) := by
  unfold step at h
  split at h
  · simp at h
  · rename_i goal rest hs
    split at h
    · rename_i name hsym
      split at h
      · simp at h
      · rename_i hend
        split at h
        · simp at h
        · rename_i token input hi
          split at h
          · rename_i htoken
            subst htoken
            exact .inl ⟨goal, rest, token, input, hs, hsym, hend, hi, (Step.next.inj h).symm⟩
          · simp at h
    · rename_i name hsym
      split at h
      · simp at h
      · rename_i p hp
        split at h
        · simp at h
        · rename_i hn
          exact .inr ⟨goal, rest, name, p, hs, hsym, hp, hn, (Step.next.inj h).symm⟩
      · simp at h

-- The machine accepts at an end marker, when the input is used up.
theorem step_eq_accepted {t : Table} {c : Config} {forest : Forest}
    (h : t.step c = .stop (.ok (.accepted forest))) :
    ∃ goal rest, c.stack = goal :: rest ∧ goal.symbol = .terminal endMarker ∧ c.input = [] ∧
      forest = c.forest := by
  unfold step at h
  split at h
  · simp at h
  · rename_i goal rest hs
    split at h
    · rename_i name hsym
      split at h
      · rename_i hend
        subst hend
        simp only [Step.stop.injEq, Except.ok.injEq] at h
        split at h
        · rename_i hi
          exact ⟨goal, rest, hs, hsym, by simpa using hi, (Verdict.accepted.inj h).symm⟩
        · simp at h
      · split at h
        · simp at h
        · split at h <;> simp at h
    · split at h
      · simp at h
      · split at h <;> simp at h
      · simp at h

-- What can make a step fail.
theorem step_eq_error {t : Table} {c : Config} {fault : MachineFault}
    (h : t.step c = .stop (.error fault)) :
    (fault = .emptyStack ∧ c.stack = []) ∨
    (∃ goal rest name, c.stack = goal :: rest ∧ goal.symbol = .nonterminal name ∧
      (fault = .endless ∧ name ∈ goal.enclosing c.input.length ∨
        fault = .ambiguousCell ∧ 1 < (t.productionsAt name c.lookahead).length)) := by
  unfold step at h
  split at h
  · rename_i hs
    simp only [Step.stop.injEq, Except.error.injEq] at h
    exact .inl ⟨h.symm, hs⟩
  · rename_i goal rest hs
    right
    split at h
    · split at h
      · simp at h
      · split at h
        · simp at h
        · split at h <;> simp at h
    · rename_i name hsym
      refine ⟨goal, rest, name, hs, hsym, ?_⟩
      split at h
      · simp at h
      · split at h
        · rename_i hn
          simp only [Step.stop.injEq, Except.error.injEq] at h
          exact .inl ⟨h.symm, hn⟩
        · simp at h
      · rename_i hnil hone
        simp only [Step.stop.injEq, Except.error.injEq] at h
        refine .inr ⟨h.symm, ?_⟩
        match hp : t.productionsAt name c.lookahead with
        | [] => exact absurd hp hnil
        | [p] => exact absurd hp (hone p)
        | _ :: _ :: _ => simp

-- No production of the table has the end marker on its right-hand side.
def EndFree (t : Table) : Prop :=
  ∀ cell ∈ t.cells, ∀ p ∈ cell.productions, .terminal endMarker ∉ p.rhs

-- Some production in the row of the nonterminal begins with these symbols. It has no
-- more of them, unless an end marker on a right-hand side can cut a node short.
def Licenses (t : Table) (name : String) (symbols : List Symbol) : Prop :=
  ∃ terminal p, p ∈ t.productionsAt name terminal ∧ symbols <+: p.rhs ∧
    (t.EndFree → symbols = p.rhs)

-- Every node of the tree comes from the table.
inductive Grown (t : Table) : Tree → Prop where
  | leaf (terminal : String) : Grown t (.leaf terminal)
  | node (symbol : String) (children : List Tree)
      (licensed : t.Licenses symbol (children.map Tree.root))
      (grown : ∀ child ∈ children, Grown t child) : Grown t (.node symbol children)

-- The goals of the stack from the top on were met by trees that spell the input, up
-- to a goal at which the machine stopped. That is an end marker, unless the marker
-- came up inside of the last of these trees.
structure Met (t : Table) (c : Config) (forest : Forest) (met : List (Goal × Tree))
    (dropped : List Goal) : Prop where
  stack_eq : c.stack = met.map Prod.fst ++ dropped
  root_eq : ∀ m ∈ met, m.2.root = m.1.symbol
  grown : ∀ m ∈ met, t.Grown m.2
  not_end : ∀ m ∈ met, m.1.symbol ≠ .terminal endMarker
  stopped : t.EndFree ∨ met = [] →
    ∃ goal rest, dropped = goal :: rest ∧ goal.symbol = .terminal endMarker
  yield_eq : Tree.yieldList (met.map Prod.snd) = c.input
  forest_eq : forest = c.forest.plantEach (met.map fun m => (m.1.list, m.2))

theorem Met.read {t : Table} {c : Config} {forest : Forest} {met : List (Goal × Tree)}
    {dropped rest : List Goal} {goal : Goal} {name : String} {input : List String}
    (hs : c.stack = goal :: rest) (hsym : goal.symbol = .terminal name) (hend : name ≠ endMarker)
    (hi : c.input = name :: input)
    (h : Met t { stack := rest, forest := c.forest.addTo goal.list (.leaf name), input }
      forest met dropped) :
    Met t c forest ((goal, .leaf name) :: met) dropped := by
  refine ⟨by rw [hs, List.map_cons, List.cons_append, ← h.stack_eq], ?_, ?_, ?_, ?_, ?_, ?_⟩
  · simpa only [List.mem_cons, forall_eq_or_imp] using ⟨hsym.symm, h.root_eq⟩
  · simpa only [List.mem_cons, forall_eq_or_imp] using ⟨.leaf name, h.grown⟩
  · have hne : goal.symbol ≠ .terminal endMarker := by simpa [hsym] using hend
    simpa only [List.mem_cons, forall_eq_or_imp] using ⟨hne, h.not_end⟩
  · rintro (hfree | hnil)
    · exact h.stopped (.inl hfree)
    · simp at hnil
  · simp [h.yield_eq, hi]
  · rw [h.forest_eq]
    rfl

theorem map_root_eq {met : List (Goal × Tree)} (h : ∀ m ∈ met, m.2.root = m.1.symbol) :
    (met.map Prod.snd).map Tree.root = (met.map Prod.fst).map Goal.symbol := by
  simp only [List.map_map]
  exact List.map_congr_left h

-- The trees that met the first goals of an expansion are the children of its node.
theorem plant_node (forest : Forest) (list : Nat) (name : String) (met : List (Goal × Tree))
    (h : ∀ m ∈ met, m.1.list = forest.size) :
    (Forest.addTo (forest.push []) list (.node name forest.size)).plantEach
        (met.map fun m => (m.1.list, m.2)) =
      forest.plant list (.node name (met.map Prod.snd)) := by
  have hmap : (met.map fun m => (m.1.list, m.2)) =
      (met.map Prod.snd).map (forest.size, ·) := by
    rw [List.map_map]
    exact List.map_congr_left fun m hm => by simp [h m hm]
  rw [hmap, ← Forest.plantAll_eq_plantEach]
  rfl

-- The goal for a symbol on the right-hand side of an expansion.
def goalFor (c : Config) (goal : Goal) (name : String) (symbol : Symbol) : Goal where
  symbol := symbol
  list := c.forest.size
  left := c.input.length
  above := name :: goal.enclosing c.input.length

theorem stack_expand (c : Config) (goal : Goal) (rest : List Goal) (name : String)
    (p : Production) :
    (c.expand goal rest name p).stack = p.rhs.map (goalFor c goal name) ++ rest := rfl

-- The trees that met the first goals of an expansion go to its list of children, and their
-- roots with the goals that were not met make up the right-hand side.
theorem roots_of_goals {c : Config} {goal : Goal} {name : String} {rhs : List Symbol}
    {met : List (Goal × Tree)} {unmet : List Goal}
    (hgoals : rhs.map (goalFor c goal name) = met.map Prod.fst ++ unmet)
    (hroot : ∀ m ∈ met, m.2.root = m.1.symbol) :
    (∀ m ∈ met, m.1.list = c.forest.size) ∧
      (met.map Prod.snd).map Tree.root ++ unmet.map Goal.symbol = rhs := by
  constructor
  · intro m hm
    have hg : m.1 ∈ met.map Prod.fst ++ unmet := List.mem_append_left _ (List.mem_map_of_mem hm)
    rw [← hgoals] at hg
    obtain ⟨symbol, _, heq⟩ := List.mem_map.mp hg
    rw [← heq]
    rfl
  · rw [map_root_eq hroot, ← List.map_append, ← hgoals]
    simp [Function.comp_def, goalFor]

section Expanding

variable {t : Table} {c : Config} {forest : Forest} {dropped rest : List Goal} {goal : Goal}
  {name : String} {p : Production}

-- All goals of the expansion are met, and its node is complete.
theorem Met.whole {inner outer : List (Goal × Tree)} (hs : c.stack = goal :: rest)
    (hsym : goal.symbol = .nonterminal name) (hmem : p ∈ t.productionsAt name c.lookahead)
    (h : Met t (c.expand goal rest name p) forest (inner ++ outer) dropped)
    (hinner : p.rhs.map (goalFor c goal name) = inner.map Prod.fst)
    (houter : rest = outer.map Prod.fst ++ dropped) :
    Met t c forest ((goal, .node name (inner.map Prod.snd)) :: outer) dropped := by
  obtain ⟨hlist, hroots⟩ := roots_of_goals (by rw [hinner, List.append_nil])
    fun m hm => h.root_eq m (List.mem_append_left _ hm)
  rw [List.map_nil, List.append_nil] at hroots
  refine ⟨by rw [hs, List.map_cons, List.cons_append, houter], ?_, ?_, ?_, ?_, ?_, ?_⟩
  · simp only [List.mem_cons, forall_eq_or_imp]
    exact ⟨hsym.symm, fun m hm => h.root_eq m (by simp [hm])⟩
  · simp only [List.mem_cons, forall_eq_or_imp]
    refine ⟨.node _ _ ?_ ?_, fun m hm => h.grown m (by simp [hm])⟩
    · rw [hroots]
      exact ⟨c.lookahead, p, hmem, List.prefix_refl _, fun _ => rfl⟩
    · intro child hc
      obtain ⟨m, hm, rfl⟩ := List.mem_map.mp hc
      exact h.grown m (by simp [hm])
  · simp only [List.mem_cons, forall_eq_or_imp]
    exact ⟨by simp [hsym], fun m hm => h.not_end m (by simp [hm])⟩
  · rintro (hfree | hnil)
    · exact h.stopped (.inl hfree)
    · simp at hnil
  · simpa [Config.expand] using h.yield_eq
  · have hforest := h.forest_eq
    rw [List.map_append, Forest.plantEach_append] at hforest
    rw [hforest, Config.expand, plant_node _ _ _ _ hlist]
    rfl

-- The machine stopped among the goals of the expansion, and its node is cut short.
theorem Met.cut {met : List (Goal × Tree)} {unmet : List Goal} (hs : c.stack = goal :: rest)
    (hsym : goal.symbol = .nonterminal name) (hmem : p ∈ t.productionsAt name c.lookahead)
    (h : Met t (c.expand goal rest name p) forest met (unmet ++ rest))
    (hgoals : p.rhs.map (goalFor c goal name) = met.map Prod.fst ++ unmet) :
    Met t c forest [(goal, .node name (met.map Prod.snd))] rest := by
  obtain ⟨hlist, hroots⟩ := roots_of_goals hgoals h.root_eq
  have hwhole : t.EndFree → unmet = [] := by
    intro hfree
    obtain ⟨stop, others, hd, hend⟩ := h.stopped (.inl hfree)
    cases unmet with
    | nil => rfl
    | cons first unmet =>
        exfalso
        obtain ⟨cell, hcell, _, _, hpc⟩ := mem_cells_of_productionsAt t name c.lookahead p hmem
        apply hfree cell hcell p hpc
        rw [← hroots, ← hend, ← (List.cons.inj hd).1]
        simp
  refine ⟨by simp [hs], by simp [hsym], ?_, by simp [hsym], ?_, ?_, ?_⟩
  · simp only [List.mem_singleton, forall_eq]
    refine .node _ _ ⟨c.lookahead, p, hmem, ⟨_, hroots⟩, ?_⟩ ?_
    · intro hfree
      simpa [hwhole hfree] using hroots
    · intro child hc
      obtain ⟨m, hm, rfl⟩ := List.mem_map.mp hc
      exact h.grown m hm
  · rintro (hfree | hnil)
    · obtain ⟨stop, others, hd, hend⟩ := h.stopped (.inl hfree)
      rw [hwhole hfree] at hd
      exact ⟨stop, others, hd, hend⟩
    · simp at hnil
  · simpa [Config.expand] using h.yield_eq
  · rw [h.forest_eq, Config.expand, plant_node _ _ _ _ hlist]
    rfl

theorem Met.expand {met : List (Goal × Tree)} (hs : c.stack = goal :: rest)
    (hsym : goal.symbol = .nonterminal name) (hp : t.productionsAt name c.lookahead = [p])
    (h : Met t (c.expand goal rest name p) forest met dropped) :
    ∃ met dropped, Met t c forest met dropped := by
  have hmem : p ∈ t.productionsAt name c.lookahead := by simp [hp]
  have hstack := h.stack_eq
  rw [stack_expand] at hstack
  rcases List.append_eq_append_iff.mp hstack with ⟨others, hmet, hrest⟩ | ⟨unmet, hgoals, rfl⟩
  · obtain ⟨inner, outer, rfl, hinner, rfl⟩ := List.map_eq_append_iff.mp hmet
    exact ⟨_, _, h.whole hs hsym hmem hinner.symm hrest⟩
  · exact ⟨_, _, h.cut hs hsym hmem hgoals⟩

end Expanding

-- Whenever a run accepts, the goals of its stack were met by trees of the table.
theorem met_of_run {t : Table} {c : Config} {forest : Forest}
    (h : t.run c = .ok (.accepted forest)) : ∃ met dropped, Met t c forest met dropped := by
  induction c using run.induct t with
  | case1 c verdict hstep =>
      rw [run_of_stop hstep] at h
      subst h
      obtain ⟨goal, rest, hs, hsym, hi, rfl⟩ := step_eq_accepted hstep
      exact ⟨[], c.stack, rfl, by simp, by simp, by simp, fun _ => ⟨goal, rest, hs, hsym⟩,
        hi.symm, rfl⟩
  | case2 c next hstep ih =>
      rw [run_of_next hstep] at h
      obtain ⟨met, dropped, hmet⟩ := ih h
      rcases step_eq_next hstep with
        ⟨goal, rest, name, input, hs, hsym, hend, hi, rfl⟩ |
        ⟨goal, rest, name, p, hs, hsym, hp, _, rfl⟩
      · exact ⟨_, _, hmet.read hs hsym hend hi⟩
      · exact hmet.expand hs hsym hp

-- The tree of an accepting run from the start: it comes from the table, spells the
-- tokens, and the forest is resolved to it.
theorem tree_of_run {t : Table} {start : String} {tokens : List String} {forest : Forest}
    (h : t.run (Config.initial start tokens) = .ok (.accepted forest)) :
    ∃ children, forest.root? = some (.node start children) ∧ t.Grown (.node start children) ∧
      (Tree.node start children).yield = tokens := by
  obtain ⟨met, dropped, hmet⟩ := met_of_run h
  match met with
  | [] =>
      obtain ⟨goal, rest, hd, hend⟩ := hmet.stopped (.inr rfl)
      have hs := hmet.stack_eq
      rw [hd] at hs
      obtain rfl := (List.cons.inj hs).1
      simp at hend
  | [(goal, tree)] =>
      obtain rfl := (List.cons.inj hmet.stack_eq).1
      obtain ⟨children, rfl⟩ := Tree.exists_node_of_root (hmet.root_eq _ (List.mem_singleton_self _))
      refine ⟨children, ?_, hmet.grown _ (List.mem_singleton_self _), by
        simpa [Config.initial] using hmet.yield_eq⟩
      rw [hmet.forest_eq]
      exact Forest.root?_plant_initial start children
  | first :: second :: others =>
      -- the second goal is the end marker at the bottom, which no tree meets
      have hsecond := (List.cons.inj (List.cons.inj hmet.stack_eq).2).1
      exact absurd (by rw [← hsecond]) (hmet.not_end second (by simp))

end Table

end ContextFree
