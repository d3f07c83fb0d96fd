import ContextFree.Proofs.Analysis.Beginnings
import ContextFree.Proofs.Predictive.Progress

namespace ContextFree

theorem headD_append (tokens others : List String) (next : String) :
    (tokens ++ others).headD next = tokens.headD (others.headD next) := by
  cases tokens <;> rfl

namespace Tree

mutual

-- With `next` after the tree, every node has its own production, and no other, in the
-- cell for the token that its text or what comes after it begins with.
def Foreseen (table : Table) (next : String) : Tree → Prop
  | .leaf terminal => terminal ≠ endMarker
  | .node symbol children =>
    table.productionsAt symbol ((yieldList children).headD next) =
        [{ lhs := symbol, rhs := children.map root }] ∧
      AllForeseen table next children

def AllForeseen (table : Table) (next : String) : List Tree → Prop
  | [] => True
  | child :: rest =>
    Foreseen table ((yieldList rest).headD next) child ∧ AllForeseen table next rest

end

-- What can come after a symbol: FOLLOW says it of nonterminals only.
def Followed (g : Grammar) (next : String) : Symbol → Prop
  | .terminal name => name ≠ endMarker
  | .nonterminal name => next ∈ (FollowSets.ofGrammar g (FirstSets.ofGrammar g)).of name

-- FOLLOW passes from a node to its last children, and what the next children begin
-- with is in FOLLOW of the ones before.
theorem followed_child {g : Grammar} {p : Production} (mem : p ∈ g.productions) {next : String}
    (hnext : Followed g next (.nonterminal p.lhs)) {before : List Symbol} {child : Tree}
    {rest : List Tree} (hrhs : p.rhs = before ++ child.root :: rest.map root)
    (hvalid : ∀ t ∈ rest, t.Valid g) : Followed g ((yieldList rest).headD next) child.root := by
  have hexact := FirstSets.exact_ofGrammar g
  have hclosed := FollowSets.closed_ofGrammar g (FirstSets.ofGrammar g)
  cases hroot : child.root with
  | terminal name =>
      intro hend
      subst hend
      refine g.endMarker_not_mem.2 (g.declares_of_mem_rhs p mem (.terminal endMarker) ?_)
      simp [hrhs, hroot]
  | nonterminal name =>
      rw [hroot] at hrhs
      cases hyield : yieldList rest with
      | nil =>
          have hnull := nullable_all hvalid hyield
          exact hclosed.last p mem before name _ hrhs ((hexact.nullable_iff _).mpr hnull) hnext
      | cons token others =>
          have hbegins := beginsSequence_of_yieldList hvalid hyield
          exact hclosed.next p mem before name _ hrhs ((hexact.mem_iff _ _).mpr hbegins)

theorem calls_of_valid {g : Grammar} {symbol : String} {children : List Tree}
    (valid : ∀ t ∈ children, t.Valid g) {next : String}
    (hnext : Followed g next (.nonterminal symbol)) :
    Table.Calls g ((yieldList children).headD next)
      { lhs := symbol, rhs := children.map root } := by
  cases hyield : yieldList children with
  | nil => exact .inr ⟨nullable_all valid hyield, hnext⟩
  | cons token others => exact .inl (beginsSequence_of_yieldList valid hyield)

theorem allForeseen_of_valid {g : Grammar} {p : Production} (mem : p ∈ g.productions)
    {next : String} (hcolumn : next ∈ g.terminals ∨ next = endMarker)
    (hnext : Followed g next (.nonterminal p.lhs)) (ts : List Tree)
    (ih : ∀ t ∈ ts, t.Valid g → ∀ next, (next ∈ g.terminals ∨ next = endMarker) →
      Followed g next t.root → t.Foreseen (Table.ofGrammar g) next)
    (hvalid : ∀ t ∈ ts, t.Valid g) (before : List Symbol) (hrhs : p.rhs = before ++ ts.map root)
    (htokens : ∀ token ∈ yieldList ts, token ∈ g.terminals) :
    AllForeseen (Table.ofGrammar g) next ts := by
  induction ts generalizing before with
  | nil => trivial
  | cons t ts ihr =>
      refine ⟨?_, ihr (fun u hu => ih u (by simp [hu])) (fun u hu => hvalid u (by simp [hu]))
        (before ++ [t.root]) (by simp [hrhs]) fun token ht => htokens token (by simp [ht])⟩
      refine ih t (by simp) (hvalid t (by simp)) _ ?_ (followed_child mem hnext hrhs
        fun u hu => hvalid u (by simp [hu]))
      cases hyield : yieldList ts with
      | nil => exact hcolumn
      | cons token others => exact .inl (htokens token (by simp [hyield]))

-- Without conflicts the table of a grammar foresees all of its trees.
theorem Valid.foreseen {g : Grammar} (hg : (Table.ofGrammar g).conflicts = []) {t : Tree}
    (h : t.Valid g) (next : String) (hcolumn : next ∈ g.terminals ∨ next = endMarker)
    (hnext : Followed g next t.root) : t.Foreseen (Table.ofGrammar g) next := by
  induction t generalizing next with
  | leaf terminal => exact hnext
  | node symbol children ih =>
      obtain ⟨mem, valid⟩ := (valid_node g symbol children).mp h
      have htokens : ∀ token ∈ yieldList children, token ∈ g.terminals := by
        intro token ht
        exact (h.mem_terminals token ht).resolve_left (by simp)
      refine ⟨Table.productionsAt_eq_of_calls hg mem ?_ (calls_of_valid valid hnext),
        allForeseen_of_valid mem hcolumn hnext children
          (fun t ht hv next hc hn => ih t ht hv next hc hn) valid [] rfl htokens⟩
      cases hyield : yieldList children with
      | nil => exact hcolumn
      | cons token others => exact .inl (htokens token (by simp [hyield]))

end Tree

namespace Table

-- The machine gets from one configuration to the other.
inductive Reaches (t : Table) : Config → Config → Prop where
  | refl (c : Config) : Reaches t c c
  | step {c next last : Config} (first : t.step c = .next next) (rest : Reaches t next last) :
      Reaches t c last

theorem Reaches.trans {t : Table} {a b c : Config} (first : Reaches t a b)
    (second : Reaches t b c) : Reaches t a c := by
  induction first with
  | refl => exact second
  | step hstep _ ih => exact .step hstep (ih second)

theorem Reaches.run_eq {t : Table} {c last : Config} (h : Reaches t c last) :
    t.run c = t.run last := by
  induction h with
  | refl => rfl
  | step hstep _ ih => rw [run_of_next hstep, ih]

theorem Reaches.nested {t : Table} {c last : Config} (h : Reaches t c last) (hc : Nested t c) :
    Nested t last := by
  induction h with
  | refl => exact hc
  | step hstep _ ih =>
      rcases step_eq_next hstep with
        ⟨goal, rest, name, input, hs, hsym, _, hi, rfl⟩ | ⟨goal, rest, name, p, hs, hsym, hp, _, rfl⟩
      · exact ih (hc.read hs hi _)
      · exact ih (hc.expand hs hsym hp)

theorem step_read {t : Table} {c : Config} {goal : Goal} {rest : List Goal} {name : String}
    {input : List String} (hs : c.stack = goal :: rest) (hsym : goal.symbol = .terminal name)
    (hend : name ≠ endMarker) (hi : c.input = name :: input) :
    t.step c = .next { stack := rest, forest := c.forest.addTo goal.list (.leaf name), input } := by
  simp [step, hs, hsym, hend, hi]

theorem step_expand {t : Table} {c : Config} {goal : Goal} {rest : List Goal} {name : String}
    {p : Production} (hs : c.stack = goal :: rest) (hsym : goal.symbol = .nonterminal name)
    (hp : t.productionsAt name c.lookahead = [p]) (hn : name ∉ goal.enclosing c.input.length) :
    t.step c = .next (c.expand goal rest name p) := by
  simp [step, hs, hsym, hp, hn]

-- The machine builds a foreseen tree for the goal on top, if it stands in the input.
def Builds (table : Table) (t : Tree) : Prop :=
  ∀ (c : Config) (goal : Goal) (rest : List Goal) (input : List String), Nested table c →
    c.stack = goal :: rest → goal.symbol = t.root → c.input = t.yield ++ input →
    t.Foreseen table (input.headD endMarker) →
    Reaches table c { stack := rest, forest := c.forest.plant goal.list t, input }

theorem reaches_plantAll {table : Table} (ts : List Tree) (h : ∀ t ∈ ts, Builds table t)
    (c : Config) (goals rest : List Goal) (list : Nat) (input : List String)
    (hnested : Nested table c) (hs : c.stack = goals ++ rest)
    (hsymbols : goals.map Goal.symbol = ts.map Tree.root) (hlist : ∀ goal ∈ goals, goal.list = list)
    (hi : c.input = Tree.yieldList ts ++ input)
    (hforeseen : Tree.AllForeseen table (input.headD endMarker) ts) :
    Reaches table c { stack := rest, forest := c.forest.plantAll list ts, input } := by
  induction ts generalizing c goals with
  | nil =>
      obtain rfl := List.map_eq_nil_iff.mp hsymbols
      obtain ⟨stack, forest, remaining⟩ := c
      simp only [List.nil_append, Tree.yieldList_nil] at hs hi
      subst hs hi
      exact .refl _
  | cons t ts ih =>
      obtain ⟨goal, goals, rfl, hsym, hsymbols⟩ := List.map_eq_cons_iff.mp hsymbols
      have hfirst := h t (by simp) c goal (goals ++ rest) (Tree.yieldList ts ++ input) hnested hs
        hsym (by simp [hi]) (by rw [headD_append]; exact hforeseen.1)
      rw [hlist goal (by simp)] at hfirst
      exact hfirst.trans (ih (fun u hu => h u (by simp [hu])) _ goals (hfirst.nested hnested) rfl
        hsymbols (fun g hg => hlist g (by simp [hg])) rfl hforeseen.2)

theorem builds {g : Grammar} (hg : (ofGrammar g).conflicts = []) (t : Tree) :
    Builds (ofGrammar g) t := by
  induction t with
  | leaf terminal =>
      intro c goal rest input _ hs hsym hi hforeseen
      exact .step (step_read hs hsym hforeseen hi) (.refl _)
  | node symbol children ih =>
      intro c goal rest input hnested hs hsym hi hforeseen
      have hlook : c.lookahead = (Tree.yieldList children).headD (input.headD endMarker) := by
        rw [Config.lookahead, hi, Tree.yield_node, headD_append]
      have hp := hforeseen.1
      rw [← hlook] at hp
      refine .step (step_expand hs hsym hp (hnested.not_mem_enclosing hg hs hsym)) ?_
      exact reaches_plantAll children ih (c.expand goal rest symbol _) _ rest c.forest.size input
        (hnested.expand hs hsym hp) rfl (by simp [Function.comp_def]) (by simp) hi hforeseen.2

-- A tree of the grammar is the one that the machine builds from what it spells.
theorem run_eq_accepted {g : Grammar} (hg : (ofGrammar g).conflicts = []) {t : Tree}
    {tokens : List String} (h : t.Derivation g g.start tokens) :
    (ofGrammar g).run (Config.initial g.start tokens) =
      .ok (.accepted (Forest.initial.plant 0 t)) := by
  have hforeseen : t.Foreseen (ofGrammar g) endMarker := by
    refine h.valid.foreseen hg endMarker (.inr rfl) ?_
    rw [h.root_eq]
    exact (FollowSets.closed_ofGrammar g _).start
  have hreaches := builds hg t (Config.initial g.start tokens) _ _ [] (nested_initial _ _ _) rfl
    h.root_eq.symm (by simp [Config.initial, h.yield_eq]) hforeseen
  rw [hreaches.run_eq]
  exact run_of_stop rfl

theorem endFree_ofSets (g : Grammar) (firsts : FirstSets) (follows : FollowSets) :
    (ofSets g firsts follows).EndFree := by
  intro cell hc p hp hm
  obtain ⟨mem, _, _⟩ := mem_callers.mp ((mem_cells_ofSets.mp hc).2.2 ▸ hp)
  exact g.endMarker_not_mem.2 (g.declares_of_mem_rhs p mem (.terminal endMarker) hm)

-- Whatever the sets, the table holds nothing but productions of the grammar, each in its row.
theorem Grown.valid {g : Grammar} {firsts : FirstSets} {follows : FollowSets} {t : Tree}
    (h : (ofSets g firsts follows).Grown t) : t.Valid g := by
  induction h with
  | leaf terminal => exact .leaf terminal
  | node symbol children licensed grown ih =>
      obtain ⟨terminal, p, hp, _, hwhole⟩ := licensed
      obtain ⟨⟨mem, hlhs, _⟩, _⟩ := mem_productionsAt_ofSets.mp hp
      refine .node symbol children ?_ ih
      rw [hwhole (endFree_ofSets g firsts follows), ← hlhs]
      exact mem

end Table

namespace Predictive

theorem parse_of_derivation {g : Grammar} (hg : (Table.ofGrammar g).conflicts = []) {t : Tree}
    {tokens : List String} (h : t.Derivation g g.start tokens) :
    parse g tokens = .ok (.parse t) := by
  have hend : endMarker ∉ tokens := fun hm => g.endMarker_not_mem.2 (h.mem_terminals _ hm)
  obtain ⟨children, rfl⟩ := Tree.exists_node_of_root h.root_eq
  simp [parse, Table.parse, hg, hend, Table.run_eq_accepted hg h, Forest.root?_plant_initial]

-- One of the two answers is always given, and a tree is never wrong.
theorem parse_cases {g : Grammar} (hg : (Table.ofGrammar g).conflicts = [])
    (tokens : List String) :
    parse g tokens = .ok .noParse ∨
      ∃ t, parse g tokens = .ok (.parse t) ∧ t.Derivation g g.start tokens := by
  by_cases hend : endMarker ∈ tokens
  · exact .inl (by simp [parse, Table.parse, hg, hend])
  · obtain ⟨verdict, hv⟩ := Table.exists_verdict hg (Config.initial g.start tokens)
      (Table.nested_initial _ _ _) (by simp [Config.initial])
    cases verdict with
    | rejected => exact .inl (by simp [parse, Table.parse, hg, hend, hv])
    | accepted forest =>
        obtain ⟨children, hroot, hgrown, hyield⟩ := Table.tree_of_run hv
        exact .inr ⟨_, by simp [parse, Table.parse, hg, hend, hv, hroot], rfl, hgrown.valid, hyield⟩

theorem derivation_of_parse {g : Grammar} (hg : (Table.ofGrammar g).conflicts = [])
    {tokens : List String} {t : Tree} (h : parse g tokens = .ok (.parse t)) :
    t.Derivation g g.start tokens := by
  rcases parse_cases hg tokens with hno | ⟨u, hu, hd⟩
  · simp [h] at hno
  · rw [h, Except.ok.injEq, Outcome.parse.injEq] at hu
    exact hu ▸ hd

theorem noParse_iff {g : Grammar} (hg : (Table.ofGrammar g).conflicts = [])
    (tokens : List String) :
    parse g tokens = .ok .noParse ↔ ¬ ∃ t : Tree, t.Derivation g g.start tokens := by
  constructor
  · rintro hno ⟨t, ht⟩
    simp [parse_of_derivation hg ht] at hno
  · intro hnone
    rcases parse_cases hg tokens with hno | ⟨u, _, hd⟩
    · exact hno
    · exact absurd ⟨u, hd⟩ hnone

theorem derivation_unique {g : Grammar} (hg : (Table.ofGrammar g).conflicts = [])
    {tokens : List String} {t u : Tree} (ht : t.Derivation g g.start tokens)
    (hu : u.Derivation g g.start tokens) : t = u := by
  have h := (parse_of_derivation hg ht).symm.trans (parse_of_derivation hg hu)
  simpa using h

-- With a table that has no conflicts the parser decides: it finds the derivation tree of
-- the tokens, of which there is one at most, and it says so if there is none.
theorem parse_decides (g : Grammar) (hg : (Table.ofGrammar g).conflicts = [])
    (tokens : List String) :
    (∀ t, parse g tokens = .ok (.parse t) ↔ t.Derivation g g.start tokens) ∧
      (parse g tokens = .ok .noParse ↔ ¬ ∃ t : Tree, t.Derivation g g.start tokens) ∧
      ∀ t u : Tree, t.Derivation g g.start tokens → u.Derivation g g.start tokens → t = u :=
  ⟨fun _ => ⟨derivation_of_parse hg, parse_of_derivation hg⟩, noParse_iff hg tokens,
    fun _ _ => derivation_unique hg⟩

-- Round brackets, one pair inside the other.
def brackets : Grammar where
  nonterminals := ["S"]
  terminals := ["(", ")"]
  productions := [
    { lhs := "S", rhs := [.terminal "(", .nonterminal "S", .terminal ")"] },
    { lhs := "S", rhs := [] }]
  start := "S"
  problems_eq := by decide +kernel

theorem sortedNonterminals_brackets : brackets.sortedNonterminals = ["S"] :=
  Names.sortedSet_eq_of_perm (by decide) (by decide)

theorem sortedTerminals_brackets : brackets.sortedTerminals = ["(", ")"] :=
  Names.sortedSet_eq_of_perm (by decide) (by decide)

theorem parse_brackets :
    (Table.ofGrammar brackets).conflicts = [] ∧
      parse brackets ["(", ")"] =
        .ok (.parse (.node "S" [.leaf "(", .node "S" [], .leaf ")"])) := by
  have hg : (Table.ofGrammar brackets).conflicts = [] := by
    -- with the names in order the sets and the table can be evaluated
    simp only [Table.ofGrammar, Table.ofSets, FirstSets.ofGrammar, FirstSets.analyze,
      FirstSets.initial, FirstSets.maxRounds, FollowSets.ofGrammar, FollowSets.analyze,
      FollowSets.initial, FollowSets.maxRounds, sortedNonterminals_brackets,
      sortedTerminals_brackets]
    decide +kernel
  refine ⟨hg, ((parse_decides brackets hg ["(", ")"]).1 _).mpr ⟨rfl, ?_, rfl⟩⟩
  simp [brackets]

end Predictive

end ContextFree
