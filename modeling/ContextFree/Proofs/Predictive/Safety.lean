import ContextFree.Proofs.Predictive.Termination

namespace ContextFree

-- What the steps of a fold lead to one after the other.
theorem reaches_foldl {act : α → β → α} (steps : List β) (s : α) :
    Relation.ReflTransGen (fun s next => ∃ b ∈ steps, next = act s b) s (steps.foldl act s) := by
  refine foldl_keeps (fun last => Relation.ReflTransGen _ s last) (fun b hb last h => ?_) s .refl
  exact h.tail ⟨b, hb, rfl⟩

namespace FirstSets

-- Some production adds to the set of its left side.
def Grows (g : Grammar) (firsts next : FirstSets) : Prop :=
  ∃ p ∈ g.productions, next = firsts.extend p

theorem grows_ofGrammar (g : Grammar) :
    Relation.ReflTransGen (Grows g) (initial g) (ofGrammar g) :=
  settle_induct (round g) (fun firsts => Relation.ReflTransGen (Grows g) (initial g) firsts)
    (fun firsts h => h.trans (reaches_foldl g.productions firsts)) (maxRounds g) (initial g) .refl

theorem names_of_grows {g : Grammar} {firsts : FirstSets}
    (h : Relation.ReflTransGen (Grows g) (initial g) firsts) :
    firsts.names = g.sortedNonterminals := by
  induction h with
  | refl => exact (proper_initial g).names_eq
  | tail _ hgrows ih =>
      obtain ⟨p, _, rfl⟩ := hgrows
      simpa [extend] using ih

end FirstSets

namespace FollowSets

-- Some nonterminal on a right-hand side is given more that follows it.
def Grows (g : Grammar) (firsts : FirstSets) (follows next : FollowSets) : Prop :=
  ∃ p ∈ g.productions, ∃ occurrence ∈ occurrences p.rhs,
    next = extendAt firsts p.lhs follows occurrence

theorem grows_extend {g : Grammar} {firsts : FirstSets} {p : Production} (mem : p ∈ g.productions)
    (follows : FollowSets) :
    Relation.ReflTransGen (Grows g firsts) follows (extend firsts follows p) := by
  have hgrows : Relation.ReflTransGen (fun follows next => ∃ occurrence ∈ occurrences p.rhs,
      next = extendAt firsts p.lhs follows occurrence) follows (extend firsts follows p) :=
    reaches_foldl _ _
  exact hgrows.lift id fun follows next h => ⟨p, mem, h⟩

theorem grows_ofGrammar (g : Grammar) (firsts : FirstSets) :
    Relation.ReflTransGen (Grows g firsts) (initial g) (ofGrammar g firsts) := by
  refine settle_induct (round g firsts)
    (fun follows => Relation.ReflTransGen (Grows g firsts) (initial g) follows)
    (fun follows h => ?_) (maxRounds g firsts) (initial g) .refl
  exact foldl_keeps (fun last => Relation.ReflTransGen (Grows g firsts) (initial g) last)
    (fun p mem last h => h.trans (grows_extend mem last)) follows h

theorem names_of_grows {g : Grammar} {firsts : FirstSets} {follows : FollowSets}
    (h : Relation.ReflTransGen (Grows g firsts) (initial g) follows) :
    follows.names = g.sortedNonterminals := by
  induction h with
  | refl => exact (proper_initial g firsts).names_eq
  | tail _ hgrows ih =>
      obtain ⟨p, _, occurrence, _, rfl⟩ := hgrows
      rw [extendAt]
      split <;> simpa using ih

end FollowSets

namespace Forest

@[simp] theorem size_addTo (forest : Forest) (list : Nat) (branch : Branch) :
    (forest.addTo list branch).size = forest.size := Array.size_modify

theorem getElem?_addTo_of_ne (forest : Forest) {list other : Nat} (h : list ≠ other)
    (branch : Branch) : (forest.addTo list branch)[other]? = forest[other]? := by
  rw [addTo, Array.getElem?_modify, if_neg h]

-- The branches of a list, of which there are none if there is no such list.
theorem mem_addTo {forest : Forest} {list other : Nat} {branch b : Branch}
    (h : b ∈ (forest.addTo list branch).getD other []) :
    b ∈ forest.getD other [] ∨ (other = list ∧ b = branch) := by
  simp only [addTo, Array.getD_eq_getD_getElem?, Array.getElem?_modify] at h ⊢
  by_cases hlist : list = other
  · cases hforest : forest[other]? with
    | none => simp [hforest] at h
    | some branches =>
        rw [if_pos hlist, hforest] at h
        simpa [hlist] using h
  · rw [if_neg hlist] at h
    exact .inl h

theorem mem_push {forest : Forest} {other : Nat} {b : Branch}
    (h : b ∈ (forest.push []).getD other []) : b ∈ forest.getD other [] := by
  simp only [Array.getD_eq_getD_getElem?, Array.getElem?_push] at h ⊢
  split at h
  · simp at h
  · exact h

end Forest

-- Between two steps: the end marker is at the bottom of the stack, the goals and the branches lead
-- to lists that are there, and the root has its one child as soon as it is expanded.
structure Config.Shaped (start : String) (c : Config) : Prop where
  ended : ∃ goals last, c.stack = goals ++ [last] ∧ last.symbol = .terminal endMarker
  goal_lt : ∀ goal ∈ c.stack, goal.list < c.forest.size
  branch_lt : ∀ list symbol child, .node symbol child ∈ c.forest.getD list [] →
    list < child ∧ child < c.forest.size
  rooted : (∃ goal last, c.stack = [goal, last] ∧ goal.symbol = .nonterminal start ∧
      goal.list = 0 ∧ c.forest = Forest.initial ∧ last.symbol = .terminal endMarker) ∨
    ((∃ child, c.forest[0]? = some [.node start child]) ∧
      ∀ goal ∈ c.stack, goal.list = 0 → goal.symbol = .terminal endMarker)

namespace Config.Shaped

variable {start : String} {c : Config}

theorem initial (start : String) (tokens : List String) :
    Shaped start (.initial start tokens) := by
  constructor
  case ended => exact ⟨[_], _, rfl, rfl⟩
  case goal_lt => simp [Config.initial, Forest.initial]
  case branch_lt =>
    intro list symbol child h
    cases list <;> simp [Config.initial, Forest.initial] at h
  case rooted => exact .inl ⟨_, _, rfl, rfl, rfl, rfl, rfl⟩

-- What is forgotten is not looked at.
theorem forget (h : Shaped start c) : Shaped start c.forget := by
  constructor
  case ended =>
    obtain ⟨goals, last, hs, hend⟩ := h.ended
    exact ⟨_, { last with above := [] }, by rw [Config.forget, hs, List.map_append]; rfl, hend⟩
  case goal_lt =>
    intro goal hm
    obtain ⟨original, horiginal, rfl⟩ := List.mem_map.mp hm
    exact h.goal_lt original horiginal
  case branch_lt => exact h.branch_lt
  case rooted =>
    refine h.rooted.imp ?_ ?_
    · rintro ⟨goal, last, hs, hsym, hlist, hforest, hend⟩
      exact ⟨{ goal with above := [] }, { last with above := [] }, by rw [Config.forget, hs]; rfl,
        hsym, hlist, hforest, hend⟩
    · refine And.imp_right fun hroot goal hm => ?_
      obtain ⟨original, horiginal, rfl⟩ := List.mem_map.mp hm
      exact hroot original horiginal

-- The goal on top is not the one at the bottom, unless it is the end marker.
theorem ended_rest (h : Shaped start c) {goal : Goal} {rest : List Goal}
    (hs : c.stack = goal :: rest) (hsym : goal.symbol ≠ .terminal endMarker) :
    ∃ goals last, rest = goals ++ [last] ∧ last.symbol = .terminal endMarker := by
  obtain ⟨goals, last, heq, hend⟩ := h.ended
  rw [hs] at heq
  cases goals with
  | nil =>
      obtain ⟨rfl, _⟩ := List.cons.inj heq
      exact absurd hend hsym
  | cons first goals => exact ⟨goals, last, (List.cons.inj heq).2, hend⟩

theorem read (h : Shaped start c) {goal : Goal} {rest : List Goal} {name : String}
    {input : List String} (hs : c.stack = goal :: rest) (hsym : goal.symbol = .terminal name)
    (hend : name ≠ endMarker) :
    Shaped start { stack := rest, forest := c.forest.addTo goal.list (.leaf name), input } := by
  have htop : goal.symbol ≠ .terminal endMarker := by simpa [hsym] using hend
  constructor
  case ended => exact h.ended_rest hs htop
  case goal_lt =>
    intro other hm
    rw [Forest.size_addTo]
    exact h.goal_lt other (by simp [hs, hm])
  case branch_lt =>
    intro list symbol child hm
    rw [Forest.size_addTo]
    rcases Forest.mem_addTo hm with hm | ⟨_, hm⟩
    · exact h.branch_lt list symbol child hm
    · simp at hm
  case rooted =>
    right
    rcases h.rooted with ⟨first, last, hstack, hfirst, _⟩ | ⟨⟨child, hchild⟩, hroot⟩
    · obtain ⟨rfl, _⟩ := List.cons.inj (hs.symm.trans hstack)
      simp [hsym] at hfirst
    · have hne : goal.list ≠ 0 := fun hzero => htop (hroot goal (by simp [hs]) hzero)
      refine ⟨⟨child, by rw [Forest.getElem?_addTo_of_ne _ hne]; exact hchild⟩, ?_⟩
      exact fun other hm => hroot other (by simp [hs, hm])

theorem expand (h : Shaped start c) {goal : Goal} {rest : List Goal} {name : String}
    (hs : c.stack = goal :: rest) (hsym : goal.symbol = .nonterminal name) (p : Production) :
    Shaped start (c.expand goal rest name p) := by
  have htop : goal.symbol ≠ .terminal endMarker := by simp [hsym]
  have hgoal := h.goal_lt goal (by simp [hs])
  have hsize : (c.expand goal rest name p).forest.size = c.forest.size + 1 := by
    simp [Config.expand]
  constructor
  case ended =>
    obtain ⟨goals, last, hrest, hend⟩ := h.ended_rest hs htop
    exact ⟨_ ++ goals, last, by rw [Table.stack_expand, hrest, List.append_assoc], hend⟩
  case goal_lt =>
    intro other hm
    rw [hsize]
    rcases List.mem_append.mp hm with hm | hm
    · obtain ⟨symbol, _, rfl⟩ := List.mem_map.mp hm
      exact Nat.lt_succ_self _
    · exact Nat.lt_succ_of_lt (h.goal_lt other (by simp [hs, hm]))
  case branch_lt =>
    intro list symbol child hm
    rw [hsize]
    rcases Forest.mem_addTo hm with hold | ⟨rfl, hnew⟩
    · obtain ⟨hlt, hbound⟩ := h.branch_lt list symbol child (Forest.mem_push hold)
      exact ⟨hlt, Nat.lt_succ_of_lt hbound⟩
    · obtain ⟨_, rfl⟩ := Branch.node.inj hnew
      exact ⟨hgoal, Nat.lt_succ_self _⟩
  case rooted =>
    right
    rcases h.rooted with
      ⟨first, last, hstack, hfirst, hlist, hforest, hend⟩ | ⟨⟨child, hchild⟩, hroot⟩
    · obtain ⟨rfl, rfl⟩ := List.cons.inj (hs.symm.trans hstack)
      obtain rfl := Symbol.nonterminal.inj (hsym.symm.trans hfirst)
      refine ⟨⟨c.forest.size, by simp [Config.expand, hlist, hforest, Forest.initial, Forest.addTo]⟩,
        fun other hm hzero => ?_⟩
      rcases List.mem_append.mp hm with hm | hm
      · obtain ⟨symbol, _, rfl⟩ := List.mem_map.mp hm
        simp [hforest, Forest.initial] at hzero
      · rw [List.mem_singleton.mp hm]
        exact hend
    · have hne : goal.list ≠ 0 := fun hzero => htop (hroot goal (by simp [hs]) hzero)
      have hpos : 0 < c.forest.size := (Array.getElem?_eq_some_iff.mp hchild).1
      refine ⟨⟨child, ?_⟩, fun other hm hzero => ?_⟩
      · rw [Config.expand, Forest.getElem?_addTo_of_ne _ hne, Array.getElem?_push,
          if_neg (Nat.ne_of_lt hpos)]
        exact hchild
      · rcases List.mem_append.mp hm with hm | hm
        · obtain ⟨symbol, _, rfl⟩ := List.mem_map.mp hm
          exact absurd hzero (Nat.ne_of_gt hpos)
        · exact hroot other (by simp [hs, hm]) hzero

theorem moves {t : Table} {next : Config} (h : Shaped start c) (hmoves : t.Moves c next) :
    Shaped start next := by
  rcases Table.step_eq_next hmoves with
    ⟨_, _, _, _, hs, hsym, hend, _, rfl⟩ | ⟨_, _, _, p, hs, hsym, _, _, rfl⟩
  · exact h.forget.read hs hsym hend
  · exact h.forget.expand hs hsym p

theorem of_moves {t : Table} {tokens : List String}
    (hmoves : Relation.ReflTransGen t.Moves (.initial start tokens) c) : Shaped start c := by
  induction hmoves with
  | refl => exact .initial start tokens
  | tail _ hmoves ih => exact ih.moves hmoves

end Config.Shaped

namespace Table

-- What a machine that does not look out for circles takes for granted of a configuration: there
-- is a goal on the stack, its cell has one production at most, the lists that the goals and the
-- branches lead to are there, and when the machine accepts, the root has one child.
structure Safe (t : Table) (start : String) (c : Config) : Prop where
  stack_ne_nil : c.stack ≠ []
  cell : ∀ goal rest name, c.stack = goal :: rest → goal.symbol = .nonterminal name →
    (t.productionsAt name c.lookahead).length ≤ 1
  goal_lt : ∀ goal ∈ c.stack, goal.list < c.forest.size
  branch_lt : ∀ list symbol child, .node symbol child ∈ c.forest.getD list [] →
    list < child ∧ child < c.forest.size
  root : ∀ forest, t.step c.forget = .stop (.ok (.accepted forest)) →
    forest = c.forest ∧ ∃ child, forest[0]? = some [.node start child]

theorem safe_of_moves {t : Table} (ht : t.conflicts = []) {start : String} {tokens : List String}
    {c : Config} (hmoves : Relation.ReflTransGen t.Moves (.initial start tokens) c) :
    t.Safe start c := by
  have h := Config.Shaped.of_moves hmoves
  constructor
  case stack_ne_nil =>
    obtain ⟨goals, last, hs, _⟩ := h.ended
    simp [hs]
  case cell => exact fun _ _ name _ _ => length_productionsAt_le ht name c.lookahead
  case goal_lt => exact h.goal_lt
  case branch_lt => exact h.branch_lt
  case root =>
    intro forest hstep
    obtain ⟨goal, rest, hs, hsym, _, rfl⟩ := step_eq_accepted hstep
    refine ⟨rfl, ?_⟩
    rcases h.forget.rooted with ⟨first, last, hstack, hfirst, _⟩ | ⟨hroot, _⟩
    · obtain ⟨rfl, _⟩ := List.cons.inj (hs.symm.trans hstack)
      simp [hsym] at hfirst
    · exact hroot

end Table

namespace Predictive

theorem exists_outcome (g : Grammar) (tokens : List String) :
    ∃ outcome, parse g tokens = .ok outcome := by
  by_cases hg : (Table.ofGrammar g).conflicts = []
  · rcases parse_cases hg tokens with hno | ⟨t, ht, _⟩
    · exact ⟨_, hno⟩
    · exact ⟨_, ht⟩
  · exact ⟨_, by rw [parse, Table.parse, if_pos hg]⟩

-- Everything that the analyses and the machine take for granted is so: they come to their sets by
-- steps that find a set for each name they look up, and a machine is started only with a table by
-- which it goes on safely.
structure Safe (g : Grammar) (tokens : List String) : Prop where
  firsts_grow : Relation.ReflTransGen (FirstSets.Grows g) (.initial g) (.ofGrammar g)
  follows_grow : ∀ firsts,
    Relation.ReflTransGen (FollowSets.Grows g firsts) (.initial g) (.ofGrammar g firsts)
  firsts : ∀ firsts, Relation.ReflTransGen (FirstSets.Grows g) (.initial g) firsts →
    ∀ p ∈ g.productions, ∃ first, firsts.value? p.lhs = some first
  follows : ∀ firsts follows, Relation.ReflTransGen (FollowSets.Grows g firsts) (.initial g) follows →
    (∃ terminals, follows.value? g.start = some terminals) ∧
    ∀ p ∈ g.productions, (∃ terminals, follows.value? p.lhs = some terminals) ∧
      ∀ name, .nonterminal name ∈ p.rhs → ∃ terminals, follows.value? name = some terminals
  machine : (Table.ofGrammar g).conflicts = [] → ∀ c,
    Relation.ReflTransGen (Table.ofGrammar g).Moves (.initial g.start tokens) c →
      (Table.ofGrammar g).Safe g.start c

theorem safe (g : Grammar) (tokens : List String) : Safe g tokens := by
  -- every name of the grammar is one of the names of the sets
  have hvalue {α : Type} {family : Family α} (hnames : family.names = g.sortedNonterminals)
      {name : String} (hname : name ∈ g.nonterminals) : ∃ value, family.value? name = some value := by
    apply Family.exists_value?_of_mem
    rw [hnames, Grammar.sortedNonterminals, Names.mem_sortedSet]
    exact hname
  constructor
  case firsts_grow => exact FirstSets.grows_ofGrammar g
  case follows_grow => exact FollowSets.grows_ofGrammar g
  case firsts =>
    exact fun firsts h p mem => hvalue (FirstSets.names_of_grows h) (g.lhs_mem p mem)
  case follows =>
    intro firsts follows h
    have hnames := FollowSets.names_of_grows h
    refine ⟨hvalue hnames g.start_mem, fun p mem => ⟨hvalue hnames (g.lhs_mem p mem), ?_⟩⟩
    exact fun name hname => hvalue hnames (g.declares_of_mem_rhs p mem (.nonterminal name) hname)
  case machine => exact fun hg c hmoves => Table.safe_of_moves hg hmoves

end Predictive

end ContextFree
