import ContextFree.Proofs.Predictive.Cells
import ContextFree.Proofs.Predictive.Runs

namespace ContextFree

namespace Table

-- In front of this token the symbol is expanded into nothing at all.
inductive Fades (t : Table) (token : String) : Symbol → Prop where
  | expand (name : String) (p : Production) (cell : t.productionsAt name token = [p])
      (all : ∀ s ∈ p.rhs, Fades t token s) : Fades t token (.nonterminal name)

-- In front of this token the expansion of the outer nonterminal comes to the inner
-- one without reading anything.
def Leads (t : Table) (token inner outer : String) : Prop :=
  ∃ p before after, t.productionsAt outer token = [p] ∧
    p.rhs = before ++ .nonterminal inner :: after ∧ ∀ s ∈ before, t.Fades token s

-- The goals of a stack are older than the tokens that are left. A goal that comes up
-- without a token being read is led to by all nonterminals around it.
structure Nested (t : Table) (c : Config) : Prop where
  left_le : ∀ goal ∈ c.stack, c.input.length ≤ goal.left
  led : ∀ before goal after name, c.stack = before ++ goal :: after →
    goal.symbol = .nonterminal name → (∀ g ∈ before, t.Fades c.lookahead g.symbol) →
    ∀ outer ∈ goal.enclosing c.input.length, Relation.TransGen (t.Leads c.lookahead) name outer

theorem nested_initial (t : Table) (start : String) (tokens : List String) :
    Nested t (Config.initial start tokens) := by
  have habove : ∀ goal ∈ (Config.initial start tokens).stack,
      goal.left = tokens.length ∧ goal.above = [] := by
    simp [Config.initial]
  constructor
  · intro goal hg
    simp [(habove goal hg).1, Config.initial]
  · intro before goal after name hs _ _ outer ho
    have hg := habove goal (by simp [hs])
    simp [Goal.enclosing, hg.2] at ho

-- Goals older than the last token read are inside of nothing.
theorem Nested.read {t : Table} {c : Config} (h : Nested t c) {goal : Goal} {rest : List Goal}
    {name : String} {input : List String} (hs : c.stack = goal :: rest)
    (hi : c.input = name :: input) (forest : Forest) :
    Nested t { stack := rest, forest, input } := by
  have hlt : ∀ g ∈ rest, input.length < g.left := by
    intro g hg
    have := h.left_le g (by simp [hs, hg])
    rw [hi] at this
    exact this
  constructor
  · intro g hg
    exact Nat.le_of_lt (hlt g hg)
  · intro before g after other hsplit _ _ outer ho
    have hne : g.left ≠ input.length := by
      have := hlt g (by rw [show rest = before ++ g :: after from hsplit]; simp)
      omega
    simp [Goal.enclosing, hne] at ho

theorem Nested.expand {t : Table} {c : Config} (h : Nested t c) {goal : Goal} {rest : List Goal}
    {name : String} {p : Production} (hs : c.stack = goal :: rest)
    (hsym : goal.symbol = .nonterminal name) (hp : t.productionsAt name c.lookahead = [p]) :
    Nested t (c.expand goal rest name p) := by
  constructor
  · intro g hg
    rcases List.mem_append.mp hg with hg | hg
    · obtain ⟨symbol, _, rfl⟩ := List.mem_map.mp hg
      exact Nat.le_refl _
    · exact h.left_le g (by simp [hs, hg])
  · intro before g after inner hsplit hinner hfades outer ho
    rw [stack_expand] at hsplit
    rcases List.append_eq_append_iff.mp hsplit with ⟨others, rfl, hrest⟩ | ⟨others, hgoals, hafter⟩
    · -- an older goal: the expanded nonterminal has faded like the goals before it
      refine h.led (goal :: others) g after inner (by rw [hs, hrest]; rfl) hinner ?_ outer ho
      simp only [List.mem_cons, forall_eq_or_imp]
      refine ⟨?_, fun g hg => hfades g (by simp [hg])⟩
      rw [hsym]
      refine .expand name p hp fun s hm => ?_
      exact hfades (goalFor c goal name s) (List.mem_append_left _ (List.mem_map_of_mem hm))
    · cases others with
      | nil =>
          -- the first of the older goals
          rw [List.append_nil] at hgoals
          subst hgoals
          refine h.led [goal] g after inner (by rw [hs]; simpa using hafter.symm) hinner ?_ outer ho
          simp only [List.mem_singleton, forall_eq]
          rw [hsym]
          refine .expand name p hp fun s hm => ?_
          exact hfades (goalFor c goal name s) (List.mem_map_of_mem hm)
      | cons first others =>
          obtain rfl := (List.cons.inj hafter).1
          obtain ⟨skipped, tail, hrhs, rfl, htail⟩ := List.map_eq_append_iff.mp hgoals
          obtain ⟨symbol, remaining, rfl, rfl, _⟩ := List.map_eq_cons_iff.mp htail
          obtain rfl : symbol = .nonterminal inner := hinner
          have hleads : t.Leads c.lookahead inner name := by
            refine ⟨p, skipped, remaining, hp, hrhs, fun s hm => ?_⟩
            exact hfades (goalFor c goal name s) (List.mem_map_of_mem hm)
          have henclosing : outer ∈ name :: goal.enclosing c.input.length := by
            simpa [Goal.enclosing, Config.expand, goalFor] using ho
          rcases List.mem_cons.mp henclosing with rfl | houter
          · exact .single hleads
          · exact .trans (.single hleads) (h.led [] goal rest name hs hsym (by simp) outer houter)

-- In the table of a grammar, a token in front of which a symbol fades cannot begin it:
-- the production for the token would be another one.
theorem Fades.not_begins {g : Grammar} (hg : (ofGrammar g).conflicts = []) {token : String}
    {s : Symbol} (h : (ofGrammar g).Fades token s) : ¬ Begins g token s := by
  induction h with
  | expand name p cell all ih =>
      intro hb
      cases hb with
      | expand q mem before after first eq nullable begins =>
          obtain ⟨_, hcolumn⟩ := mem_productionsAt_ofGrammar.mp
            (show p ∈ (ofGrammar g).productionsAt q.lhs token by simp [cell])
          have hcell := productionsAt_eq_of_calls hg mem hcolumn
            (.inl ⟨before, first, after, eq, nullable, begins⟩)
          rw [cell, List.cons.injEq] at hcell
          obtain rfl := hcell.1
          exact ih first (by simp [eq]) begins

-- Where a nonterminal vanishes in front of what follows it, so do all that it leads to.
theorem acc_leads_of_nullable {g : Grammar} (hg : (ofGrammar g).conflicts = []) {token : String}
    (hcolumn : token ∈ g.terminals ∨ token = endMarker) {s : Symbol} (h : Nullable g s) :
    ∀ name, s = .nonterminal name →
      token ∈ (FollowSets.ofGrammar g (FirstSets.ofGrammar g)).of name →
      Acc ((ofGrammar g).Leads token) name := by
  induction h with
  | expand p mem all ih =>
      rintro _ ⟨⟩ hfollow
      have hcell := productionsAt_eq_of_calls hg mem hcolumn (.inr ⟨all, hfollow⟩)
      constructor
      rintro inner ⟨q, before, after, hq, hrhs, _⟩
      rw [hcell, List.cons.injEq] at hq
      obtain rfl := hq.1
      refine ih (.nonterminal inner) (by simp [hrhs]) inner rfl ?_
      refine (FollowSets.closed_ofGrammar g _).last p mem before inner after hrhs ?_ hfollow
      rw [(FirstSets.exact_ofGrammar g).nullable_iff]
      exact fun s hs => all s (by simp [hrhs, hs])

-- Where the token begins a nonterminal, it leads to others that vanish in front of the
-- token and then to one that the token begins, but not to what comes after that.
theorem acc_leads_of_begins {g : Grammar} (hg : (ofGrammar g).conflicts = []) {token : String}
    (hcolumn : token ∈ g.terminals ∨ token = endMarker) {s : Symbol} (h : Begins g token s) :
    ∀ name, s = .nonterminal name → Acc ((ofGrammar g).Leads token) name := by
  induction h with
  | self => simp
  | expand p mem before after first eq nullable begins ih =>
      rintro _ ⟨⟩
      have hcell := productionsAt_eq_of_calls hg mem hcolumn
        (.inl ⟨before, first, after, eq, nullable, begins⟩)
      constructor
      rintro inner ⟨q, faded, others, hq, hrhs, hfades⟩
      rw [hcell, List.cons.injEq] at hq
      obtain rfl := hq.1
      rcases List.append_eq_append_iff.mp (eq.symm.trans hrhs) with
        ⟨skipped, hfaded, hrest⟩ | ⟨skipped, hbefore, hrest⟩
      · cases skipped with
        | nil => exact ih inner (List.cons.inj hrest).1
        | cons other skipped =>
            -- what the token begins would have faded
            rw [← (List.cons.inj hrest).1] at hfaded
            exact absurd begins ((hfades first (by simp [hfaded])).not_begins hg)
      · cases skipped with
        | nil => exact ih inner (List.cons.inj hrest).1.symm
        | cons other skipped =>
            obtain ⟨rfl, hothers⟩ := List.cons.inj hrest
            refine acc_leads_of_nullable hg hcolumn (nullable (.nonterminal inner) (by
              simp [hbefore])) inner rfl ?_
            apply (FollowSets.closed_ofGrammar g _).next p mem faded inner others hrhs
            rw [(FirstSets.exact_ofGrammar g).mem_iff]
            exact ⟨skipped, first, after, hothers, fun s hs => nullable s (by simp [hbefore, hs]),
              begins⟩

-- In the table of a grammar without conflicts nothing leads on forever.
theorem acc_leads {g : Grammar} (hg : (ofGrammar g).conflicts = []) (token name : String) :
    Acc ((ofGrammar g).Leads token) name := by
  constructor
  rintro inner hleads
  obtain ⟨p, before, after, hp, hrhs, hfades⟩ := hleads
  have hname : Acc ((ofGrammar g).Leads token) name := by
    obtain ⟨⟨mem, rfl, hcalls⟩, hcolumn⟩ := mem_productionsAt_ofGrammar.mp
      (show p ∈ (ofGrammar g).productionsAt name token by simp [hp])
    rcases hcalls with ⟨skipped, first, others, heq, hn, hb⟩ | ⟨hn, hfollow⟩
    · exact acc_leads_of_begins hg hcolumn (.expand p mem skipped others first heq hn hb) _ rfl
    · exact acc_leads_of_nullable hg hcolumn (.expand p mem hn) _ rfl hfollow
  exact hname.inv ⟨p, before, after, hp, hrhs, hfades⟩

-- So the goal on top never lies inside of itself.
theorem Nested.not_mem_enclosing {g : Grammar} (hg : (ofGrammar g).conflicts = []) {c : Config}
    (h : Nested (ofGrammar g) c) {goal : Goal} {rest : List Goal} {name : String}
    (hs : c.stack = goal :: rest) (hsym : goal.symbol = .nonterminal name) :
    name ∉ goal.enclosing c.input.length := fun hm =>
  not_rel_self_of_acc (acc_leads hg c.lookahead name).transGen
    (h.led [] goal rest name hs hsym (by simp) name hm)

theorem step_ne_error {g : Grammar} (hg : (ofGrammar g).conflicts = []) {c : Config}
    (h : Nested (ofGrammar g) c) (hend : ∃ goal ∈ c.stack, goal.symbol = .terminal endMarker)
    (fault : MachineFault) : (ofGrammar g).step c ≠ .stop (.error fault) := by
  intro herror
  rcases step_eq_error herror with ⟨_, hs⟩ | ⟨goal, rest, name, hs, hsym, hwhy⟩
  · obtain ⟨goal, hm, _⟩ := hend
    simp [hs] at hm
  · rcases hwhy with ⟨_, hm⟩ | ⟨_, hlong⟩
    · exact h.not_mem_enclosing hg hs hsym hm
    · have := length_productionsAt_le hg name c.lookahead
      omega

-- A run with the table of a grammar without conflicts ends with a verdict.
theorem exists_verdict {g : Grammar} (hg : (ofGrammar g).conflicts = []) (c : Config)
    (h : Nested (ofGrammar g) c) (hend : ∃ goal ∈ c.stack, goal.symbol = .terminal endMarker) :
    ∃ verdict, (ofGrammar g).run c = .ok verdict := by
  induction c using run.induct (ofGrammar g) with
  | case1 c verdict hstep =>
      rw [run_of_stop hstep]
      cases verdict with
      | ok verdict => exact ⟨verdict, rfl⟩
      | error fault => exact absurd hstep (step_ne_error hg h hend fault)
  | case2 c next hstep ih =>
      rw [run_of_next hstep]
      obtain ⟨goal, hm, hsym⟩ := hend
      rcases step_eq_next hstep with
        ⟨top, rest, name, input, hs, htop, hname, hi, rfl⟩ |
        ⟨top, rest, name, p, hs, htop, hp, _, rfl⟩
      · have hrest : goal ∈ rest := by
          rw [hs, List.mem_cons] at hm
          refine hm.resolve_left fun heq => hname ?_
          simpa [heq, htop] using hsym
        exact ih (h.read hs hi _) ⟨goal, hrest, hsym⟩
      · have hrest : goal ∈ rest := by
          rw [hs, List.mem_cons] at hm
          refine hm.resolve_left fun heq => ?_
          simp [heq, htop] at hsym
        exact ih (h.expand hs htop hp) ⟨goal, List.mem_append_right _ hrest, hsym⟩

end Table

end ContextFree
