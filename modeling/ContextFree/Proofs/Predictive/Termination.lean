import ContextFree.Proofs.Predictive.Correctness
import Mathlib.Logic.Relation

namespace ContextFree

namespace Config

-- The goals without the notes on what they are part of. From here a step is taken even if
-- the nonterminal on top lies inside of itself.
def forget (c : Config) : Config :=
  { c with stack := c.stack.map fun goal => { goal with above := [] } }

-- The symbols of the stack from the top. With the input they decide what comes next.
def symbols (c : Config) : List Symbol := c.stack.map Goal.symbol

@[simp] theorem symbols_forget (c : Config) : c.forget.symbols = c.symbols := by
  simp [forget, symbols, Function.comp_def]

@[simp] theorem input_forget (c : Config) : c.forget.input = c.input := rfl

@[simp] theorem lookahead_forget (c : Config) : c.forget.lookahead = c.lookahead := rfl

theorem stack_forget {c : Config} {goal : Goal} {rest : List Goal} (hs : c.stack = goal :: rest) :
    c.forget.stack = { goal with above := [] } :: rest.map fun goal => { goal with above := [] } := by
  simp [forget, hs]

end Config

namespace Table

-- A step that nothing keeps from going round in circles.
def Moves (t : Table) (c next : Config) : Prop := t.step c.forget = .next next

theorem Moves.congr {t : Table} {c other next : Config} (h : t.Moves c next)
    (hsame : other.forget = c.forget) : t.Moves other next := by
  rw [Moves, hsame]
  exact h

-- Such a step reads the terminal on top or puts a right-hand side in the place of the
-- nonterminal on top.
theorem Moves.cases {t : Table} {c next : Config} (h : t.Moves c next) :
    (∃ name rest, c.symbols = .terminal name :: rest ∧ next.input.length < c.input.length) ∨
    (∃ name rest p, c.symbols = .nonterminal name :: rest ∧
      t.productionsAt name c.lookahead = [p] ∧ next.symbols = p.rhs ++ rest ∧
      next.input = c.input) := by
  have hsymbols {goal : Goal} {rest : List Goal} (hs : c.forget.stack = goal :: rest) :
      c.symbols = goal.symbol :: rest.map Goal.symbol := by
    rw [← c.symbols_forget, Config.symbols, hs, List.map_cons]
  rcases step_eq_next h with
    ⟨goal, rest, name, input, hs, hsym, _, hi, rfl⟩ | ⟨goal, rest, name, p, hs, hsym, hp, _, rfl⟩
  · refine .inl ⟨name, rest.map Goal.symbol, hsym ▸ hsymbols hs, ?_⟩
    rw [Config.input_forget] at hi
    simp [hi]
  · refine .inr ⟨name, rest.map Goal.symbol, p, hsym ▸ hsymbols hs, hp, ?_, rfl⟩
    simp [Config.symbols, stack_expand, Function.comp_def, goalFor]

-- With this input, the machine cannot go on forever when these symbols are on the stack.
def Halts (t : Table) (input : List String) (symbols : List Symbol) : Prop :=
  ∀ c : Config, c.input = input → c.symbols = symbols → Acc (fun next c => t.Moves c next) c

section Halting

variable {t : Table} {input : List String} {rest : List Symbol} {name : String}

theorem halts_nil (t : Table) (input : List String) : t.Halts input [] := by
  intro c _ hsymbols
  constructor
  intro next hmoves
  rcases hmoves.cases with ⟨_, _, hs, _⟩ | ⟨_, _, _, hs, _⟩ <;> simp [hsymbols] at hs

theorem halts_terminal
    (hread : ∀ c : Config, c.input.length < input.length → Acc (fun next c => t.Moves c next) c) :
    t.Halts input (.terminal name :: rest) := by
  rintro c rfl hsymbols
  constructor
  intro next hmoves
  rcases hmoves.cases with ⟨_, _, _, hlt⟩ | ⟨_, _, _, hs, _⟩
  · exact hread next hlt
  · simp [hsymbols] at hs

theorem halts_expand
    (h : ∀ p, t.productionsAt name (input.headD endMarker) = [p] → t.Halts input (p.rhs ++ rest)) :
    t.Halts input (.nonterminal name :: rest) := by
  rintro c rfl hsymbols
  constructor
  intro next hmoves
  rcases hmoves.cases with ⟨_, _, hs, _⟩ | ⟨_, _, p, hs, hp, hnext, hi⟩
  · simp [hsymbols] at hs
  · rw [hsymbols, List.cons.injEq, Symbol.nonterminal.injEq] at hs
    obtain ⟨rfl, rfl⟩ := hs
    exact h p hp next hi hnext

-- A right-hand side comes up from the left. What stands behind a nonterminal comes up only if
-- that nonterminal has faded, and the last of it only if all have.
theorem halts_part {p : Production}
    (hp : t.productionsAt name (input.headD endMarker) = [p])
    (hread : ∀ c : Config, c.input.length < input.length → Acc (fun next c => t.Moves c next) c)
    (hleads : ∀ inner rest, t.Leads (input.headD endMarker) inner name →
      (t.Fades (input.headD endMarker) (.nonterminal inner) → t.Halts input rest) →
      t.Halts input (.nonterminal inner :: rest))
    (hrest : t.Fades (input.headD endMarker) (.nonterminal name) → t.Halts input rest)
    (after before : List Symbol) (hrhs : p.rhs = before ++ after)
    (hfades : ∀ s ∈ before, t.Fades (input.headD endMarker) s) :
    t.Halts input (after ++ rest) := by
  induction after generalizing before with
  | nil =>
      rw [List.append_nil] at hrhs
      exact hrest (.expand name p hp (hrhs ▸ hfades))
  | cons s after ih =>
      cases s with
      | terminal token => exact halts_terminal hread
      | nonterminal inner =>
          refine hleads inner _ ⟨p, before, after, hp, hrhs, hfades⟩ fun hinner => ?_
          refine ih (before ++ [.nonterminal inner]) (by simpa using hrhs) fun s hs => ?_
          rcases List.mem_append.mp hs with hs | hs
          · exact hfades s hs
          · rw [List.mem_singleton.mp hs]
            exact hinner

-- The induction is on what the nonterminal leads to on this input.
theorem halts_nonterminal
    (hread : ∀ c : Config, c.input.length < input.length → Acc (fun next c => t.Moves c next) c)
    (hacc : Acc (t.Leads (input.headD endMarker)) name)
    (hrest : t.Fades (input.headD endMarker) (.nonterminal name) → t.Halts input rest) :
    t.Halts input (.nonterminal name :: rest) := by
  induction hacc generalizing rest with
  | intro name _ ih =>
      refine halts_expand fun p hp => ?_
      exact halts_part hp hread (fun inner _ hleads => ih inner hleads) hrest p.rhs [] rfl (by simp)

end Halting

-- Where nothing leads on forever, no run does, whatever is on the stack at first.
theorem wellFounded_moves {t : Table} (h : ∀ token name, Acc (t.Leads token) name) :
    WellFounded fun next c => t.Moves c next := by
  constructor
  intro c
  induction c using (InvImage.wf (fun c : Config => c.input.length) Nat.lt_wfRel.wf).induction with
  | _ c ih =>
      have hhalts : ∀ symbols, t.Halts c.input symbols := by
        intro symbols
        induction symbols with
        | nil => exact halts_nil t c.input
        | cons s rest ihs =>
            cases s with
            | terminal name => exact halts_terminal ih
            | nonterminal name => exact halts_nonterminal ih (h _ name) fun _ => ihs
      exact hhalts c.symbols c rfl rfl

-- A machine that finds no circle takes the same steps without looking for any.
theorem step_forget_of_next {t : Table} {c next : Config} (h : t.step c = .next next) :
    ∃ other, t.Moves c other ∧ other.forget = next.forget := by
  rcases step_eq_next h with
    ⟨goal, rest, name, input, hs, hsym, hend, hi, rfl⟩ | ⟨goal, rest, name, p, hs, hsym, hp, _, rfl⟩
  · refine ⟨_, step_read (Config.stack_forget hs) hsym hend hi, ?_⟩
    simp [Config.forget, Function.comp_def]
  · refine ⟨_, step_expand (Config.stack_forget hs) hsym hp ?_, ?_⟩
    · simp only [Goal.enclosing, ite_self, List.not_mem_nil, not_false_eq_true]
    · simp [Config.forget, Config.expand, Function.comp_def]

theorem step_forget_of_stop {t : Table} {c : Config} {verdict : Verdict}
    (h : t.step c = .stop (.ok verdict)) : t.step c.forget = .stop (.ok verdict) := by
  cases hs : c.stack with
  | nil => simp [step, hs] at h
  | cons goal rest =>
      simp only [step, hs] at h
      simp only [step, Config.stack_forget hs]
      cases hsym : goal.symbol with
      | terminal name =>
          simp only [hsym] at h ⊢
          split at h
          · rename_i hend
            rw [if_pos hend]
            exact h
          · rename_i hend
            split at h
            · rename_i hi
              simpa only [if_neg hend, Config.input_forget, hi] using h
            · rename_i token input hi
              split at h
              · simp at h
              · rename_i hne
                simpa only [if_neg hend, Config.input_forget, hi, if_neg hne] using h
      | nonterminal name =>
          simp only [hsym] at h
          split at h
          · rename_i hnil
            simpa [hnil] using h
          · split at h <;> simp at h
          · simp at h

-- So the verdict is the same.
theorem exists_moves_of_run {t : Table} {c : Config} {verdict : Verdict}
    (h : t.run c = .ok verdict) (other : Config) (hsame : other.forget = c.forget) :
    ∃ last, Relation.ReflTransGen t.Moves other last ∧ t.step last.forget = .stop (.ok verdict) := by
  induction c using run.induct t generalizing other with
  | case1 c result hstep =>
      rw [run_of_stop hstep] at h
      subst h
      exact ⟨other, .refl, hsame ▸ step_forget_of_stop hstep⟩
  | case2 c next hstep ih =>
      rw [run_of_next hstep] at h
      obtain ⟨following, hmoves, hforget⟩ := step_forget_of_next hstep
      obtain ⟨last, hreaches, hlast⟩ := ih h following hforget
      exact ⟨last, .head (hmoves.congr hsame) hreaches, hlast⟩

end Table

namespace Predictive

-- Either the table of a grammar has conflicts, and the machine is not started, or the machine
-- cannot go on forever, whatever it is started with. So nothing is lost by looking out for
-- circles: there are none, and the verdict is the one that is reached without it.
theorem run_terminates (g : Grammar) (tokens : List String) :
    ((Table.ofGrammar g).conflicts ≠ [] ∧
      parse g tokens = .ok (.conflict (Table.ofGrammar g).conflicts)) ∨
    (WellFounded (fun next c => (Table.ofGrammar g).Moves c next) ∧
      (∃ verdict last, (Table.ofGrammar g).run (Config.initial g.start tokens) = .ok verdict ∧
        Relation.ReflTransGen (Table.ofGrammar g).Moves (Config.initial g.start tokens) last ∧
        (Table.ofGrammar g).step last.forget = .stop (.ok verdict)) ∧
      (parse g tokens = .ok .noParse ∨ ∃ t, parse g tokens = .ok (.parse t))) := by
  by_cases hg : (Table.ofGrammar g).conflicts = []
  · right
    refine ⟨Table.wellFounded_moves (Table.acc_leads hg), ?_, ?_⟩
    · obtain ⟨verdict, hrun⟩ := Table.exists_verdict hg (Config.initial g.start tokens)
        (Table.nested_initial _ _ _) (by simp [Config.initial])
      obtain ⟨last, hmoves, hlast⟩ := Table.exists_moves_of_run hrun _ rfl
      exact ⟨verdict, last, hrun, hmoves, hlast⟩
    · exact (parse_cases hg tokens).imp_right fun hparse => hparse.imp fun _ => And.left
  · exact .inl ⟨hg, by simp [parse, Table.parse, hg]⟩

end Predictive

end ContextFree
