import ContextFree.Power
import ContextFree.Predictive.Forest
import ContextFree.Predictive.Table

namespace ContextFree

-- A symbol on the stack of the machine. Its tree goes to the child list `list`.
-- It was pushed when `left` tokens were left, while the nonterminals `above` had
-- been expanded one inside the other without reading a token in between.
structure Goal where
  symbol : Symbol
  list : Nat
  left : Nat
  above : List String

-- The nonterminals that a goal is part of, as far as they were expanded since
-- the last token was read.
def Goal.enclosing (goal : Goal) (left : Nat) : List String :=
  if goal.left = left then goal.above else []

-- A configuration of the machine: the stack from the top, the tree so far and
-- the tokens that are left.
structure Config where
  stack : List Goal
  forest : Forest
  input : List String

-- Why a machine cannot go on.
inductive MachineFault where
  | emptyStack
  -- the cell in charge holds more than one production
  | ambiguousCell
  -- a nonterminal led back to itself without reading a token
  | endless
  -- the tree has no root or several
  | noRoot
deriving DecidableEq

inductive Verdict where
  | accepted (forest : Forest)
  | rejected

inductive Step where
  | next (config : Config)
  | stop (verdict : Except MachineFault Verdict)

namespace Config

-- The end of the input is at the bottom of the stack.
def initial (start : String) (tokens : List String) : Config where
  stack := [
    { symbol := .nonterminal start, list := 0, left := tokens.length, above := [] },
    { symbol := .terminal endMarker, list := 0, left := tokens.length, above := [] }]
  forest := Forest.initial
  input := tokens

-- The next token, or the end marker.
def lookahead (c : Config) : String := c.input.headD endMarker

-- The configuration after the goal on top was expanded by a production: the
-- symbols of the right-hand side become the topmost goals, in order.
def expand (c : Config) (goal : Goal) (rest : List Goal) (name : String) (p : Production) :
    Config :=
  let list := c.forest.size
  let left := c.input.length
  let above := name :: goal.enclosing left
  { stack := p.rhs.map (fun symbol => { symbol, list, left, above }) ++ rest
    forest := Forest.addTo (c.forest.push []) goal.list (.node name list)
    input := c.input }

end Config

namespace Table

-- Takes one goal from the stack. A terminal has to be the next token. The end
-- marker ends the work wherever it is. A nonterminal is replaced by the
-- right-hand side that the table holds for it. If it lies inside itself and no
-- token was read in between, the same steps would come again and again, since
-- only the next token and the symbol decide what it is replaced by.
def step (t : Table) (c : Config) : Step :=
  match c.stack with
  | [] => .stop (.error .emptyStack)
  | goal :: rest =>
    match goal.symbol with
    | .terminal name =>
      if name = endMarker then
        .stop (.ok (if c.input.isEmpty then .accepted c.forest else .rejected))
      else
        match c.input with
        | [] => .stop (.ok .rejected)
        | token :: input =>
          if token = name then
            .next { stack := rest, forest := c.forest.addTo goal.list (.leaf name), input }
          else .stop (.ok .rejected)
    | .nonterminal name =>
      match t.productionsAt name c.lookahead with
      | [] => .stop (.ok .rejected)
      | [p] =>
        if name ∈ goal.enclosing c.input.length then .stop (.error .endless)
        else .next (c.expand goal rest name p)
      | _ => .stop (.error .ambiguousCell)

-- More than the length of any right-hand side in the table.
def spread (t : Table) : Nat :=
  (t.cells.flatMap fun c => c.productions.map (·.rhs)).flatten.length + 1

-- How many cells belong to nonterminals that are not among the given ones.
def free (t : Table) (above : List String) : Nat := t.cells.countP (·.nonterminal ∉ above)

-- How many steps a goal can cost before the next token is read, at most.
def weight (t : Table) (left : Nat) (goal : Goal) : Nat :=
  match goal.symbol with
  | .terminal _ => 1
  | .nonterminal _ => Nat.pow t.spread (t.free (goal.enclosing left))

def stackWeight (t : Table) (c : Config) : Nat :=
  c.stack.foldr (fun goal below => t.weight c.input.length goal + below) 0

theorem mem_cells_of_productionsAt (t : Table) (nonterminal terminal : String) (p : Production)
    (h : p ∈ t.productionsAt nonterminal terminal) :
    ∃ cell ∈ t.cells, cell.nonterminal = nonterminal ∧ cell.terminal = terminal ∧
      p ∈ cell.productions := by
  unfold productionsAt at h
  split at h
  · simp at h
  · rename_i cell hc
    have hp := List.find?_some hc
    simp only [decide_eq_true_eq] at hp
    exact ⟨cell, List.mem_of_find?_eq_some hc, hp.1, hp.2, h⟩

theorem length_lt_spread (t : Table) (cell : Cell) (hc : cell ∈ t.cells) (p : Production)
    (hp : p ∈ cell.productions) : p.rhs.length < t.spread := by
  have hmem : p.rhs ∈ t.cells.flatMap fun c => c.productions.map (·.rhs) :=
    List.mem_flatMap.mpr ⟨cell, hc, List.mem_map_of_mem hp⟩
  exact Nat.lt_succ_of_le (List.sublist_flatten_of_mem hmem).length_le

-- Expanding a nonterminal of the table leaves fewer cells free below it.
theorem free_cons_lt (t : Table) (name : String) (above : List String) (cell : Cell)
    (hc : cell ∈ t.cells) (hn : cell.nonterminal = name) (ha : name ∉ above) :
    t.free (name :: above) < t.free above := by
  unfold free
  generalize t.cells = cells at hc
  induction cells with
  | nil => simp at hc
  | cons first rest ih =>
    have hmono : rest.countP (·.nonterminal ∉ name :: above) ≤
        rest.countP (·.nonterminal ∉ above) := by
      apply List.countP_mono_left
      intro c _ h
      simp only [List.mem_cons, not_or, decide_eq_true_eq] at h ⊢
      exact h.2
    rw [List.countP_cons, List.countP_cons]
    have hsub : decide (first.nonterminal ∉ name :: above) = true →
        decide (first.nonterminal ∉ above) = true := by
      simp only [List.mem_cons, not_or, decide_eq_true_eq]
      exact And.right
    rcases List.mem_cons.mp hc with rfl | hc
    · have h₁ : decide (cell.nonterminal ∉ above) = true := by simpa [hn] using ha
      have h₂ : ¬ decide (cell.nonterminal ∉ name :: above) = true := by simp [hn]
      rw [if_pos h₁, if_neg h₂]
      omega
    · have := ih hc
      by_cases h : decide (first.nonterminal ∉ name :: above) = true
      · rw [if_pos h, if_pos (hsub h)]
        omega
      · rw [if_neg h]
        omega

theorem foldr_weight_le (t : Table) (left : Nat) (goals : List Goal) (bound below : Nat)
    (h : ∀ goal ∈ goals, t.weight left goal ≤ bound) :
    goals.foldr (fun goal below => t.weight left goal + below) below ≤
      goals.length * bound + below := by
  induction goals with
  | nil => simp
  | cons goal goals ih =>
    have h₁ := h goal (by simp)
    have h₂ := ih fun g hg => h g (by simp [hg])
    simp only [List.foldr_cons, List.length_cons, Nat.add_mul, Nat.one_mul]
    omega

-- Each step reads a token or makes the stack lighter.
theorem step_decreases (t : Table) (c next : Config) (h : t.step c = .next next) :
    next.input.length < c.input.length ∨
      (next.input = c.input ∧ t.stackWeight next < t.stackWeight c) := by
  unfold step at h
  split at h
  · simp at h
  · rename_i goal rest hs
    split at h
    · split at h
      · simp at h
      · split at h
        · simp at h
        · rename_i token input hi
          split at h
          · left
            injection h with h
            subst h
            rw [hi]
            simp
          · simp at h
    · rename_i name hsym
      split at h
      · simp at h
      · rename_i p hp
        split at h
        · simp at h
        · rename_i hn
          right
          injection h with h
          subst h
          refine ⟨rfl, ?_⟩
          obtain ⟨cell, hc, hcn, _, hcp⟩ := mem_cells_of_productionsAt t name c.lookahead p
            (by rw [hp]; simp)
          have hlen := length_lt_spread t cell hc p hcp
          have hfree := free_cons_lt t name _ cell hc hcn hn
          have hgoal : t.weight c.input.length goal =
              Nat.pow t.spread (t.free (goal.enclosing c.input.length)) := by
            unfold weight; rw [hsym]
          -- every new goal weighs at most what is left one level further down
          have hnew := foldr_weight_le t c.input.length
            (p.rhs.map fun symbol =>
              { symbol, list := c.forest.size, left := c.input.length,
                above := name :: goal.enclosing c.input.length })
            (Nat.pow t.spread (t.free (name :: goal.enclosing c.input.length)))
            (rest.foldr (fun goal below => t.weight c.input.length goal + below) 0) (by
              intro g hg
              obtain ⟨symbol, _, rfl⟩ := List.mem_map.mp hg
              unfold weight
              split
              · exact Nat.pow_pos (Nat.succ_pos _)
              · simp [Goal.enclosing])
          have hpow := mul_pow_lt _ _ _ _ hlen hfree
          unfold stackWeight Config.expand
          simp only [hs, List.foldr_append, List.foldr_cons, hgoal, List.length_map] at hnew ⊢
          omega
      · simp at h

-- The tokens that are left come first, then the weight of the stack.
def measure (t : Table) (c : Config) : Nat × Nat := (c.input.length, t.stackWeight c)

theorem measure_step (t : Table) (c next : Config) (h : t.step c = .next next) :
    Prod.Lex (· < ·) (· < ·) (t.measure next) (t.measure c) := by
  unfold measure
  rcases t.step_decreases c next h with h | ⟨he, h⟩
  · exact Prod.Lex.left _ _ h
  · exact he ▸ Prod.Lex.right _ h

-- Steps are made until one stops.
def run (t : Table) (c : Config) : Except MachineFault Verdict :=
  match _h : t.step c with
  | .stop verdict => verdict
  | .next next => run t next
termination_by t.measure c
decreasing_by exact t.measure_step c next _h

-- What the machine reports about a configuration: the goals below the top one,
-- the lowest first and no more than six, the next token and the top.
def report (c : Config) : List String :=
  match c.stack with
  | [] => []
  | goal :: rest =>
    let below := " ".intercalate ((rest.take 6).reverse.map (·.symbol.name))
    let move := padTo 40 below ++ " " ++ padTo 15 c.lookahead ++ " " ++ goal.symbol.name
    if goal.symbol = .terminal endMarker ∧ ¬ c.input.isEmpty then
      [move, "input remains after the end of the derivation"]
    else [move]

-- The reports on all configurations of a run.
def trail (t : Table) (c : Config) : List String :=
  match _h : t.step c with
  | .stop _ => report c
  | .next next => report c ++ trail t next
termination_by t.measure c
decreasing_by exact t.measure_step c next _h

end Table

end ContextFree
