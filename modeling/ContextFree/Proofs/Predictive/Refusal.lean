import ContextFree.Proofs.Derivation.Paths
import ContextFree.Proofs.Predictive.Correctness
import Mathlib.Logic.Relation

namespace ContextFree

-- The nonterminal and where it begins, however far it reaches.
def Use.start (u : Use) : String × Nat := (u.production.lhs, u.first)

namespace Tree

-- A node lies below another one for the same nonterminal, and both begin at the same token.
def LeftRecursive (t : Tree) : Prop :=
  ∃ path ∈ t.paths 0, ∃ outer inner : Use, [outer, inner].Sublist path ∧
    inner.production.lhs = outer.production.lhs ∧ inner.first = outer.first

theorem avoids_start_iff (t : Tree) : t.Avoids Use.start [] 0 ↔ ¬ t.LeftRecursive := by
  have hnodup (path : List Use) : (path.map Use.start).Nodup ↔
      ∀ outer inner : Use, [outer, inner].Sublist path → outer.start ≠ inner.start := by
    rw [List.Nodup, List.pairwise_map, List.pairwise_iff_forall_sublist]
  simp only [avoids_iff, hnodup, List.not_mem_nil, not_false_eq_true, implies_true, and_true]
  simp only [LeftRecursive, Use.start, ne_eq, Prod.mk.injEq, not_exists, not_and, eq_comm]

variable {table : Table} {next : String}

theorem allForeseen_append (ts us : List Tree) :
    AllForeseen table next (ts ++ us) ↔
      AllForeseen table ((yieldList us).headD next) ts ∧ AllForeseen table next us := by
  induction ts with
  | nil => simp [AllForeseen]
  | cons t ts ih =>
      simp only [List.cons_append, AllForeseen, ih, yieldList_append, headD_append, and_assoc]

-- A foreseen tree that spells nothing fades in front of what comes after it.
theorem Foreseen.fades {t : Tree} (h : t.Foreseen table next) (hyield : t.yield = []) :
    table.Fades next t.root := by
  induction t with
  | leaf terminal => simp at hyield
  | node symbol children ih =>
      obtain ⟨hcell, hchildren⟩ := h
      rw [yield_node] at hyield
      rw [hyield, List.headD_nil] at hcell
      refine .expand symbol _ hcell fun s hs => ?_
      obtain ⟨child, hc, rfl⟩ := List.mem_map.mp hs
      obtain ⟨left, right, rfl⟩ := List.append_of_mem hc
      simp only [yieldList_append, yieldList_cons, List.append_eq_nil_iff] at hyield
      have hchild := ((allForeseen_append left (child :: right)).mp hchildren).2.1
      rw [hyield.2.2, List.headD_nil] at hchild
      exact ih child hc hchild hyield.2.1

-- Behind siblings that spell nothing, a node is led to by its parent.
theorem Foreseen.leads {symbol inner : String} {left right : List Tree} {t : Tree}
    (h : (Tree.node symbol (left ++ t :: right)).Foreseen table next) (hleft : yieldList left = [])
    (hroot : t.root = .nonterminal inner) :
    table.Leads ((t.yield ++ yieldList right).headD next) inner symbol := by
  obtain ⟨hcell, hchildren⟩ := h
  simp only [yieldList_append, yieldList_cons, hleft, List.nil_append] at hcell
  refine ⟨_, left.map root, right.map root, hcell, by simp [hroot], fun s hs => ?_⟩
  obtain ⟨sibling, hmem, rfl⟩ := List.mem_map.mp hs
  obtain ⟨before, after, rfl⟩ := List.append_of_mem hmem
  simp only [yieldList_append, yieldList_cons, List.append_eq_nil_iff] at hleft
  have hsibling := ((allForeseen_append _ _).mp ((allForeseen_append _ _).mp hchildren).1).2.1
  rw [hleft.2.2, List.headD_nil, yieldList_cons] at hsibling
  exact hsibling.fades hleft.2.1

-- The nodes above begin no later, and those that begin at this very token lead to the symbol
-- when they are expanded in front of it.
def Approached (table : Table) (above : List (String × Nat)) (first : Nat) (token : String)
    (s : Symbol) : Prop :=
  ∀ name origin, (name, origin) ∈ above → origin ≤ first ∧
    (origin = first → ∀ inner, s = .nonterminal inner →
      Relation.TransGen (table.Leads token) inner name)

theorem Approached.child {above : List (String × Nat)} {first : Nat} {symbol : String}
    {left right : List Tree} {t : Tree}
    (hforeseen : (Tree.node symbol (left ++ t :: right)).Foreseen table next)
    (h : Approached table above first ((yieldList (left ++ t :: right)).headD next)
      (.nonterminal symbol)) :
    Approached table ((symbol, first) :: above) (first + (yieldList left).length)
      ((t.yield ++ yieldList right).headD next) t.root := by
  have hstep (hlength : (yieldList left).length = 0) (inner : String)
      (hroot : t.root = .nonterminal inner) :
      table.Leads ((t.yield ++ yieldList right).headD next) inner symbol :=
    hforeseen.leads (List.length_eq_zero_iff.mp hlength) hroot
  intro name origin hm
  rcases List.mem_cons.mp hm with heq | hm
  · obtain ⟨rfl, rfl⟩ := Prod.mk.inj heq
    exact ⟨by omega, fun _ inner hroot => .single (hstep (by omega) inner hroot)⟩
  · obtain ⟨hle, hleads⟩ := h name origin hm
    refine ⟨by omega, fun heq inner hroot => ?_⟩
    have hlength : (yieldList left).length = 0 := by omega
    -- nothing is spelled in front of the child, so it is expanded in front of the same token
    have habove := hleads (by omega) symbol rfl
    rw [yieldList_append, yieldList_cons, List.length_eq_zero_iff.mp hlength, List.nil_append]
      at habove
    exact .head (hstep hlength inner hroot) habove

-- Where nothing leads on forever, no nonterminal of a foreseen tree begins inside of itself at
-- the token at which it begins.
theorem Foreseen.avoids (hacc : ∀ token name, Acc (table.Leads token) name) {t : Tree}
    (h : t.Foreseen table next) {above : List (String × Nat)} {first : Nat}
    (habove : Approached table above first (t.yield.headD next) t.root) :
    t.Avoids Use.start above first := by
  induction t generalizing above first next with
  | leaf terminal => trivial
  | node symbol children ih =>
      rw [avoids_node]
      constructor
      · intro hm
        exact not_rel_self_of_acc (hacc _ symbol).transGen ((habove _ _ hm).2 rfl symbol rfl)
      · -- the children from any of them on, with those in front of it kept in view
        have hall : ∀ right left, children = left ++ right →
            AllAvoid Use.start ((symbol, first) :: above) (first + (yieldList left).length)
              right := by
          intro right
          induction right with
          | nil => exact fun _ _ => trivial
          | cons t right ihr =>
              intro left hchildren
              subst hchildren
              refine ⟨?_, ?_⟩
              · have hchild := ((allForeseen_append left (t :: right)).mp h.2).2.1
                refine ih t (by simp) hchild ?_
                rw [← headD_append]
                exact habove.child h
              · have hrest := ihr (left ++ [t]) (by simp)
                simpa [Nat.add_assoc] using hrest
        exact hall children [] rfl

end Tree

namespace Predictive

-- Without conflicts the table of a grammar leads no nonterminal back to itself.
theorem not_leftRecursive {g : Grammar} (hg : (Table.ofGrammar g).conflicts = []) {t : Tree}
    {tokens : List String} (h : t.Derivation g g.start tokens) : ¬ t.LeftRecursive := by
  rw [← Tree.avoids_start_iff]
  have hforeseen : t.Foreseen (Table.ofGrammar g) endMarker := by
    refine h.valid.foreseen hg endMarker (.inr rfl) ?_
    rw [h.root_eq]
    exact (FollowSets.closed_ofGrammar g _).start
  exact hforeseen.avoids (Table.acc_leads hg) nofun

-- A grammar that has two derivation trees for one input, or a derivation tree in which a
-- nonterminal begins with itself, is refused: its table has a conflict, and that is the answer
-- to every input.
theorem refuses (g : Grammar)
    (h : (∃ tokens, ∃ t u : Tree, t.Derivation g g.start tokens ∧ u.Derivation g g.start tokens ∧
        t ≠ u) ∨
      ∃ tokens, ∃ t : Tree, t.Derivation g g.start tokens ∧ t.LeftRecursive) :
    (Table.ofGrammar g).conflicts ≠ [] ∧
      ∀ tokens, parse g tokens = .ok (.conflict (Table.ofGrammar g).conflicts) := by
  have hconflict : (Table.ofGrammar g).conflicts ≠ [] := by
    intro hg
    rcases h with ⟨tokens, t, u, ht, hu, hne⟩ | ⟨tokens, t, ht, hleft⟩
    · exact hne (derivation_unique hg ht hu)
    · exact not_leftRecursive hg ht hleft
  exact ⟨hconflict, fun tokens => by simp [parse, Table.parse, hconflict]⟩

-- `S` begins with itself behind an `A`, which is always empty.
def screened : Grammar where
  nonterminals := ["S", "A"]
  terminals := ["b", "c"]
  productions := [
    { lhs := "S", rhs := [.nonterminal "A", .nonterminal "S", .terminal "b"] },
    { lhs := "S", rhs := [.terminal "c"] },
    { lhs := "A", rhs := [] }]
  start := "S"
  problems_eq := by decide +kernel

theorem refuses_screened :
    (∃ tokens, ∃ t : Tree, t.Derivation screened screened.start tokens ∧ t.LeftRecursive) ∧
      (Table.ofGrammar screened).conflicts ≠ [] ∧
      ∀ tokens, parse screened tokens = .ok (.conflict (Table.ofGrammar screened).conflicts) := by
  have h : ∃ tokens, ∃ t : Tree, t.Derivation screened screened.start tokens ∧
      t.LeftRecursive := by
    let tree : Tree := .node "S" [.node "A" [], .node "S" [.leaf "c"], .leaf "b"]
    let outer : Use :=
      ⟨⟨"S", [.nonterminal "A", .nonterminal "S", .terminal "b"]⟩, 0, 2⟩
    let inner : Use := ⟨⟨"S", [.terminal "c"]⟩, 0, 1⟩
    refine ⟨["c", "b"], tree, ⟨rfl, by simp [tree, screened], rfl⟩, [outer, inner], by decide,
      outer, inner, .refl _, rfl, rfl⟩
  exact ⟨h, refuses screened (.inr h)⟩

end Predictive

end ContextFree
