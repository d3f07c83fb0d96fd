import ContextFree.Proofs.Backtracking.Correctness
import ContextFree.Proofs.Chart.Correctness
import ContextFree.Proofs.Derivation.Cycles
import ContextFree.Proofs.Derivation.Loops
import ContextFree.Proofs.Predictive.Correctness

namespace ContextFree

theorem Enumerates.eq_singleton {P : α → Prop} {items : List α} (h : Enumerates P items) {a : α}
    (hne : items ≠ []) (ha : ∀ b, P b → b = a) : items = [a] := by
  have hall : ∀ b ∈ items, b = a := fun b hb => ha b ((h.mem_iff b).mp hb)
  match items, h.nodup, hne with
  | [b], _, _ => rw [hall b (by simp)]
  | b :: c :: rest, hnodup, _ =>
      have hb := hall b (by simp)
      have hc := hall c (by simp)
      simp [hb, hc] at hnodup

namespace Predictive

-- Any other answer than conflicts means that the table has none.
theorem conflicts_eq_nil {g : Grammar} {tokens : List String} {outcome : Outcome}
    (h : parse g tokens = .ok outcome) (hno : ∀ cells, outcome ≠ .conflict cells) :
    (Table.ofGrammar g).conflicts = [] := by
  by_cases hg : (Table.ofGrammar g).conflicts = []
  · exact hg
  · simp only [parse, Table.parse, if_pos hg, Except.ok.injEq] at h
    exact absurd h.symm (hno _)

end Predictive

section Agreeing

variable {g : Grammar} {tokens : List String}

theorem parses_eq_singleton {trees : List Tree}
    (htrees : Enumerates (fun t => t.Derivation g g.start tokens ∧
      ∀ path ∈ t.paths 0, path.Nodup) trees) {t : Tree}
    (h : Predictive.parse g tokens = .ok (.parse t)) : trees = [t] := by
  have hg := Predictive.conflicts_eq_nil h nofun
  have hd := Predictive.derivation_of_parse hg h
  exact htrees.eq_singleton ((Chart.ne_nil_iff htrees).mpr ⟨t, hd⟩)
    fun u hu => Predictive.derivation_unique hg hu.1 hd

theorem parses_eq_nil {trees : List Tree}
    (htrees : Enumerates (fun t => t.Derivation g g.start tokens ∧
      ∀ path ∈ t.paths 0, path.Nodup) trees)
    (h : Predictive.parse g tokens = .ok .noParse) : trees = [] := by
  have hnone := (Predictive.noParse_iff (Predictive.conflicts_eq_nil h nofun) tokens).mp h
  by_cases hnil : trees = []
  · exact hnil
  · exact absurd ((Chart.ne_nil_iff htrees).mp hnil) hnone

-- Without conflicts there is only one tree that the search can find.
theorem search_eq_of_parse {t : Tree} (h : Predictive.parse g tokens = .ok (.parse t))
    {r : Option Tree} (hr : Backtracking.parse g tokens = .ok r) : r = some t := by
  have hg := Predictive.conflicts_eq_nil h nofun
  have hd := Predictive.derivation_of_parse hg h
  cases r with
  | none => exact absurd ⟨t, hd⟩ (Backtracking.not_exists_of_parse hr)
  | some u => rw [Predictive.derivation_unique hg (Backtracking.derivation_of_parse hr) hd]

theorem search_eq_of_noParse (h : Predictive.parse g tokens = .ok .noParse) {r : Option Tree}
    (hr : Backtracking.parse g tokens = .ok r) : r = none := by
  have hnone := (Predictive.noParse_iff (Predictive.conflicts_eq_nil h nofun) tokens).mp h
  cases r with
  | none => rfl
  | some u => exact absurd ⟨u, Backtracking.derivation_of_parse hr⟩ hnone

end Agreeing

-- The three parsers agree wherever they answer. The chart always does, and with fewer tokens than
-- the limit the search does unless a length is too large to be added up while the shortest ones
-- are looked for.
theorem parsers_agree (g : Grammar) (tokens : List String) :
    ∃ trees, Chart.parse g tokens = .ok trees ∧
      (∀ t, Predictive.parse g tokens = .ok (.parse t) → trees = [t]) ∧
      (Predictive.parse g tokens = .ok .noParse → trees = []) ∧
      (∀ r, Backtracking.parse g tokens = .ok r →
        ((∃ t, r = some t) ↔ trees ≠ []) ∧
        (∀ t, Predictive.parse g tokens = .ok (.parse t) → r = some t) ∧
        (Predictive.parse g tokens = .ok .noParse → r = none)) ∧
      (tokens.length < Debt.limit → Lengths.shortest? g ≠ none →
        ∃ r, Backtracking.parse g tokens = .ok r) ∧
      (Lengths.shortest? g = none → Backtracking.parse g tokens = .error .tooLarge) ∧
      ∀ base, 0 < base → (∀ p ∈ g.productions, p.rhs.length ≤ base) →
        Nat.pow base g.sortedNonterminals.length < Debt.limit → Lengths.shortest? g ≠ none := by
  obtain ⟨trees, hparse, htrees⟩ := Chart.exists_parse g tokens
  refine ⟨trees, hparse, fun t => parses_eq_singleton htrees, parses_eq_nil htrees,
    fun r hr => ⟨?_, fun t ht => search_eq_of_parse ht hr, fun hno => search_eq_of_noParse hno hr⟩,
    Backtracking.exists_parse, fun hnone => Backtracking.parse_of_shortest?_none hnone tokens,
    fun base hpos hbase hlt hnone => ?_⟩
  · rw [Chart.ne_nil_iff htrees]
    cases r with
    | none => simpa using Backtracking.not_exists_of_parse hr
    | some t => simpa using ⟨t, Backtracking.derivation_of_parse hr⟩
  · have := Lengths.limit_le_of_shortest? hpos hbase hnone
    omega

-- A language, and the two parsers that take every grammar: both answer, and they accept the tokens
-- if they are in it, and only then.
structure Grammar.Decides (g : Grammar) (tokens : List String) (member : Prop) : Prop where
  language : g.Generates g.start tokens ↔ member
  chart : ∃ trees, Chart.parse g tokens = .ok trees ∧ (trees ≠ [] ↔ member)
  search : ∃ r, Backtracking.parse g tokens = .ok r ∧ (r ≠ none ↔ member)

-- Where every nonterminal has a sentence, there is no number of tokens that is too large.
theorem Grammar.Productive.decides {g : Grammar} (h : g.Productive)
    (hshortest : Lengths.shortest? g ≠ none) {tokens : List String} {member : Prop}
    (hlanguage : g.Generates g.start tokens ↔ member) : g.Decides tokens member := by
  constructor
  case language => exact hlanguage
  case chart =>
    obtain ⟨trees, hparse, htrees⟩ := Chart.exists_parse g tokens
    exact ⟨trees, hparse, by rw [Chart.ne_nil_iff htrees, exists_derivation_iff, hlanguage]⟩
  case search =>
    obtain ⟨r, hr⟩ := Backtracking.exists_parse_of_productive hshortest h tokens
    refine ⟨r, hr, ?_⟩
    rw [← hlanguage, ← exists_derivation_iff]
    cases r with
    | none => simpa using Backtracking.not_exists_of_parse hr
    | some t => simpa using ⟨t, Backtracking.derivation_of_parse hr⟩

section Loops

variable {g : Grammar} {tokens : List String} {trees : List Tree} {t : Tree}
  (htrees : Enumerates (fun t => t.Derivation g g.start tokens ∧
    ∀ path ∈ t.paths 0, path.Nodup) trees)
  (ht : t.Derivation g g.start tokens)

include htrees ht

-- Of the derivations the chart leaves out those that repeat a use on a path, and only those.
theorem mem_chart_iff : t ∈ trees ↔ ∀ path ∈ t.paths 0, path.Nodup := by
  rw [htrees.mem_iff]
  exact and_iff_right ht

theorem mem_chart_of_acyclic (hg : g.Acyclic) : t ∈ trees :=
  (mem_chart_iff htrees ht).mpr (ht.valid.simple_of_acyclic hg 0).nodup_paths

theorem exists_mem_chart_of_cuts : ∃ u ∈ trees, Relation.ReflTransGen Tree.Cut t u := by
  obtain ⟨u, hcuts, hnodup⟩ := t.exists_cuts
  exact ⟨u, (mem_chart_iff htrees (ht.cuts hcuts)).mpr hnodup, hcuts⟩

theorem chart_eq_singleton (hall : ∀ u : Tree, u.Derivation g g.start tokens → u = t) :
    trees = [t] :=
  htrees.eq_singleton ((Chart.ne_nil_iff htrees).mpr ⟨t, ht⟩) fun u hu => hall u hu.1

end Loops

-- The tree that the search finds need not be among those of the chart: both break off where a
-- grammar is cyclic, but the search goes round a loop as often as there are tokens left, and the
-- chart never does. What is left when the loops are cut out of the tree is among them. So the
-- tree itself is if it has no loops, as where no nonterminal derives itself, and it is the only
-- one if it is the only derivation.
theorem search_in_chart (g : Grammar) (tokens : List String) :
    ∃ trees, Chart.parse g tokens = .ok trees ∧
      ∀ t, Backtracking.parse g tokens = .ok (some t) →
        (t ∈ trees ↔ ∀ path ∈ t.paths 0, path.Nodup) ∧
        (g.Acyclic → t ∈ trees) ∧
        (∃ u ∈ trees, Relation.ReflTransGen Tree.Cut t u) ∧
        (∀ u, trees = [u] → Relation.ReflTransGen Tree.Cut t u) ∧
        ((∀ u : Tree, u.Derivation g g.start tokens → u = t) → trees = [t]) := by
  obtain ⟨trees, hparse, htrees⟩ := Chart.exists_parse g tokens
  refine ⟨trees, hparse, fun t h => ?_⟩
  have ht := Backtracking.derivation_of_parse h
  have hcuts := exists_mem_chart_of_cuts htrees ht
  refine ⟨mem_chart_iff htrees ht, mem_chart_of_acyclic htrees ht, hcuts, ?_,
    chart_eq_singleton htrees ht⟩
  rintro u rfl
  obtain ⟨v, hv, hcut⟩ := hcuts
  rwa [List.mem_singleton.mp hv] at hcut

-- `S` and `A` derive each other.
def roundabout : Grammar where
  nonterminals := ["S", "A"]
  terminals := ["a"]
  productions := [
    { lhs := "S", rhs := [.nonterminal "A"] },
    { lhs := "A", rhs := [.nonterminal "S"] },
    { lhs := "A", rhs := [.terminal "a"] }]
  start := "S"
  problems_eq := by decide +kernel

-- The search goes round once, and the one tree of the chart is another one.
theorem roundabout_not_in_chart :
    ∃ t, Backtracking.parse roundabout ["a"] = .ok (some t) ∧
      ∃ u, Chart.parse roundabout ["a"] = .ok [u] ∧ t ≠ u := by
  have hnames : roundabout.sortedNonterminals = ["A", "S"] :=
    Names.sortedSet_eq_of_perm (by decide) (by decide)
  have hfirst : Lengths.round? roundabout [("A", none), ("S", none)] =
      some [("A", some 1), ("S", none)] := by decide +kernel
  have hsecond : Lengths.round? roundabout [("A", some 1), ("S", none)] =
      some [("A", some 1), ("S", some 1)] := by decide +kernel
  have hthird : Lengths.round? roundabout [("A", some 1), ("S", some 1)] =
      some [("A", some 1), ("S", some 1)] := by decide +kernel
  have hlengths : Lengths.shortest? roundabout = some [("A", some 1), ("S", some 1)] := by
    rw [Lengths.shortest?, Lengths.initial, hnames, List.map_cons, List.map_singleton,
      Lengths.settled?_eq, hfirst, Option.bind_some, if_neg (by decide),
      Lengths.settled?_eq, hsecond, Option.bind_some, if_neg (by decide),
      Lengths.settled?_eq, hthird, Option.bind_some, if_pos rfl]
  refine ⟨.node "S" [.node "A" [.node "S" [.node "A" [.leaf "a"]]]], ?_,
    .node "S" [.node "A" [.leaf "a"]], by decide +kernel, by decide⟩
  rw [Backtracking.parse, Backtracking.search_of_shortest? _ hlengths]
  decide +kernel

end ContextFree
