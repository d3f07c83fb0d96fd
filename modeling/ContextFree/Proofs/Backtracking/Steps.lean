import ContextFree.Proofs.Backtracking.Arena
import ContextFree.Proofs.Backtracking.Completion
import ContextFree.Proofs.Backtracking.Weight

namespace ContextFree

-- Either every result is there, or the work fails on one of the members.
theorem mapM_cases {work : α → Except ε β} {fault : ε} {reason : Prop} {related : α → β → Prop}
    (xs : List α)
    (h : ∀ x ∈ xs, (∃ y, work x = .ok y ∧ related x y) ∨ (work x = .error fault ∧ reason)) :
    (∃ ys, xs.mapM work = .ok ys ∧ List.Forall₂ related xs ys) ∨
      (xs.mapM work = .error fault ∧ reason) := by
  induction xs with
  | nil => exact .inl ⟨[], rfl, .nil⟩
  | cons x xs ih =>
      rw [List.mapM_cons]
      rcases h x (by simp) with ⟨y, hy, hrel⟩ | ⟨hfault, hreason⟩
      · rcases ih fun x hx => h x (by simp [hx]) with ⟨ys, hys, hall⟩ | ⟨hys, hreason⟩
        · exact .inl ⟨y :: ys, by rw [hy, hys]; rfl, .cons hrel hall⟩
        · exact .inr ⟨by rw [hy, hys]; rfl, hreason⟩
      · exact .inr ⟨by rw [hfault]; rfl, hreason⟩

-- The results that are worth something, in the order of what they come from: what is left out
-- is hopeless.
inductive Covers (stands : α → β → Prop) (hopeless : α → Prop) : List α → List β → Prop where
  | nil : Covers stands hopeless [] []
  | keep {x : α} {y : β} {xs : List α} {ys : List β} (holds : stands x y)
      (covers : Covers stands hopeless xs ys) : Covers stands hopeless (x :: xs) (y :: ys)
  | drop {x : α} {xs : List α} {ys : List β} (none : hopeless x)
      (covers : Covers stands hopeless xs ys) : Covers stands hopeless (x :: xs) ys

theorem Covers.exists_of_mem {stands : α → β → Prop} {hopeless : α → Prop} {xs : List α}
    {ys : List β} (h : Covers stands hopeless xs ys) : ∀ y ∈ ys, ∃ x ∈ xs, stands x y := by
  induction h with
  | nil => simp
  | keep holds _ ih =>
      simp only [List.mem_cons, forall_eq_or_imp]
      exact ⟨⟨_, .inl rfl, holds⟩, fun y hy => (ih y hy).imp fun x hx => ⟨.inr hx.1, hx.2⟩⟩
  | drop _ _ ih => exact fun y hy => (ih y hy).imp fun x hx => ⟨List.mem_cons_of_mem _ hx.1, hx.2⟩

theorem exists_filterAuxM {stands : α → β → Prop} {hopeless : α → Prop}
    {test : β → Except ε Bool} {xs : List α} {ys : List β}
    (h : List.Forall₂ (fun x y => (test y = .ok true ∧ stands x y) ∨
      (test y = .ok false ∧ hopeless x)) xs ys) (kept : List β) :
    ∃ zs, ys.filterAuxM test kept = .ok (zs.reverse ++ kept) ∧ Covers stands hopeless xs zs := by
  induction h generalizing kept with
  | nil => exact ⟨[], rfl, .nil⟩
  | @cons x y _ _ hfirst _ ih =>
      rw [List.filterAuxM]
      rcases hfirst with ⟨htest, hstands⟩ | ⟨htest, hhopeless⟩
      · obtain ⟨zs, hzs, hcovers⟩ := ih (y :: kept)
        refine ⟨y :: zs, ?_, .keep hstands hcovers⟩
        rw [htest, List.reverse_cons, List.append_assoc]
        exact hzs
      · obtain ⟨zs, hzs, hcovers⟩ := ih kept
        exact ⟨zs, by rw [htest]; exact hzs, .drop hhopeless hcovers⟩

-- Nothing fails in a filter if no test fails.
theorem exists_filterM {stands : α → β → Prop} {hopeless : α → Prop} {test : β → Except ε Bool}
    {xs : List α} {ys : List β}
    (h : List.Forall₂ (fun x y => (test y = .ok true ∧ stands x y) ∨
      (test y = .ok false ∧ hopeless x)) xs ys) :
    ∃ zs, ys.filterM test = .ok zs ∧ Covers stands hopeless xs zs := by
  obtain ⟨zs, hzs, hcovers⟩ := exists_filterAuxM h []
  exact ⟨zs, by rw [List.filterM, hzs]; simp, hcovers⟩

-- The lengths of a task are those of the shortest sentences.
structure Task.Informed (task : Task) (lengths : Lengths) : Prop where
  lengths_eq : task.lengths = lengths.toInt
  settled : lengths.Settled task.grammar

-- What is so of an attempt that is taken up with these tokens left: its frames come from the
-- grammar, it owes what the lengths of its symbols come to, and that is no more than there is.
structure Task.Standing (task : Task) (lengths : Lengths) (tokens : List String) (position : Nat)
    (a : Attempt) (frames : List Frame) : Prop where
  displays : a.Displays frames
  proper : Frame.Proper task.grammar [] frames
  count_eq : position + tokens.length = task.count
  narrow : Frame.Narrow task.count (Frame.keys frames)
  exists_sum : ∃ n, lengths.sum? (Frame.remaining frames) = some n ∧ a.owed = .finite n ∧
    n ≤ tokens.length

namespace Task

theorem admits_consumed {task : Task} {position n : Nat} {a : Attempt} (howed : a.owed = .finite n)
    (hle : position + 1 + n ≤ task.count) : task.admits position 1 a = .ok true := by
  have hexceeds : a.owed.exceeds ((task.count : Int) - (position + (1 : Nat))) = false := by
    simp only [howed, Debt.exceeds, decide_eq_false_iff_not]
    omega
  rw [admits, if_neg (by rw [hexceeds]; exact Bool.false_ne_true), if_neg (by decide)]

theorem admits_expanded (task : Task) (position : Nat) {n depth : Nat} {a : Attempt}
    (howed : a.owed = .finite n) (hdepth : a.nesting (a.expansions.size - 1) = .ok depth) :
    task.admits position 0 a =
      .ok (decide (position + n ≤ task.count ∧ depth + position ≤ task.count)) := by
  rw [admits, hdepth, howed]
  simp only [Debt.exceeds, decide_eq_true_eq, if_true, Except.map, bind, Except.bind, pure,
    Except.pure]
  split
  · rw [Except.ok.injEq, eq_comm, decide_eq_false_iff_not]
    omega
  · rw [Except.ok.injEq, decide_eq_decide]
    omega

theorem admits_infinite (task : Task) (position consumed : Nat) {a : Attempt}
    (howed : a.owed = .infinite) : task.admits position consumed a = .ok false := by
  rw [admits, howed, if_pos (show Debt.infinite.exceeds _ = true from rfl)]

section Stepping

variable {task : Task} {lengths : Lengths} {tokens : List String} {position : Nat}
  {a : Attempt} {f : Frame} {outer : List Frame}

theorem Standing.consume (h : task.Standing lengths tokens position a (f :: outer))
    {name : String} {rest : List Symbol} (hrest : f.rest = .terminal name :: rest)
    {others : List String} (htokens : tokens = name :: others) {next : Attempt}
    (hdisplays : next.Displays (Frame.matched f outer rest name))
    (howed : next.owed = a.owed.payOne) :
    task.Standing lengths others (position + 1) next (Frame.matched f outer rest name) := by
  obtain ⟨n, hsum, hn, hle⟩ := h.exists_sum
  rw [Frame.remaining, hrest, List.cons_append] at hsum
  obtain ⟨_, b, hone, hb, rfl⟩ := Lengths.sum?_cons_eq_some.mp hsum
  obtain rfl := Option.some.inj hone
  refine ⟨hdisplays, ?_, ?_, ?_, b, ?_, ?_, ?_⟩
  · exact (h.proper.descend hrest).add (t := .leaf name).closed
  · have := h.count_eq
    rw [htokens, List.length_cons] at this
    omega
  · exact Frame.narrow_close h.narrow
  · rw [Frame.matched, Frame.remaining_close]
    exact hb
  · rw [howed, hn, Debt.payOne, Debt.finite.injEq]
    omega
  · rw [htokens, List.length_cons] at hle
    omega

-- While an attempt is not complete, there is a symbol to go on with.
theorem Standing.exists_rest {frames : List Frame}
    (h : task.Standing lengths tokens position a frames) (hcomplete : ¬ a.isComplete = true) :
    ∃ f outer s rest, frames = f :: outer ∧ f.rest = s :: rest := by
  obtain ⟨_, f, outer, rfl, _, _, _⟩ := h.displays.exists_chain
  rw [Attempt.isComplete_of_displays h.displays] at hcomplete
  obtain ⟨s, rest, hrest⟩ := List.exists_cons_of_ne_nil hcomplete
  exact ⟨f, outer, s, rest, rfl, hrest⟩

-- A terminal is either the next token, and then there is one way to go on, or there is none.
theorem step_terminal (h : task.Standing lengths tokens position a (f :: outer))
    {name : String} {rest : List Symbol} (hrest : f.rest = .terminal name :: rest) :
    (tokens.head? ≠ some name ∧
      a.step task.grammar task.lengths tokens.head? position =
        .ok { successors := [], consumed := 1 }) ∨
    ∃ others next, tokens = name :: others ∧
      a.step task.grammar task.lengths tokens.head? position =
        .ok { successors := [next], consumed := 1 } ∧
      task.admitted position { successors := [next], consumed := 1 } = .ok [next] ∧
      task.Standing lengths others (position + 1) next (Frame.matched f outer rest name) := by
  obtain ⟨index, hchain, hcursor, hslot⟩ := h.displays.exists_spot hrest
  simp only [Slot.ofSymbol] at hslot
  by_cases htoken : tokens.head? = some name
  · right
    obtain ⟨others, htokens⟩ := List.head?_eq_some_iff.mp htoken
    obtain ⟨next, hnext, hdisplays, howed⟩ := Attempt.exists_consume hchain hrest
    have hstanding := h.consume hrest htokens hdisplays howed
    obtain ⟨n, _, hn, hle⟩ := hstanding.exists_sum
    have hcount := hstanding.count_eq
    have hadmits : task.admits position 1 next = .ok true := admits_consumed hn (by omega)
    refine ⟨others, next, htokens, ?_, ?_, hstanding⟩
    · simp [Attempt.step, hcursor, hslot, htoken, hnext, Except.map]
    · simp [admitted, List.filterM, hadmits]
  · exact .inl ⟨htoken, by simp [Attempt.step, hcursor, hslot, htoken]⟩

theorem Standing.expand (h : task.Standing lengths tokens position a (f :: outer))
    {p : Production} (mem : p ∈ task.grammar.productions) {rest : List Symbol}
    (hrest : f.rest = .nonterminal p.lhs :: rest) {next : Attempt}
    (hdisplays : next.Displays (Frame.expanded f outer rest p position)) {n : Nat}
    (hsum : lengths.sum? (p.rhs ++ Frame.remaining ({ f with rest } :: outer)) = some n)
    (howed : next.owed = .finite n) (hle : position + n ≤ task.count)
    (hdepth : (Frame.keys (f :: outer)).count (p.lhs, position) + position ≤ task.count) :
    task.Standing lengths tokens position next (Frame.expanded f outer rest p position) := by
  have hcount := h.count_eq
  refine ⟨hdisplays, ((h.proper.descend hrest).expand mem position).closed, hcount, ?_, n, ?_,
    howed, by omega⟩
  · exact Frame.narrow_close ⟨hdepth, h.narrow⟩
  · rw [Frame.expanded, Frame.remaining_close]
    exact hsum

-- The levels that an expansion at the position can lie on.
def levels (task : Task) (position : Nat) : Nat :=
  task.grammar.nonterminals.length * (task.count - position + 1)

theorem Standing.weight_expanded_lt
    (h : task.Standing lengths tokens position a (f :: outer)) {p : Production}
    (mem : p ∈ task.grammar.productions) {rest : List Symbol}
    (hrest : f.rest = .nonterminal p.lhs :: rest)
    (hdepth : (Frame.keys (f :: outer)).count (p.lhs, position) + position ≤ task.count) :
    Frame.weight (task.longest + 1) (task.levels position) position
        (Frame.expanded f outer rest p position) <
      Frame.weight (task.longest + 1) (task.levels position) position (f :: outer) := by
  have hproper := (h.proper.descend hrest).expand mem position
  rw [Frame.expanded, Frame.weight_close]
  have hnarrow : Frame.Narrow task.count ((p.lhs, position) :: Frame.keys (f :: outer)) :=
    ⟨hdepth, h.narrow⟩
  exact Frame.weight_expand_lt hrest (Nat.lt_succ_of_le (length_le_longest mem))
    (hnarrow.begun_le hproper.key_mem position)

-- The attempt after an expansion does not lie too deep, and it stands for frames with less
-- weight.
structure Advances (task : Task) (lengths : Lengths) (tokens : List String) (position : Nat)
    (f : Frame) (outer : List Frame) (rest : List Symbol) (p : Production) (next : Attempt) :
    Prop where
  depth_le : (Frame.keys (f :: outer)).count (p.lhs, position) + position ≤ task.count
  standing : task.Standing lengths tokens position next (Frame.expanded f outer rest p position)
  weight_lt : Frame.weight (task.longest + 1) (task.levels position) position
      (Frame.expanded f outer rest p position) <
    Frame.weight (task.longest + 1) (task.levels position) position (f :: outer)

-- The attempt after an expansion is admitted, or else nothing completes the expansion.
def Judged (task : Task) (lengths : Lengths) (tokens : List String) (position : Nat) (f : Frame)
    (outer : List Frame) (rest : List Symbol) (p : Production) (next : Attempt) : Prop :=
  (task.admits position 0 next = .ok true ∧
    task.Advances lengths tokens position f outer rest p next) ∨
  (task.admits position 0 next = .ok false ∧
    Frame.BestBy task.grammar task.count f outer rest position tokens p none)

-- What completes an expansion is as long as the lengths say, and the expansion is not too deep.
theorem Standing.bestBy_none (htask : task.Informed lengths)
    (h : task.Standing lengths tokens position a (f :: outer)) {p : Production}
    {rest : List Symbol}
    (hno : ∀ n, lengths.sum? (p.rhs ++ (rest ++ Frame.remaining outer)) = some n →
      position + n ≤ task.count →
      ¬ (Frame.keys (f :: outer)).count (p.lhs, position) + position ≤ task.count) :
    Frame.BestBy task.grammar task.count f outer rest position tokens p none := by
  rintro us ⟨hdepth, hcompletes⟩
  obtain ⟨n, hn, hle⟩ := hcompletes.sum?_le htask.settled
  have hcount := h.count_eq
  rw [Frame.expanded, Frame.remaining_close] at hn
  exact hno n hn (by omega) hdepth

-- Why a debt can have no value: there are as many tokens as do not fit, and what is owed for them
-- meets a right-hand side without a length.
structure Strained (task : Task) (lengths : Lengths) : Prop where
  limit_le : Debt.limit ≤ task.count
  exists_none : ∃ p ∈ task.grammar.productions, lengths.sum? p.rhs = none

theorem Standing.judged (htask : task.Informed lengths)
    (h : task.Standing lengths tokens position a (f :: outer)) {p : Production}
    (mem : p ∈ task.grammar.productions) {rest : List Symbol}
    (hrest : f.rest = .nonterminal p.lhs :: rest) {index : Nat}
    (hchain : Attempt.Chain a.expansions index [] (f :: outer)) :
    (∃ next, a.expand task.lengths { expansion := index, slot := f.done.length } p.lhs p position =
        .ok next ∧ task.Judged lengths tokens position f outer rest p next) ∨
    (a.expand task.lengths { expansion := index, slot := f.done.length } p.lhs p position =
      .error .tooLarge ∧ task.Strained lengths) := by
  obtain ⟨n, hsum, hn, hle⟩ := h.exists_sum
  have hcount := h.count_eq
  rw [Frame.remaining, hrest, List.cons_append] at hsum
  cases hrhs : lengths.sum? p.rhs with
  | some l =>
      left
      obtain ⟨m, hm, hreplace⟩ := Lengths.Settled.replace?_of_sum? hrhs hsum
      rw [← hn, ← htask.lengths_eq] at hreplace
      obtain ⟨next, hnext, hdisplays, howed, hdepth⟩ :=
        Attempt.exists_expand hchain hrest hreplace position
      have hadmits := admits_expanded task position howed hdepth
      refine ⟨next, hnext, ?_⟩
      by_cases hboth : position + m ≤ task.count ∧
          (Frame.keys (f :: outer)).count (p.lhs, position) + position ≤ task.count
      · left
        rw [decide_eq_true hboth] at hadmits
        exact ⟨hadmits, hboth.2, h.expand mem hrest hdisplays hm howed hboth.1 hboth.2,
          h.weight_expanded_lt mem hrest hboth.2⟩
      · right
        rw [decide_eq_false hboth] at hadmits
        refine ⟨hadmits, h.bestBy_none htask fun m' hm' hle hdepth => hboth ⟨?_, hdepth⟩⟩
        rwa [Option.some.inj (hm.symm.trans hm')]
  | none =>
      have hreplace := htask.settled.replace?_of_sum?_none mem hrhs hsum
      rw [← hn, ← htask.lengths_eq] at hreplace
      rcases hreplace with hreplace | ⟨hreplace, hlimit⟩
      · left
        obtain ⟨next, hnext, _, howed, _⟩ := Attempt.exists_expand hchain hrest hreplace position
        have hadmits := admits_infinite task position 0 howed
        refine ⟨next, hnext, .inr ⟨hadmits, h.bestBy_none htask fun m hm => ?_⟩⟩
        obtain ⟨l, _, hl, _⟩ := Lengths.sum?_append_eq_some.mp hm
        simp [hrhs] at hl
      · exact .inr ⟨by rw [Attempt.expand, hreplace], by omega, p, mem, hrhs⟩

-- A nonterminal is expanded by each of its productions, in their order.
theorem step_nonterminal (htask : task.Informed lengths)
    (h : task.Standing lengths tokens position a (f :: outer)) {name : String}
    {rest : List Symbol} (hrest : f.rest = .nonterminal name :: rest) (token : Option String) :
    (a.step task.grammar task.lengths token position = .error .tooLarge ∧
      task.Strained lengths) ∨
    ∃ move successors, a.step task.grammar task.lengths token position = .ok move ∧
      task.admitted position move = .ok successors ∧ move.consumed = 0 ∧
      Covers (task.Advances lengths tokens position f outer rest)
        (fun p => Frame.BestBy task.grammar task.count f outer rest position tokens p none)
        (task.grammar.productionsFor name) successors := by
  obtain ⟨index, hchain, hcursor, hslot⟩ := h.displays.exists_spot hrest
  simp only [Slot.ofSymbol] at hslot
  have hall : ∀ p ∈ task.grammar.productionsFor name,
      (∃ next, a.expand task.lengths { expansion := index, slot := f.done.length } name p position =
          .ok next ∧ task.Judged lengths tokens position f outer rest p next) ∨
      (a.expand task.lengths { expansion := index, slot := f.done.length } name p position =
        .error .tooLarge ∧ task.Strained lengths) := by
    intro p hp
    obtain ⟨mem, rfl⟩ := (task.grammar.mem_productionsFor name p).mp hp
    exact h.judged htask mem hrest hchain
  rcases mapM_cases _ hall with ⟨nexts, hnexts, hjudged⟩ | ⟨hfault, hstrained⟩
  · right
    obtain ⟨successors, hfilter, hcovers⟩ := exists_filterM hjudged
    refine ⟨{ successors := nexts, consumed := 0 }, successors, ?_, hfilter, rfl, hcovers⟩
    simp only [Attempt.step, hcursor, hslot, hnexts, Except.map]
  · left
    exact ⟨by simp only [Attempt.step, hcursor, hslot, hfault, Except.map], hstrained⟩

end Stepping

end Task

end ContextFree
