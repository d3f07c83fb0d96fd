import ContextFree.Proofs.Analysis.Overflow
import ContextFree.Proofs.Backtracking.Steps
import ContextFree.Proofs.Derivation.Sentences

namespace ContextFree

namespace Search

variable {α : Type}

-- From every tally the work ends with such a result, or it meets a debt without a value, for
-- which there is a reason.
def Ends (work : Search α) (result : α → Prop) (reason : Prop) : Prop :=
  ∀ tally, (∃ r after, work.run tally = .ok (r, after) ∧ result r) ∨
    (work.run tally = .error .tooLarge ∧ reason)

variable {result : α → Prop} {reason : Prop}

theorem Ends.pure {r : α} (h : result r) : Ends (pure r) result reason :=
  fun tally => .inl ⟨r, tally, rfl, h⟩

theorem Ends.mono {work : Search α} {other : α → Prop} (h : Ends work other reason)
    (hsub : ∀ r, other r → result r) : Ends work result reason := by
  intro tally
  rcases h tally with ⟨r, after, hrun, hr⟩ | hfault
  · exact .inl ⟨r, after, hrun, hsub r hr⟩
  · exact .inr hfault

theorem Ends.modify_bind {change : Tally → Tally} {next : PUnit → Search α}
    (h : Ends (next ⟨⟩) result reason) : Ends (modify change >>= next) result reason :=
  fun tally => h (change tally)

theorem Ends.ok_bind {β : Type} {work : Except AttemptFault β} {v : β} {next : β → Search α}
    (hwork : work = .ok v) (h : Ends (next v) result reason) :
    Ends (liftM work >>= next) result reason := by
  subst hwork
  exact h

theorem Ends.tooLarge_bind {β : Type} {work : Except AttemptFault β} {next : β → Search α}
    (hwork : work = .error .tooLarge) (h : reason) : Ends (liftM work >>= next) result reason := by
  subst hwork
  exact fun _ => .inr ⟨rfl, h⟩

theorem Ends.bind {β : Type} {work : Search β} {middle : β → Prop} {next : β → Search α}
    (hwork : Ends work middle reason) (h : ∀ r, middle r → Ends (next r) result reason) :
    Ends (work >>= next) result reason := by
  intro tally
  rcases hwork tally with ⟨r, after, hrun, hr⟩ | ⟨hrun, hreason⟩
  · rw [StateT.run_bind, hrun]
    exact h r hr after
  · exact .inr ⟨by rw [StateT.run_bind, hrun]; rfl, hreason⟩

end Search

open Search

namespace Task

-- Of the attempts that are made, the first one with a tree decides.
theorem ends_firstTree {stands : α → Attempt → Prop} {best : α → Option Tree → Prop}
    {xs : List α} {attempts : List Attempt}
    (hcovers : Covers stands (fun x => best x none) xs attempts)
    {visit : Attempt → Search (Option Tree)} {reason : Prop}
    (h : ∀ x a, stands x a → Ends (visit a) (best x) reason) :
    Ends (firstTree visit attempts) (Frame.First best xs) reason := by
  induction hcovers with
  | nil => exact .pure nofun
  | @keep x a xs _ hstands _ ih =>
      refine (h x a hstands).bind fun r hr => ?_
      cases r with
      | none => exact ih.mono fun r hrest => hrest.cons hr
      | some t => exact .pure ⟨[], x, xs, rfl, nofun, hr⟩
  | drop hnone _ ih => exact ih.mono fun r hrest => hrest.cons hnone

-- A right-hand side without a length has no sentence.
theorem Strained.not_productive {task : Task} {lengths : Lengths} (h : task.Strained lengths)
    (hsettled : lengths.Settled task.grammar) : ¬ task.grammar.Productive := by
  intro hproductive
  obtain ⟨p, mem, hnone⟩ := h.exists_none
  obtain ⟨tokens, htokens⟩ := hproductive.exists_derives mem
  obtain ⟨ts, hroots, hvalid, _⟩ := Tree.derives_sentence_iff.mp htokens
  obtain ⟨n, hn, _⟩ := Lengths.Settled.sum?_le ts (fun t _ => hsettled.size?_le) hvalid
  simp [hroots, hnone] at hn

section Exploring

variable {task : Task} {lengths : Lengths} {tokens : List String} {position : Nat}
  {a : Attempt} {frames : List Frame}

-- Nothing is left of a complete attempt but the tree.
theorem Standing.exists_tree (h : task.Standing lengths tokens position a frames)
    (hcomplete : a.isComplete = true) :
    ∃ t, a.tree = .ok t ∧ Frame.plug frames [] [] = [.node "" [t]] ∧
      ∀ us, Frame.Completes task.grammar task.count frames position tokens us ↔
        tokens = [] ∧ us = [] := by
  obtain ⟨_, f, outer, rfl, _, houter, _⟩ := h.displays.exists_chain
  have hrest := (Attempt.isComplete_of_displays h.displays).mp hcomplete
  obtain rfl := houter hrest
  have hdisplays := h.displays
  cases h.proper with
  | root roots =>
      simp only at hrest
      subst hrest
      simp only [List.append_nil] at roots
      obtain ⟨t, hdone, hroot⟩ := List.map_eq_singleton_iff.mp roots
      subst hdone
      obtain ⟨children, rfl⟩ := Tree.exists_node_of_root hroot
      refine ⟨_, Attempt.tree_of_displays hdisplays rfl rfl, rfl, fun us => ⟨?_, ?_⟩⟩
      · rintro ⟨ts, vs, others, rfl, hroots, _, _, rfl, rfl, rfl⟩
        simp [List.map_eq_nil_iff.mp hroots]
      · rintro ⟨rfl, rfl⟩
        exact ⟨[], [], [], rfl, rfl, by simp, trivial, rfl, rfl, rfl⟩
  | inside _ around => exact absurd rfl around.ne_nil

-- There is enough fuel for all expansions at one position, whatever is expanded.
theorem ends_exploreAt (htask : task.Informed lengths) {after : Attempt → Search (Option Tree)}
    (hafter : ∀ name others, tokens = name :: others → ∀ next frames,
      task.Standing lengths others (position + 1) next frames →
      Ends (after next) (Frame.Best task.grammar
        (Frame.Completes task.grammar task.count frames (position + 1) others)
        (Frame.plug frames [])) (task.Strained lengths))
    (fuel : Nat) (h : task.Standing lengths tokens position a frames)
    (hfuel : Frame.weight (task.longest + 1) (task.levels position) position frames < fuel) :
    Ends (task.exploreAt tokens.head? position after fuel a)
      (Frame.Best task.grammar (Frame.Completes task.grammar task.count frames position tokens)
        (Frame.plug frames [])) (task.Strained lengths) := by
  induction fuel generalizing a frames with
  | zero => omega
  | succ fuel ih =>
      rw [exploreAt]
      refine .modify_bind ?_
      by_cases hcomplete : a.isComplete = true
      · obtain ⟨t, htree, hplug, hiff⟩ := h.exists_tree hcomplete
        rw [if_pos hcomplete]
        cases tokens with
        | nil =>
            refine .ok_bind htree (.pure ⟨[], (hiff []).mpr ⟨rfl, rfl⟩, hplug, fun vs _ => ?_⟩)
            exact nil_le_choices _
        | cons name others => exact .pure fun us hus => nomatch ((hiff us).mp hus).1
      · rw [if_neg hcomplete]
        obtain ⟨f, outer, s, rest, rfl, hrest⟩ := h.exists_rest hcomplete
        cases s with
        | terminal name =>
            rcases step_terminal h hrest with
              ⟨htoken, hstep⟩ | ⟨others, next, rfl, hstep, hadmitted, hnext⟩
            · refine .ok_bind hstep (.ok_bind rfl (.modify_bind (.pure fun us hus => htoken ?_)))
              obtain ⟨others, _, rfl, _⟩ := (Frame.completes_terminal hrest).mp hus
              rfl
            · refine .ok_bind hstep (.ok_bind hadmitted (.modify_bind ?_))
              refine (hafter name others rfl next _ hnext).bind fun r hr => ?_
              cases r <;> exact .pure (hr.terminal hrest)
        | nonterminal name =>
            rcases step_nonterminal htask h hrest tokens.head? with
              ⟨hstep, hstrained⟩ | ⟨move, successors, hstep, hadmitted, hconsumed, hcovers⟩
            · exact .tooLarge_bind hstep hstrained
            · refine .ok_bind hstep (.ok_bind hadmitted (.modify_bind ?_))
              rw [if_pos hconsumed]
              refine (ends_firstTree hcovers fun p next hnext => ?_).mono fun r hr =>
                Frame.Best.nonterminal hrest hr
              refine (ih hnext.standing (by have := hnext.weight_lt; omega)).mono fun r hr => ?_
              exact hr.congr fun us => (and_iff_right hnext.depth_le).symm

theorem weight_lt_fuelAt (h : task.Standing lengths tokens position a frames) :
    Frame.weight (task.longest + 1) (task.levels position) position frames <
      task.fuelAt position a := by
  have hweight := Frame.weight_le (task.longest + 1) (task.levels position) position
    (Nat.succ_pos _) frames
  have hslots := Nat.mul_le_mul_right (Nat.pow (task.longest + 1) (task.levels position))
    h.displays.length_remaining_le
  rw [fuelAt]
  exact Nat.lt_of_le_of_lt (Nat.le_trans hweight hslots) (by simp only [levels]; omega)

-- Whatever is tried first, the search ends, and it does not miss a tree.
theorem ends_explore (htask : task.Informed lengths)
    (h : task.Standing lengths tokens position a frames) :
    Ends (task.explore tokens position a)
      (Frame.Best task.grammar (Frame.Completes task.grammar task.count frames position tokens)
        (Frame.plug frames [])) (task.Strained lengths) := by
  induction tokens generalizing position a frames with
  | nil => exact ends_exploreAt htask (fun _ _ heq => absurd heq (by simp)) _ h (weight_lt_fuelAt h)
  | cons token rest ih =>
      refine ends_exploreAt htask (fun name others heq next frames hnext => ?_) _ h
        (weight_lt_fuelAt h)
      obtain ⟨rfl, rfl⟩ := List.cons.inj heq
      exact ih hnext

end Exploring

theorem standing_initial {g : Grammar} {lengths : Lengths} {tokens : List String} {n : Nat}
    (hstart : lengths.of g.start = some n) (hle : n ≤ tokens.length) :
    Standing { grammar := g, lengths := lengths.toInt, count := tokens.length } lengths tokens 0
      (Attempt.initial g lengths.toInt)
      [{ label := none, origin := 0, done := [], rest := [.nonterminal g.start] }] := by
  refine ⟨Attempt.displays_initial g _, .root rfl, Nat.zero_add _, trivial, n, ?_, ?_, hle⟩
  · simp [Frame.remaining, Lengths.sum?, Lengths.size?, hstart]
  · simp [Attempt.initial, Debt.ofName, Lengths.toInt, hstart]

end Task

namespace Backtracking

theorem within_iff {lengths : Lengths} {name : String} {count : Nat} :
    (Debt.ofName lengths.toInt name).within count = true ↔
      ∃ n, lengths.of name = some n ∧ n ≤ count := by
  cases h : lengths.of name with
  | none => simp [Debt.ofName, Lengths.toInt, h, Debt.within]
  | some n => simp [Debt.ofName, Lengths.toInt, h, Debt.within]

-- The search is not even begun if the start symbol owes more than there is.
theorem search_of_shortest? {g : Grammar} {lengths : Lengths} (tokens : List String)
    (h : Lengths.shortest? g = some lengths) :
    search g tokens =
      if (Debt.ofName lengths.toInt g.start).within tokens.length then
        (Task.explore { grammar := g, lengths := lengths.toInt, count := tokens.length } tokens 0
          (Attempt.initial g lengths.toInt)).run .initial
      else .ok (none, .initial) := by
  rw [search, Task.ofGrammar?, h]
  rfl

theorem parse_of_shortest?_none {g : Grammar} (h : Lengths.shortest? g = none)
    (tokens : List String) : parse g tokens = .error .tooLarge := by
  rw [parse, search, Task.ofGrammar?, h]
  rfl

-- The tree comes first, in the order of the choices, among those that the search can come to.
def Finds (g : Grammar) (tokens : List String) : Option Tree → Prop
  | none => ∀ t : Tree, ¬ t.Admissible g tokens
  | some t => t.Admissible g tokens ∧
    ∀ u : Tree, u.Admissible g tokens → t.choices g ≤ u.choices g

theorem finds_of_best {g : Grammar} {tokens : List String} {r : Option Tree}
    (h : Frame.Best g (Frame.Completes g tokens.length
        [{ label := none, origin := 0, done := [], rest := [.nonterminal g.start] }] 0 tokens)
      (Frame.plug [{ label := none, origin := 0, done := [], rest := [.nonterminal g.start] }] [])
      r) : Finds g tokens r := by
  cases r with
  | none => exact fun t ht => h [t] (Frame.completes_root_iff.mpr ⟨t, rfl, ht⟩)
  | some t =>
      obtain ⟨us, hus, hplug, hleast⟩ := h
      obtain ⟨u, rfl, hu⟩ := Frame.completes_root_iff.mp hus
      obtain rfl : u = t := by simpa [Frame.plug] using hplug
      refine ⟨hu, fun v hv => ?_⟩
      simpa using hleast [v] (Frame.completes_root_iff.mpr ⟨v, rfl, hv⟩)

-- The search gives the right answer, unless the lengths of the shortest sentences cannot be
-- found or there are more tokens than they may have and a nonterminal without a sentence.
theorem parse_cases (g : Grammar) (tokens : List String) :
    (∃ r, parse g tokens = .ok r ∧ Finds g tokens r) ∨
    (parse g tokens = .error .tooLarge ∧
      (Lengths.shortest? g = none ∨ Debt.limit ≤ tokens.length ∧ ¬ g.Productive)) := by
  cases hshortest : Lengths.shortest? g with
  | none => exact .inr ⟨parse_of_shortest?_none hshortest tokens, .inl rfl⟩
  | some lengths =>
      have hsettled := Lengths.settled_shortest? hshortest
      by_cases hstart : (Debt.ofName lengths.toInt g.start).within tokens.length = true
      · obtain ⟨n, hn, hle⟩ := within_iff.mp hstart
        have hends := Task.ends_explore ⟨rfl, hsettled⟩ (Task.standing_initial hn hle)
        rcases hends .initial with ⟨r, tally, hrun, hr⟩ | ⟨hrun, hstrained⟩
        · refine .inl ⟨r, ?_, finds_of_best hr⟩
          rw [parse, search_of_shortest? tokens hshortest, if_pos hstart, hrun]
          rfl
        · refine .inr ⟨?_, .inr ⟨hstrained.limit_le, hstrained.not_productive hsettled⟩⟩
          rw [parse, search_of_shortest? tokens hshortest, if_pos hstart, hrun]
          rfl
      · refine .inl ⟨none, ?_, fun t ht => hstart (within_iff.mpr ?_)⟩
        · rw [parse, search_of_shortest? tokens hshortest, if_neg hstart]
          rfl
        · obtain ⟨n, hn, hle⟩ := hsettled.size?_le ht.derivation.valid
          rw [ht.derivation.root_eq] at hn
          rw [ht.derivation.yield_eq] at hle
          exact ⟨n, hn, hle⟩

theorem finds_of_parse {g : Grammar} {tokens : List String} {r : Option Tree}
    (h : parse g tokens = .ok r) : Finds g tokens r := by
  rcases parse_cases g tokens with ⟨r', hr, hfinds⟩ | ⟨hfault, _⟩
  · rw [hr, Except.ok.injEq] at h
    exact h ▸ hfinds
  · simp [hfault] at h

theorem derivation_of_parse {g : Grammar} {tokens : List String} {t : Tree}
    (h : parse g tokens = .ok (some t)) : t.Derivation g g.start tokens :=
  (finds_of_parse h).1.derivation

theorem not_exists_of_parse {g : Grammar} {tokens : List String} (h : parse g tokens = .ok none) :
    ¬ ∃ t : Tree, t.Derivation g g.start tokens := by
  rintro ⟨t, ht⟩
  obtain ⟨u, hu⟩ := ht.exists_admissible
  exact finds_of_parse h u hu

-- With lengths and with no more tokens than they may have the search does not fail.
theorem exists_parse {g : Grammar} {tokens : List String} (hlt : tokens.length < Debt.limit)
    (h : Lengths.shortest? g ≠ none) : ∃ r, parse g tokens = .ok r := by
  rcases parse_cases g tokens with ⟨r, hr, _⟩ | ⟨_, hnone | ⟨hle, _⟩⟩
  · exact ⟨r, hr⟩
  · exact absurd hnone h
  · omega

-- Nor does it, with any number of tokens, if every nonterminal has a sentence.
theorem exists_parse_of_productive {g : Grammar} (h : Lengths.shortest? g ≠ none)
    (hproductive : g.Productive) (tokens : List String) : ∃ r, parse g tokens = .ok r := by
  rcases parse_cases g tokens with ⟨r, hr, _⟩ | ⟨_, hnone | ⟨_, hnot⟩⟩
  · exact ⟨r, hr⟩
  · exact absurd hnone h
  · exact absurd hproductive hnot

-- A tree that is given is a derivation of the tokens, and none is given only if there is
-- none. With fewer tokens than the limit, the one way to fail is that a length is too large to be
-- added up while the shortest ones are looked for. It need not be one that stays: a shorter
-- sentence may be found later. That takes a grammar in which a tree can be that large.
theorem parse_searches (g : Grammar) (tokens : List String) :
    (∀ t, parse g tokens = .ok (some t) → t.Derivation g g.start tokens) ∧
      (parse g tokens = .ok none → ¬ ∃ t : Tree, t.Derivation g g.start tokens) ∧
      (tokens.length < Debt.limit → Lengths.shortest? g ≠ none →
        ((∃ t, parse g tokens = .ok (some t)) ↔ ∃ t : Tree, t.Derivation g g.start tokens)) ∧
      (Lengths.shortest? g = none → parse g tokens = .error .tooLarge) ∧
      ∀ base, 0 < base → (∀ p ∈ g.productions, p.rhs.length ≤ base) →
        Nat.pow base g.sortedNonterminals.length < Debt.limit → Lengths.shortest? g ≠ none := by
  refine ⟨fun t => derivation_of_parse, not_exists_of_parse, fun hlt hshortest => ⟨?_, ?_⟩,
    fun hnone => parse_of_shortest?_none hnone tokens, fun base hpos hbase hlt hnone => ?_⟩
  · rintro ⟨t, ht⟩
    exact ⟨t, derivation_of_parse ht⟩
  · intro hexists
    obtain ⟨r, hr⟩ := exists_parse hlt hshortest
    cases r with
    | none => exact absurd hexists (not_exists_of_parse hr)
    | some t => exact ⟨t, hr⟩
  · have := Lengths.limit_le_of_shortest? hpos hbase hnone
    omega

end Backtracking

end ContextFree
