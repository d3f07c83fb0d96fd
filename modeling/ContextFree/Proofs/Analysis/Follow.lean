import ContextFree.Analysis.Follow
import ContextFree.Proofs.Analysis.First

namespace ContextFree

namespace FollowSets

theorem mem_occurrences (symbols rest : List Symbol) (name : String) :
    (name, rest) ∈ occurrences symbols ↔
      ∃ before, symbols = before ++ .nonterminal name :: rest := by
  induction symbols with
  | nil => simp [occurrences]
  | cons s symbols ih =>
      constructor
      · intro h
        cases s with
        | terminal other =>
            obtain ⟨before, rfl⟩ := ih.mp h
            exact ⟨.terminal other :: before, rfl⟩
        | nonterminal other =>
            rcases List.mem_cons.mp h with h | h
            · obtain ⟨rfl, rfl⟩ := Prod.mk.inj h
              exact ⟨[], rfl⟩
            · obtain ⟨before, rfl⟩ := ih.mp h
              exact ⟨.nonterminal other :: before, rfl⟩
      · rintro ⟨before, h⟩
        cases before with
        | nil =>
            obtain ⟨rfl, rfl⟩ := List.cons.inj h
            simp [occurrences]
        | cons b before =>
            simp only [List.cons_append, List.cons.injEq] at h
            obtain ⟨rfl, rfl⟩ := h
            have := ih.mpr ⟨before, rfl⟩
            cases s <;> simp [occurrences, this]

theorem of_change_self {follows : FollowSets} {name : String} (h : name ∈ follows.names)
    (f : List String → List String) : of (follows.change name f) name = f (follows.of name) :=
  Family.getD_change_self h f _

theorem of_change_of_ne (follows : FollowSets) (name other : String)
    (f : List String → List String) (h : other ≠ name) :
    of (follows.change name f) other = follows.of other := by
  simp [of, Family.value?_change_of_ne follows name other f h]

-- A nonterminal's set is one of the entries, or empty.
theorem of_mem_or (follows : FollowSets) (name : String) :
    (name, follows.of name) ∈ follows ∨ follows.of name = [] :=
  Family.mem_or_getD_eq follows name _

-- What a FOLLOW set can hold, with these FIRST sets.
def candidates (g : Grammar) (firsts : FirstSets) : List String :=
  endMarker :: (g.sortedTerminals ++ firsts.flatMap (·.2.terminals))

-- One entry for each nonterminal of the grammar.
structure Proper (g : Grammar) (firsts : FirstSets) (follows : FollowSets) : Prop where
  names_eq : follows.names = g.sortedNonterminals
  nodup : ∀ entry ∈ follows, entry.2.Nodup
  subset : ∀ entry ∈ follows, entry.2 ⊆ candidates g firsts

namespace Proper

variable {g : Grammar} {firsts : FirstSets} {follows : FollowSets}

theorem of_subset (h : Proper g firsts follows) (name : String) :
    follows.of name ⊆ candidates g firsts := by
  rcases follows.of_mem_or name with hm | hm
  · exact h.subset _ hm
  · simp [hm]

-- Merging candidates into a set keeps the family or makes it larger.
theorem change_merge (h : Proper g firsts follows) (name : String) {members : List String}
    (hm : members ⊆ candidates g firsts) :
    Proper g firsts (follows.change name (merge · members)) ∧
      (follows.change name (merge · members) = follows ∨
        Family.total List.length follows <
          Family.total List.length (follows.change name (merge · members))) := by
  constructor
  · refine ⟨by simp [h.names_eq], ?_, ?_⟩
    · intro entry he
      rcases Family.mem_change he with he | ⟨value, hv, rfl⟩
      · exact h.nodup entry he
      · exact nodup_merge _ _ (h.nodup _ hv)
    · intro entry he
      rcases Family.mem_change he with he | ⟨value, hv, rfl⟩
      · exact h.subset entry he
      · intro token ht
        rcases (mem_merge _ _ _).mp ht with ht | ht
        · exact h.subset _ hv ht
        · exact hm ht
  · exact Family.change_eq_or_total_lt _ _ _ _ fun entry _ => merge_eq_or_length_lt entry.2 members

end Proper

theorem terminals_subset_candidates {g : Grammar} {firsts : FirstSets} {p : Production}
    (mem : p ∈ g.productions) {name : String} {rest : List Symbol}
    (h : (name, rest) ∈ occurrences p.rhs) :
    (firsts.ofSequence rest).terminals ⊆ candidates g firsts := by
  obtain ⟨before, heq⟩ := (mem_occurrences p.rhs rest name).mp h
  intro token ht
  obtain ⟨skipped, first, after, hrest, _, hs⟩ := (FirstSets.mem_ofSequence firsts rest token).mp ht
  simp only [candidates, List.mem_cons, List.mem_append]
  right
  cases first with
  | terminal other =>
      left
      rw [FirstSets.starts_terminal] at hs
      subst hs
      have hd : other ∈ g.terminals :=
        g.declares_of_mem_rhs p mem (.terminal other) (by simp [heq, hrest])
      exact (Names.mem_sortedSet _ _).mpr hd
  | nonterminal other =>
      right
      rw [FirstSets.starts_nonterminal] at hs
      rcases firsts.of_mem_or other with hm | hm
      · exact List.mem_flatMap.mpr ⟨_, hm, hs⟩
      · simp [hm] at hs

theorem extendAt_widens {g : Grammar} {firsts : FirstSets} {p : Production}
    (mem : p ∈ g.productions) {occurrence : String × List Symbol}
    (ho : occurrence ∈ occurrences p.rhs) (follows : FollowSets) (h : Proper g firsts follows) :
    Proper g firsts (extendAt firsts p.lhs follows occurrence) ∧
      (extendAt firsts p.lhs follows occurrence = follows ∨
        Family.total List.length follows <
          Family.total List.length (extendAt firsts p.lhs follows occurrence)) := by
  obtain ⟨name, rest⟩ := occurrence
  obtain ⟨hp, hw⟩ := h.change_merge name (terminals_subset_candidates mem ho)
  simp only [extendAt]
  split
  · obtain ⟨hp', hw'⟩ := hp.change_merge name (hp.of_subset p.lhs)
    refine ⟨hp', ?_⟩
    rcases hw with hw | hw <;> rcases hw' with hw' | hw'
    · exact .inl (hw'.trans hw)
    · exact .inr (by rw [hw] at hw' ⊢; exact hw')
    · exact .inr (by rw [hw']; exact hw)
    · exact .inr (by omega)
  · exact ⟨hp, hw⟩

theorem extend_widens {g : Grammar} {firsts : FirstSets} {p : Production}
    (mem : p ∈ g.productions) (follows : FollowSets) (h : Proper g firsts follows) :
    Proper g firsts (extend firsts follows p) ∧
      (extend firsts follows p = follows ∨
        Family.total List.length follows < Family.total List.length (extend firsts follows p)) := by
  have hw := foldl_eq_or_size_lt (fun _ ho s hs => extendAt_widens mem ho s hs) follows h
  exact ⟨hw.1, hw.2.imp_left And.left⟩

theorem proper_initial (g : Grammar) (firsts : FirstSets) : Proper g firsts (initial g) := by
  refine ⟨?_, ?_, ?_⟩
  · simp [initial, Family.names, Function.comp_def]
  all_goals
    intro entry he
    obtain ⟨name, _, rfl⟩ := List.mem_map.mp he
    by_cases hname : name = g.start <;> simp [hname, candidates]

theorem round_widens (g : Grammar) (firsts : FirstSets) (follows : FollowSets)
    (h : Proper g firsts follows) :
    Proper g firsts (round g firsts follows) ∧
      ((round g firsts follows = follows ∧
          ∀ p ∈ g.productions, extend firsts follows p = follows) ∨
        Family.total List.length follows < Family.total List.length (round g firsts follows)) :=
  foldl_eq_or_size_lt (fun _ mem s hs => extend_widens mem s hs) follows h

theorem proper_ofGrammar (g : Grammar) (firsts : FirstSets) :
    Proper g firsts (ofGrammar g firsts) :=
  settle_induct (round g firsts) (Proper g firsts) (fun s hs => (round_widens g firsts s hs).1)
    (maxRounds g firsts) (initial g) (proper_initial g firsts)

-- The rounds end because nothing is left to add, with any FIRST sets: each but the last
-- adds to some set.
theorem analyze_eq_iterate (g : Grammar) (firsts : FirstSets) :
    ∃ rounds, analyze g firsts = ((round g firsts)^[rounds] (initial g), rounds + 1) ∧
      round g firsts ((round g firsts)^[rounds] (initial g)) =
        (round g firsts)^[rounds] (initial g) ∧
      ∀ earlier < rounds, Family.total List.length ((round g firsts)^[earlier] (initial g)) <
        Family.total List.length ((round g firsts)^[earlier + 1] (initial g)) := by
  apply settle_eq_iterate_of_growth (round g firsts) (Proper g firsts) (Family.total List.length)
    (g.sortedNonterminals.length * (candidates g firsts).length)
  · intro s hs
    exact (round_widens g firsts s hs).1
  · intro s hs
    exact (round_widens g firsts s hs).2.imp_left And.left
  · intro s hs
    have hlen : s.length = g.sortedNonterminals.length := by
      rw [← hs.names_eq, Family.names, List.length_map]
    rw [← hlen]
    exact Family.total_le _ _ _ fun entry he =>
      (hs.nodup entry he).length_le_of_subset (hs.subset entry he)
  · exact proper_initial g firsts
  · simp only [maxRounds, candidates, List.length_cons, List.length_append]
    rw [show ∀ n m : Nat, 1 + n + m = n + m + 1 by omega]
    omega

theorem round_ofGrammar (g : Grammar) (firsts : FirstSets) :
    round g firsts (ofGrammar g firsts) = ofGrammar g firsts := by
  obtain ⟨rounds, hanalyze, hfixed, _⟩ := analyze_eq_iterate g firsts
  rw [ofGrammar, hanalyze, hfixed]

-- Every occurrence of a nonterminal agrees with the sets.
structure Closed (g : Grammar) (firsts : FirstSets) (follows : FollowSets) : Prop where
  start : endMarker ∈ follows.of g.start
  next : ∀ p ∈ g.productions, ∀ before name rest, p.rhs = before ++ .nonterminal name :: rest →
    (firsts.ofSequence rest).terminals ⊆ follows.of name
  last : ∀ p ∈ g.productions, ∀ before name rest, p.rhs = before ++ .nonterminal name :: rest →
    (firsts.ofSequence rest).nullable = true → follows.of p.lhs ⊆ follows.of name

theorem subset_of_change_eq {follows : FollowSets} {name : String} (hname : name ∈ follows.names)
    {members : List String} (h : follows.change name (merge · members) = follows) :
    members ⊆ follows.of name := by
  intro token ht
  have hself := of_change_self hname (merge · members)
  rw [h] at hself
  rw [hself]
  exact (mem_merge _ _ _).mpr (.inr ht)

-- An occurrence that changes nothing has nothing to add in either way.
theorem subset_of_extendAt_eq {g : Grammar} {firsts : FirstSets} {follows : FollowSets}
    (h : Proper g firsts follows) {p : Production} (mem : p ∈ g.productions) {name : String}
    {rest : List Symbol} (ho : (name, rest) ∈ occurrences p.rhs)
    (heq : extendAt firsts p.lhs follows (name, rest) = follows) :
    (firsts.ofSequence rest).terminals ⊆ follows.of name ∧
      ((firsts.ofSequence rest).nullable = true → follows.of p.lhs ⊆ follows.of name) := by
  have hname : name ∈ follows.names := by
    obtain ⟨before, hrhs⟩ := (mem_occurrences p.rhs rest name).mp ho
    rw [h.names_eq, Grammar.sortedNonterminals, Names.mem_sortedSet]
    exact g.declares_of_mem_rhs p mem (.nonterminal name) (by simp [hrhs])
  obtain ⟨hp, hw⟩ := h.change_merge name (terminals_subset_candidates mem ho)
  simp only [extendAt] at heq
  split at heq
  · rename_i hnull
    obtain ⟨_, hw'⟩ := hp.change_merge name (hp.of_subset p.lhs)
    -- the second change cannot undo what the first one added
    have hfirst : follows.change name (merge · (firsts.ofSequence rest).terminals) = follows := by
      rcases hw with hw | hw
      · exact hw
      · rcases hw' with hw' | hw'
        · rw [hw'] at heq
          exact heq
        · rw [heq] at hw'
          omega
    rw [hfirst] at heq
    exact ⟨subset_of_change_eq hname hfirst, fun _ => subset_of_change_eq hname heq⟩
  · rename_i hnull
    exact ⟨subset_of_change_eq hname heq, fun hn => absurd hn hnull⟩

theorem start_mem_initial (g : Grammar) : endMarker ∈ (initial g).of g.start := by
  have hn : g.start ∈ g.sortedNonterminals := (Names.mem_sortedSet ..).mpr g.start_mem
  rw [of, initial, Family.value?_map, if_pos hn]
  simp

theorem mem_change_of_mem {follows : FollowSets} {name other token : String}
    {members : List String} (h : token ∈ follows.of other) :
    token ∈ of (follows.change name (merge · members)) other := by
  by_cases heq : other = name
  · subst heq
    by_cases hname : other ∈ follows.names
    · rw [of_change_self hname]
      exact (mem_merge _ _ _).mpr (.inl h)
    · rwa [Family.change_of_not_mem _ _ _ hname]
  · rwa [of_change_of_ne follows name other _ heq]

theorem mem_extendAt_of_mem {firsts : FirstSets} {lhs : String} {follows : FollowSets}
    {occurrence : String × List Symbol} {token name : String} (h : token ∈ follows.of name) :
    token ∈ (extendAt firsts lhs follows occurrence).of name := by
  simp only [extendAt]
  split
  · exact mem_change_of_mem (mem_change_of_mem h)
  · exact mem_change_of_mem h

theorem mem_round_of_mem {g : Grammar} {firsts : FirstSets} {follows : FollowSets}
    {token name : String} (h : token ∈ follows.of name) :
    token ∈ (round g firsts follows).of name := by
  apply foldl_keeps (fun s : FollowSets => token ∈ s.of name) _ follows h
  intro p _ s hs
  exact foldl_keeps (fun s : FollowSets => token ∈ s.of name)
    (fun _ _ _ h => mem_extendAt_of_mem h) s hs

theorem closed_ofGrammar (g : Grammar) (firsts : FirstSets) :
    Closed g firsts (ofGrammar g firsts) := by
  have hproper := proper_ofGrammar g firsts
  have hfixed : ∀ p ∈ g.productions, ∀ before name rest, p.rhs = before ++ .nonterminal name :: rest →
      ((firsts.ofSequence rest).terminals ⊆ (ofGrammar g firsts).of name) ∧
        ((firsts.ofSequence rest).nullable = true →
          (ofGrammar g firsts).of p.lhs ⊆ (ofGrammar g firsts).of name) := by
    intro p mem before name rest hrhs
    have ho := (mem_occurrences p.rhs rest name).mpr ⟨before, hrhs⟩
    have hp : extend firsts (ofGrammar g firsts) p = ofGrammar g firsts := by
      rcases (round_widens g firsts _ hproper).2 with ⟨_, hall⟩ | hlt
      · exact hall p mem
      · rw [round_ofGrammar] at hlt
        omega
    apply subset_of_extendAt_eq hproper mem ho
    rcases (foldl_eq_or_size_lt (fun _ ho s hs => extendAt_widens mem ho s hs) _ hproper).2 with
      ⟨_, hall⟩ | hlt
    · exact hall (name, rest) ho
    · rw [show (occurrences p.rhs).foldl (extendAt firsts p.lhs) _ = _ from hp] at hlt
      omega
  refine ⟨?_, fun p mem before name rest h => (hfixed p mem before name rest h).1,
    fun p mem before name rest h => (hfixed p mem before name rest h).2⟩
  exact settle_induct (round g firsts) (fun s : FollowSets => endMarker ∈ s.of g.start)
    (fun _ h => mem_round_of_mem h) (maxRounds g firsts) (initial g) (start_mem_initial g)

theorem mem_or_of_mem_change {follows : FollowSets} {name other token : String}
    {members : List String} (h : token ∈ of (follows.change name (merge · members)) other) :
    token ∈ follows.of other ∨ other = name ∧ token ∈ members := by
  by_cases heq : other = name
  · subst heq
    by_cases hname : other ∈ follows.names
    · rw [of_change_self hname] at h
      exact ((mem_merge _ _ _).mp h).imp_right fun hm => ⟨rfl, hm⟩
    · rw [Family.change_of_not_mem _ _ _ hname] at h
      exact .inl h
  · rw [of_change_of_ne follows name other _ heq] at h
    exact .inl h

-- All members of the sets stand in the relation to the names that they belong to.
def Obeys (follows : FollowSets) (motive : String → String → Prop) : Prop :=
  ∀ name token, token ∈ follows.of name → motive name token

section Least

variable {g : Grammar} {firsts : FirstSets} {motive : String → String → Prop}

theorem obeys_initial (start : motive g.start endMarker) : (initial g).Obeys motive := by
  intro name token h
  rcases of_mem_or (initial g) name with hm | hm
  · obtain ⟨other, _, heq⟩ := List.mem_map.mp hm
    obtain ⟨rfl, hof⟩ := Prod.mk.inj heq
    rw [← hof] at h
    split at h
    · rename_i hstart
      obtain rfl := List.mem_singleton.mp h
      exact hstart ▸ start
    · simp at h
  · simp [hm] at h

theorem Obeys.change {follows : FollowSets} (h : follows.Obeys motive) {name : String}
    {members : List String} (hm : ∀ token ∈ members, motive name token) :
    Obeys (follows.change name (merge · members)) motive := by
  intro other token ht
  rcases mem_or_of_mem_change ht with hold | ⟨rfl, hnew⟩
  · exact h other token hold
  · exact hm token hnew

-- An occurrence adds nothing but what can begin the rest behind it and, if the rest can be
-- empty, what follows the left side.
theorem Obeys.extendAt {follows : FollowSets} (h : follows.Obeys motive) {lhs name : String}
    {rest : List Symbol} (next : ∀ token ∈ (firsts.ofSequence rest).terminals, motive name token)
    (last : (firsts.ofSequence rest).nullable = true → ∀ token, motive lhs token → motive name token) :
    (extendAt firsts lhs follows (name, rest)).Obeys motive := by
  have hwidened := h.change next
  simp only [FollowSets.extendAt]
  split
  · rename_i hnull
    exact hwidened.change fun token ht => last hnull token (hwidened lhs token ht)
  · exact hwidened

-- The sets are the least that the occurrences agree with: a relation that holds of the end
-- marker at the start symbol, and is passed on as the occurrences do it, holds of all members.
theorem obeys_ofGrammar (start : motive g.start endMarker)
    (next : ∀ p ∈ g.productions, ∀ before name rest, p.rhs = before ++ .nonterminal name :: rest →
      ∀ token ∈ (firsts.ofSequence rest).terminals, motive name token)
    (last : ∀ p ∈ g.productions, ∀ before name rest, p.rhs = before ++ .nonterminal name :: rest →
      (firsts.ofSequence rest).nullable = true → ∀ token, motive p.lhs token → motive name token) :
    (ofGrammar g firsts).Obeys motive := by
  apply settle_induct (round g firsts) (Obeys · motive) _ _ _ (obeys_initial start)
  intro follows hs
  apply foldl_keeps (Obeys · motive) _ follows hs
  intro p mem follows hs
  apply foldl_keeps (Obeys · motive) _ follows hs
  rintro ⟨name, rest⟩ ho follows hs
  obtain ⟨before, hrhs⟩ := (mem_occurrences p.rhs rest name).mp ho
  exact hs.extendAt (next p mem before name rest hrhs) (last p mem before name rest hrhs)

end Least

end FollowSets

end ContextFree
