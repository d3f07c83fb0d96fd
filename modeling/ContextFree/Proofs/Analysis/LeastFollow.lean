import ContextFree.Proofs.Analysis.Follow
import Mathlib.Order.Bounds.Basic

namespace ContextFree

namespace FollowSets

-- Sets for all names that agree with every occurrence of a nonterminal, whatever the
-- given FIRST sets say.
structure Agreeing (g : Grammar) (firsts : FirstSets) (sets : String → Set String) : Prop where
  start : endMarker ∈ sets g.start
  next : ∀ p ∈ g.productions, ∀ before name rest, p.rhs = before ++ .nonterminal name :: rest →
    ∀ token ∈ (firsts.ofSequence rest).terminals, token ∈ sets name
  last : ∀ p ∈ g.productions, ∀ before name rest, p.rhs = before ++ .nonterminal name :: rest →
    (firsts.ofSequence rest).nullable = true → sets p.lhs ⊆ sets name

-- The members of a family's sets. A name that the family does not have has none.
def members (follows : FollowSets) (name : String) : Set String := {token | token ∈ follows.of name}

-- Only which productions there are matters to the sets, not in which order or how often.
theorem Agreeing.of_productions {g other : Grammar} {firsts : FirstSets}
    {sets : String → Set String} (h : Agreeing g firsts sets) (hstart : other.start = g.start)
    (hproductions : other.productions ⊆ g.productions) : Agreeing other firsts sets where
  start := hstart ▸ h.start
  next p mem := h.next p (hproductions mem)
  last p mem := h.last p (hproductions mem)

theorem agreeing_ofGrammar (g : Grammar) (firsts : FirstSets) :
    Agreeing g firsts (ofGrammar g firsts).members := by
  have hclosed := closed_ofGrammar g firsts
  refine ⟨hclosed.start, ?_, ?_⟩
  · intro p mem before name rest hrhs token ht
    exact hclosed.next p mem before name rest hrhs ht
  · intro p mem before name rest hrhs hnull token ht
    exact hclosed.last p mem before name rest hrhs hnull ht

-- What the rounds add, every agreeing family of sets has.
theorem members_le {g : Grammar} {firsts : FirstSets} {sets : String → Set String}
    (h : Agreeing g firsts sets) : (ofGrammar g firsts).members ≤ sets := by
  have hobeys : (ofGrammar g firsts).Obeys fun name token => token ∈ sets name := by
    refine obeys_ofGrammar h.start h.next ?_
    intro p mem before name rest hrhs hnull token ht
    exact h.last p mem before name rest hrhs hnull ht
  exact fun name token ht => hobeys name token ht

theorem isLeast_members (g : Grammar) (firsts : FirstSets) :
    IsLeast {sets | Agreeing g firsts sets} (ofGrammar g firsts).members :=
  ⟨agreeing_ofGrammar g firsts, fun _ h => members_le h⟩

theorem members_congr {g other : Grammar} (firsts : FirstSets) (hstart : other.start = g.start)
    (hproductions : ∀ p, p ∈ other.productions ↔ p ∈ g.productions) :
    (ofGrammar other firsts).members = (ofGrammar g firsts).members := by
  apply le_antisymm
  · exact members_le ((agreeing_ofGrammar g firsts).of_productions hstart
      fun p => (hproductions p).mp)
  · exact members_le ((agreeing_ofGrammar other firsts).of_productions hstart.symm
      fun p => (hproductions p).mpr)

-- With any FIRST sets, the rounds come to an end at the first that adds nothing. The sets
-- are then those of the declared nonterminals, the least that all occurrences agree with, and
-- the same for every grammar with the same productions in another order or number.
theorem ofGrammar_least (g : Grammar) (firsts : FirstSets) :
    (∃ rounds, analyze g firsts = ((round g firsts)^[rounds] (initial g), rounds + 1) ∧
      round g firsts ((round g firsts)^[rounds] (initial g)) =
        (round g firsts)^[rounds] (initial g) ∧
      ∀ earlier < rounds, Family.total List.length ((round g firsts)^[earlier] (initial g)) <
        Family.total List.length ((round g firsts)^[earlier + 1] (initial g))) ∧
    (ofGrammar g firsts).names = g.sortedNonterminals ∧
    IsLeast {sets | Agreeing g firsts sets} (ofGrammar g firsts).members ∧
    ∀ other : Grammar, other.start = g.start →
      (∀ p, p ∈ other.productions ↔ p ∈ g.productions) →
      (ofGrammar other firsts).members = (ofGrammar g firsts).members :=
  ⟨analyze_eq_iterate g firsts, (proper_ofGrammar g firsts).names_eq, isLeast_members g firsts,
    fun _ => members_congr firsts⟩

end FollowSets

end ContextFree
