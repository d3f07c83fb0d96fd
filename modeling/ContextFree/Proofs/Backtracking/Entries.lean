import ContextFree.Proofs.Analysis.ShortestSentences
import ContextFree.Proofs.Backtracking.Safety

namespace ContextFree

namespace Attempt

theorem lt_size_of_origin? {a : Attempt} {index origin : Nat} (h : a.origin? index = some origin) :
    index < a.expansions.size := by
  obtain ⟨_, he, _⟩ := Option.map_eq_some_iff.mp h
  exact (Array.getElem?_eq_some_iff.mp he).1

theorem size_opened (expansions : Array Expansion) (spot : Spot) (name : String) (p : Production)
    (position : Nat) : (opened expansions spot name p position).size = expansions.size + 1 := by
  simp [opened]

-- The new expansion is of the position, and the others are of the positions that they were of.
theorem origin?_of_opened {a next : Attempt} {spot : Spot} {name : String} {p : Production}
    {position : Nat} (h : next.expansions = opened a.expansions spot name p position)
    (index : Nat) :
    next.origin? index = if index = a.expansions.size then some position else a.origin? index := by
  rw [origin?, h, getElem?_opened, origin?]
  split
  · rfl
  · cases a.expansions[index]? with
    | none => rfl
    | some e => rw [Option.map_some, Option.map_some]; split <;> rfl

end Attempt

namespace Task

-- On the way to an entry of the list, an attempt makes the expansion with the index. The tokens in
-- front of the position were consumed before, and no others.
def MadeAt (task : Task) (tokens : List String) (entry : Attempt × Nat) (index position : Nat) :
    Prop :=
  ∃ before after, task.Reaches tokens task.opening (before, position) ∧
    before.Reachable task.grammar task.lengths (tokens.take position) ∧
    task.Follows tokens (before, position) after ∧
    Relation.ReflTransGen (task.Follows tokens) after entry ∧
    before.expansions.size ≤ index ∧ index < after.1.expansions.size

section Following

variable {task : Task} {tokens : List String} {entry other : Attempt × Nat} {index made : Nat}

-- What follows an attempt has consumed one more token, or it has made one more expansion.
theorem follows_cases (h : task.Follows tokens entry other) :
    (other.2 = entry.2 + 1 ∧ other.1.expansions = entry.1.expansions) ∨
    (other.2 = entry.2 ∧ ∃ spot p,
      other.1.expansions = Attempt.opened entry.1.expansions spot p.lhs p entry.2) := by
  obtain ⟨a, position⟩ := entry
  obtain ⟨move, hstep, hm, hposition⟩ := exists_step_of_follows h
  rcases Attempt.step_cases hstep hm with
    ⟨_, _, _, _, _, hone, hnext⟩ | ⟨spot, p, _, _, _, hzero, hnext⟩
  · exact .inl ⟨by rw [hposition, hone], Attempt.expansions_of_consume hnext⟩
  · exact .inr ⟨by rw [hposition, hzero, Nat.add_zero], spot, p,
      (Attempt.exists_of_expand hnext).2⟩

-- Where an expansion was made does not change.
theorem origin?_of_follows (h : task.Follows tokens entry other)
    (horigin : entry.1.origin? index = some made) :
    other.1.origin? index = some made := by
  rcases follows_cases h with ⟨_, hexpansions⟩ | ⟨_, spot, p, hexpansions⟩
  · rw [Attempt.origin?, hexpansions]
    exact horigin
  · have hlt := Attempt.lt_size_of_origin? horigin
    rw [Attempt.origin?_of_opened hexpansions, if_neg (Nat.ne_of_lt hlt), horigin]

theorem MadeAt.tail (h : task.MadeAt tokens entry index made)
    (hfollows : task.Follows tokens entry other) : task.MadeAt tokens other index made := by
  obtain ⟨before, after, hbefore, hconsumed, hmade, hafter, hsize, hlt⟩ := h
  exact ⟨before, after, hbefore, hconsumed, hmade, hafter.tail hfollows, hsize, hlt⟩

-- What makes an expansion makes the one whose index comes next, and at its own position.
theorem MadeAt.origin? (h : task.MadeAt tokens entry index made) :
    entry.1.origin? index = some made := by
  obtain ⟨before, after, _, _, hmade, hafter, hsize, hlt⟩ := h
  have horigin : after.1.origin? index = some made := by
    rcases follows_cases hmade with ⟨_, hexpansions⟩ | ⟨_, spot, p, hexpansions⟩
    · simp only [hexpansions] at hlt
      omega
    · simp only [hexpansions, Attempt.size_opened] at hlt
      have hlast : index = before.expansions.size := by omega
      rw [Attempt.origin?_of_opened hexpansions, if_pos hlast]
  induction hafter with
  | refl => exact horigin
  | tail _ hfollows ih => exact origin?_of_follows hfollows ih

end Following

section Reaching

variable {g : Grammar} {tokens : List String} {task : Task}
  (htask : Task.ofGrammar? g tokens.length = some task) {entry : Attempt × Nat}

include htask

end Reaching

end Task

namespace Attempt

end Attempt

namespace Task

end Task

end ContextFree
