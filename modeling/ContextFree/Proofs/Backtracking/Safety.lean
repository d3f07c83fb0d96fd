import ContextFree.Proofs.Backtracking.Nesting
import ContextFree.Proofs.Backtracking.Worklist

namespace ContextFree

theorem mem_of_filterAuxM {test : α → Except ε Bool} {xs kept ys : List α}
    (h : xs.filterAuxM test kept = .ok ys) {y : α} (hy : y ∈ ys) : y ∈ xs ∨ y ∈ kept := by
  induction xs generalizing kept with
  | nil =>
      obtain rfl := Except.ok.inj h
      exact .inr hy
  | cons x xs ih =>
      rw [List.filterAuxM] at h
      cases htest : test x with
      | error fault => simp [htest, bind, Except.bind] at h
      | ok passes =>
          rw [htest] at h
          rcases ih h with hm | hm
          · exact .inl (List.mem_cons_of_mem _ hm)
          · cases passes with
            | true =>
                rcases List.mem_cons.mp hm with rfl | hm
                · exact .inl List.mem_cons_self
                · exact .inr hm
            | false => exact .inr hm

-- What passes a filter was there before.
theorem mem_of_mem_filterM {test : α → Except ε Bool} {xs ys : List α}
    (h : xs.filterM test = .ok ys) {y : α} (hy : y ∈ ys) : y ∈ xs := by
  rw [List.filterM] at h
  cases hkept : xs.filterAuxM test [] with
  | error fault => simp [hkept, bind, Except.bind] at h
  | ok kept =>
      simp only [hkept, bind, Except.bind, pure, Except.pure, Except.ok.injEq] at h
      subst h
      exact (mem_of_filterAuxM hkept (List.mem_reverse.mp hy)).resolve_right (by simp)

namespace Attempt

-- A step goes through, unless what is owed has no value after some expansion.
theorem Unfolds.step_cases {g : Grammar} {a : Attempt} {consumed : List String}
    {frames : List Frame} (h : Unfolds g a consumed frames) (hcursor : a.cursor ≠ none)
    (lengths : String → Option Int) (token : Option String) (position : Nat) :
    (∃ move, a.step g lengths token position = .ok move) ∨
      (a.step g lengths token position = .error .tooLarge ∧
        ∃ p ∈ g.productions, a.owed.replace? lengths p.lhs p.rhs = none) := by
  obtain ⟨spot, hspot⟩ := Option.ne_none_iff_exists'.mp hcursor
  obtain ⟨index, f, outer, s, rest, rfl, hrest, hchain, rfl, hslot⟩ := h.exists_rest hspot
  cases s with
  | terminal name =>
      simp only [Slot.ofSymbol] at hslot
      obtain ⟨next, hnext, _⟩ := exists_consume hchain hrest
      left
      by_cases htoken : token = some name
      · exact ⟨{ successors := [next], consumed := 1 }, by
          simp only [step, hspot, hslot, if_pos htoken, hnext]; rfl⟩
      · exact ⟨{ successors := [], consumed := 1 }, by
          simp only [step, hspot, hslot, if_neg htoken]⟩
  | nonterminal name =>
      simp only [Slot.ofSymbol] at hslot
      have hall : ∀ p ∈ g.productionsFor name,
          (∃ next, a.expand lengths { expansion := index, slot := f.done.length } name p position =
            .ok next ∧ True) ∨
          (a.expand lengths { expansion := index, slot := f.done.length } name p position =
              .error .tooLarge ∧
            ∃ p ∈ g.productions, a.owed.replace? lengths p.lhs p.rhs = none) := by
        intro p hp
        obtain ⟨mem, rfl⟩ := (g.mem_productionsFor name p).mp hp
        cases howed : a.owed.replace? lengths p.lhs p.rhs with
        | none => exact .inr ⟨by rw [Attempt.expand, howed], p, mem, howed⟩
        | some owed =>
            obtain ⟨next, hnext, _⟩ := exists_expand hchain hrest howed position
            exact .inl ⟨next, hnext, trivial⟩
      rcases mapM_cases _ hall with ⟨nexts, hnexts, _⟩ | ⟨hfault, hlarge⟩
      · exact .inl ⟨_, by simp only [step, hspot, hslot, hnexts]; rfl⟩
      · exact .inr ⟨by simp only [step, hspot, hslot, hfault]; rfl, hlarge⟩

-- What is taken for granted of an attempt: the slot under the cursor is there and was not
-- expanded, a step does not fail but for what is owed, every expansion has a symbol and a depth,
-- and where nothing is left there is no slot to expand, and there is a tree.
structure Safe (g : Grammar) (lengths : String → Option Int) (a : Attempt) : Prop where
  cursor : ∀ spot, a.cursor = some spot → ∃ s, a.slotAt spot = .ok (.ofSymbol s)
  step : a.cursor ≠ none → ∀ token position,
    (∃ move, a.step g lengths token position = .ok move) ∨
      (a.step g lengths token position = .error .tooLarge ∧
        ∃ p ∈ g.productions, a.owed.replace? lengths p.lhs p.rhs = none)
  size_pos : 0 < a.expansions.size
  label : ∀ index < a.expansions.size, ∃ label, a.label? index = .ok label
  nesting : ∀ index < a.expansions.size, ∃ depth, a.nesting index = .ok depth
  finished : a.cursor = none → ∀ spot name, a.slotAt spot ≠ .ok (.unexpanded name)
  tree : a.cursor = none → ∃ t, a.tree = .ok t

theorem Reachable.safe {g : Grammar} {lengths : String → Option Int} {a : Attempt}
    {consumed : List String} (h : Reachable g lengths a consumed) : a.Safe g lengths := by
  have hlinked := h.linked
  obtain ⟨frames, hunfolds⟩ := h.exists_unfolds
  constructor
  case cursor =>
    intro spot hspot
    obtain ⟨_, _, _, s, _, _, _, _, _, hslot⟩ := hunfolds.exists_rest hspot
    exact ⟨s, hslot⟩
  case step => exact fun hcursor => hunfolds.step_cases hcursor lengths
  case size_pos =>
    obtain ⟨root, hroot, _⟩ := hlinked.root
    exact (Array.getElem?_eq_some_iff.mp hroot).1
  case label => exact fun index hindex => hlinked.exists_label hindex
  case nesting => exact fun index hindex => ⟨_, hlinked.nesting_eq hindex⟩
  case finished =>
    intro hcursor spot name hslot
    have htraversed := hunfolds.traversed hlinked
    obtain ⟨before, after, hpreorder, hhead, hspells, _⟩ := htraversed.split
    have hnil : after = [] := by
      rw [hcursor, eq_comm, Option.map_eq_none_iff] at hhead
      exact List.head?_eq_none_iff.mp hhead
    rw [hnil, List.append_nil] at hpreorder
    have hm := (htraversed.mem_iff spot _).mpr hslot
    rw [hpreorder] at hm
    exact hspells.done _ hm name rfl
  case tree => exact fun hcursor => (hunfolds.exists_tree hcursor).imp fun _ => And.left

end Attempt

namespace Task

section Following

variable {task : Task} {tokens : List String}

-- The loop takes no other steps than those that lead from one attempt to another.
theorem exists_step_of_follows {a : Attempt} {position : Nat} {next : Attempt × Nat}
    (h : task.Follows tokens (a, position) next) :
    ∃ move, a.step task.grammar task.lengths tokens[position]? position = .ok move ∧
      next.1 ∈ move.successors ∧ next.2 = position + move.consumed := by
  simp only [Follows, followers] at h
  split at h
  · simp at h
  · split at h
    · simp at h
    · rename_i move successors hpursue
      obtain ⟨other, hm, rfl⟩ := List.mem_map.mp h
      obtain ⟨hstep, hadmitted⟩ := eq_ok_of_pursue hpursue
      exact ⟨move, hstep, mem_of_mem_filterM hadmitted hm, rfl⟩

theorem reachable_of_follows {a : Attempt} {position : Nat} {next : Attempt × Nat}
    (h : a.Reachable task.grammar task.lengths (tokens.take position))
    (hfollows : task.Follows tokens (a, position) next) :
    next.1.Reachable task.grammar task.lengths (tokens.take next.2) := by
  obtain ⟨move, hstep, hm, hposition⟩ := exists_step_of_follows hfollows
  have htext : tokens.take position ++ tokens[position]?.toList.take move.consumed =
      tokens.take next.2 := by
    rw [hposition]
    rcases consumed_of_step hstep with hzero | ⟨hone, _⟩
    · simp [hzero]
    · have htoken : tokens[position]?.toList.take 1 = tokens[position]?.toList := by
        cases tokens[position]? <;> rfl
      rw [hone, htoken, List.take_add_one]
  rw [← htext]
  exact .step h hstep hm

theorem eq_initial_of_mem_opening {entry : Attempt × Nat} (h : entry ∈ task.opening.todo) :
    entry = (Attempt.initial task.grammar task.lengths, 0) := by
  simp only [opening] at h
  split at h
  · exact List.mem_singleton.mp h
  · simp at h

-- Where the loop comes to, steps lead to, and the tokens in front of the position were consumed.
theorem reachable_of_reaches {entry : Attempt × Nat}
    (h : task.Reaches tokens task.opening entry) :
    entry.1.Reachable task.grammar task.lengths (tokens.take entry.2) := by
  obtain ⟨first, hfirst, hreaches⟩ := h
  induction hreaches with
  | refl =>
      rw [eq_initial_of_mem_opening hfirst]
      exact .initial
  | tail _ hfollows ih => exact reachable_of_follows ih hfollows

end Following

end Task

namespace Backtracking

-- Everything that the search takes for granted is so, of all attempts that steps lead to as of
-- those on its list, and a turn of its loop can fail only if too much is owed.
structure Safe (g : Grammar) (tokens : List String) : Prop where
  attempt : ∀ lengths a consumed, Attempt.Reachable g lengths a consumed → a.Safe g lengths
  todo : ∀ task, Task.ofGrammar? g tokens.length = some task → ∀ w,
    Relation.ReflTransGen (task.Turns tokens) task.opening w →
      ∀ entry ∈ w.todo, entry.1.Safe g task.lengths
  turn : ∀ task, Task.ofGrammar? g tokens.length = some task → ∀ w,
    Relation.ReflTransGen (task.Turns tokens) task.opening w →
      ∀ fault, task.turn tokens w = .stop (.error fault) →
        fault = .tooLarge ∧ Debt.limit ≤ tokens.length

theorem safe (g : Grammar) (tokens : List String) : Safe g tokens := by
  constructor
  case attempt => exact fun lengths a consumed h => h.safe
  case todo =>
    intro task htask w hw entry hm
    obtain ⟨lengths, _, rfl⟩ := Option.map_eq_some_iff.mp htask
    exact (Task.reachable_of_reaches (Task.reaches_of_turns hw entry hm)).safe
  case turn =>
    intro task htask w hw fault hfault
    obtain ⟨last, hturns, hlast⟩ := exists_stop htask
    have heq := eq_of_reaches (fun hb hb' => Turn.next.inj (hb.symm.trans hb')) hturns
      (fun _ hnext => nomatch hlast.symm.trans hnext) hw fun _ hnext => nomatch hfault.symm.trans hnext
    have hsearch : search g tokens = .error fault := by
      rw [heq] at hfault
      exact Turn.stop.inj (hlast.symm.trans hfault)
    have hparse : parse g tokens = .error fault := by rw [parse, hsearch]; rfl
    rcases parse_cases g tokens with ⟨r, hr, _⟩ | ⟨hlarge, hwhy⟩
    · simp [hparse] at hr
    · refine ⟨Except.error.inj (hparse.symm.trans hlarge),
        (hwhy.resolve_left fun hnone => ?_).1⟩
      simp [Task.ofGrammar?, hnone] at htask

end Backtracking

end ContextFree
