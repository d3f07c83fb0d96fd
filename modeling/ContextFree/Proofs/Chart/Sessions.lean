import ContextFree.Proofs.Chart.Memory

namespace ContextFree

-- What can be asked of one who remembers trees.
inductive Question where
  | trees (place : Place)
  | children (place : Place)

namespace Chart

-- What is remembered after the question, answered or refused.
def ask (c : Chart) (b : TreeMemo) : Question → TreeMemo
  | .trees place => (c.trees place b).2
  | .children place => (c.children place b).2

-- What is remembered after the questions, asked one after the other.
def memoAfter (c : Chart) (questions : List Question) : TreeMemo := questions.foldl c.ask .initial

-- What there is to answer when the trees of the item are asked for.
def listed (c : Chart) (place : Place) : Except ChartFault (List Tree) :=
  match c.item? place with
  | none => .error .noItem
  | some x =>
    if x.isComplete then .ok (c.listTrees c.maxDepth [] place) else .error .incompleteItem

-- The work leaves the same items being collected, whether it succeeds or fails.
def Restores (work : TreeWork α) : Prop := ∀ b, (work b).2.active = b.active

section Marks

variable {c : Chart} {treesOf : Place → TreeWork (List Tree)} {b after : TreeMemo}

theorem Restores.pure (r : α) : Restores (Pure.pure r : TreeWork α) := fun _ => rfl

theorem Restores.throw (fault : ChartFault) : Restores (throw fault : TreeWork α) := fun _ => rfl

theorem Restores.bind {work : TreeWork α} {next : α → TreeWork β} (h : Restores work)
    (hnext : ∀ r, Restores (next r)) : Restores (work >>= next) := by
  intro b
  rw [bind_apply, ← h b]
  split
  · rename_i hrun
    rw [hnext, hrun]
  · rename_i hrun
    rw [hrun]

theorem Restores.mapM {f : α → TreeWork β} (h : ∀ a, Restores (f a)) (items : List α) :
    Restores (items.mapM f) := by
  induction items with
  | nil => exact .pure []
  | cons a items ih =>
      rw [List.mapM_cons]
      exact (h a).bind fun _ => ih.bind fun _ => .pure _

theorem restores_stepBack (h : ∀ child, Restores (treesOf child)) (after : List Tree) (e : Edge) :
    Restores (c.stepBack treesOf after e) := by
  cases e with
  | scan predecessor =>
      rw [stepBack]
      split
      · exact .pure _
      · exact .throw _
  | complete predecessor child => exact (h child).bind fun _ => .pure _

theorem restores_walkBack (h : ∀ child, Restores (treesOf child)) (dot : Nat) (place : Place)
    (after : List Tree) : Restores (c.walkBack treesOf dot place after) := by
  induction dot generalizing place after with
  | zero => exact .pure _
  | succ dot ih =>
      by_cases hnil : c.edgesOf place = []
      · rw [walkBack, hnil]
        exact .pure _
      · rw [walkBack_succ hnil]
        refine (Restores.mapM (restores_stepBack h after) _).bind fun ways => ?_
        refine (Restores.mapM (fun way : Place × List Tree => ?_) _).bind fun _ => .pure _
        exact ih way.1 way.2

theorem restores_childrenVia (h : ∀ child, Restores (treesOf child)) (place : Place) :
    Restores (c.childrenVia treesOf place) := restores_walkBack h _ place []

-- The item that is added while its families are collected is taken out again in any case.
theorem restores_treesAt (c : Chart) (depth : Nat) (place : Place) :
    Restores (c.treesAt depth place) := by
  induction depth generalizing place with
  | zero => exact .throw _
  | succ depth ih =>
      intro b
      cases hknown : b.known? place with
      | some trees => rw [treesAt_of_known hknown]
      | none =>
          by_cases hm : place ∈ b.active
          · rw [treesAt_of_active hknown hm]
          · cases hx : c.item? place with
            | none => rw [treesAt_of_item?_none hknown hm hx]
            | some x =>
                cases whole : x.isComplete with
                | false => rw [treesAt_of_incomplete hknown hm hx whole]
                | true =>
                    have hinner : ∀ result after, c.childrenVia (c.treesAt depth) place
                        { b with active := place :: b.active } = (result, after) →
                        after.active.erase place = b.active := by
                      intro result after hrun
                      have hmarks := restores_childrenVia (c := c) ih place
                        { b with active := place :: b.active }
                      simp only [hrun] at hmarks
                      rw [hmarks, List.erase_cons_head]
                    rw [treesAt_of_complete hknown hm hx whole]
                    split
                    · exact hinner _ _ ‹_›
                    · exact hinner _ _ ‹_›

-- No question leaves a mark behind, in no chart.
theorem restores_ask (c : Chart) (b : TreeMemo) (q : Question) : (c.ask b q).active = b.active := by
  cases q with
  | trees place => exact restores_treesAt c c.maxDepth place b
  | children place => exact restores_childrenVia (restores_treesAt c c.maxDepth) place b

end Marks

-- Nothing is remembered of items that are missing or incomplete.
theorem Remembers.known?_eq_none {c : Chart} {b : TreeMemo} (hb : c.Remembers b) {place : Place}
    (hpart : ∀ x, c.item? place = some x → x.isComplete = false) : b.known? place = none := by
  cases hknown : b.known? place with
  | none => rfl
  | some trees =>
      obtain ⟨_, ⟨x, hx, whole⟩, _⟩ := hb.of_known? hknown
      rw [hpart x hx] at whole
      contradiction

section Finished

variable {c : Chart} (h : c.Finished) {b : TreeMemo} (hb : c.Remembers b) (hactive : b.active = [])

include h hb hactive

-- The answer does not depend on what is remembered, and what is remembered stays as it should be.
theorem exists_trees (place : Place) :
    ∃ after, c.trees place b = (c.listed place, after) ∧ c.Remembers after := by
  have hm : place ∉ b.active := by simp [hactive]
  cases hx : c.item? place with
  | none =>
      have hknown : b.known? place = none := hb.known?_eq_none (by simp [hx])
      refine ⟨b, ?_, hb⟩
      rw [listed, hx]
      exact treesAt_of_item?_none hknown hm hx
  | some x =>
      cases whole : x.isComplete with
      | false =>
          have hknown : b.known? place = none := hb.known?_eq_none (by simp [hx, whole])
          refine ⟨b, ?_, hb⟩
          simp only [listed, hx, whole]
          exact treesAt_of_incomplete hknown hm hx whole
      | true =>
          obtain ⟨after, hrun, hafter, _⟩ := collects_trees h hx whole b hb hactive
          refine ⟨after, ?_, hafter⟩
          simp only [listed, hx, whole]
          exact hrun

theorem exists_children (place : Place) :
    ∃ after, c.children place b =
      (.ok (c.listFamilies (c.listTrees c.maxDepth []) place), after) ∧ c.Remembers after := by
  cases hx : c.item? place with
  | none =>
      refine ⟨b, ?_, hb⟩
      rw [children, childrenVia, listFamilies, hx]
      rfl
  | some x =>
      have hall : c.Collects [] (c.children place)
          (c.listFamilies (c.listTrees c.maxDepth []) place)
          (∀ child, c.Asks child place → c.Grounded child) := by
        refine collects_childrenVia h hx (fun child _ => .initial c child) (Nat.le_add_right _ _)
          fun child hasks => ?_
        obtain ⟨y, hy, whole⟩ := item_of_asks h hasks hx
        exact collects_trees h hy whole
      obtain ⟨after, hrun, hafter, _⟩ := hall b hb hactive
      exact ⟨after, hrun, hafter⟩

theorem remembers_ask (q : Question) : c.Remembers (c.ask b q) := by
  cases q with
  | trees place =>
      obtain ⟨after, hrun, hafter⟩ := exists_trees h hb hactive place
      rw [ask, hrun]
      exact hafter
  | children place =>
      obtain ⟨after, hrun, hafter⟩ := exists_children h hb hactive place
      rw [ask, hrun]
      exact hafter

theorem remembers_foldl_ask (questions : List Question) :
    c.Remembers (questions.foldl c.ask b) ∧ (questions.foldl c.ask b).active = [] := by
  induction questions generalizing b with
  | nil => exact ⟨hb, hactive⟩
  | cons q questions ih =>
      exact ih (remembers_ask h hb hactive q) ((restores_ask c b q).trans hactive)

end Finished

-- Whatever was asked before, the trees and the children of an item are those that are given if
-- nothing is remembered, in the same order, and no item is still being collected. A question for
-- children is always answered, and one for trees if there is a complete item at the place.
theorem trees_after_questions (g : Grammar) (tokens : List String) (questions : List Question) :
    let c := build g tokens
    let memo := c.memoAfter questions
    memo.active = [] ∧ ∀ place,
      (c.trees place memo).1 = (c.trees place).fresh ∧
      (c.children place memo).1 = (c.children place).fresh ∧
      (c.trees place).fresh = c.listed place ∧
      (c.children place).fresh = .ok (c.listFamilies (c.listTrees c.maxDepth []) place) := by
  intro c memo
  have h : c.Finished := finished_build g tokens
  obtain ⟨hmemo, hactive⟩ : c.Remembers memo ∧ memo.active = [] :=
    remembers_foldl_ask h (remembers_initial c) rfl questions
  refine ⟨hactive, fun place => ?_⟩
  obtain ⟨_, htrees, _⟩ := exists_trees h hmemo hactive place
  obtain ⟨_, hchildren, _⟩ := exists_children h hmemo hactive place
  obtain ⟨_, hfresh, _⟩ := exists_trees h (remembers_initial c) rfl place
  obtain ⟨_, hfresh', _⟩ := exists_children h (remembers_initial c) rfl place
  rw [TreeWork.fresh_eq, TreeWork.fresh_eq, htrees, hchildren, hfresh, hfresh']
  exact ⟨rfl, rfl, rfl, rfl⟩

end Chart

end ContextFree
