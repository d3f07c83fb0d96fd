import ContextFree.Proofs.Backtracking.Correctness
import Mathlib.Data.Set.Finite.Lattice
import Mathlib.Logic.Relation

namespace ContextFree

theorem exists_of_map_eq_ok {work : Except ε α} {f : α → β} {b : β} (h : work.map f = .ok b) :
    ∃ a, work = .ok a ∧ f a = b := by
  cases work with
  | error fault => simp [Except.map] at h
  | ok a => exact ⟨a, rfl, Except.ok.inj h⟩

namespace Search

variable {α β : Type} {work : Except AttemptFault α} {tally : Tally}

theorem run_modify_bind (change : Tally → Tally) (next : PUnit → Search β) :
    (modify change >>= next).run tally = (next ⟨⟩).run (change tally) := rfl

theorem run_ok_bind {v : α} {next : α → Search β} (h : work = .ok v) :
    (liftM work >>= next).run tally = (next v).run tally := by
  subst h
  rfl

theorem run_error_bind {fault : AttemptFault} {next : α → Search β} (h : work = .error fault) :
    (liftM work >>= next).run tally = .error fault := by
  subst h
  rfl

end Search

-- The attempts that are still to be taken up, each with the position of the input that it has
-- come to. The next one comes first.
structure Worklist where
  todo : List (Attempt × Nat)
  tally : Tally

-- What comes of one turn of the loop over the worklist.
inductive Turn where
  | next (w : Worklist)
  | stop (result : Except AttemptFault (Option Tree × Tally))

namespace Task

-- The list at first. There is nothing on it if the start symbol owes more than there is.
def opening (task : Task) : Worklist where
  todo :=
    let start := Attempt.initial task.grammar task.lengths
    if start.owed.within task.count then [(start, 0)] else []
  tally := .initial

section Loop

variable (task : Task) (tokens : List String)

-- A step from an attempt, and the successors that are worth taking up.
def pursue (a : Attempt) (position : Nat) : Except AttemptFault (Move × List Attempt) :=
  match a.step task.grammar task.lengths tokens[position]? position with
  | .error fault => .error fault
  | .ok move => (task.admitted position move).map (move, ·)

-- The next attempt is taken off the list, and its successors are put in its place.
def turn : Worklist → Turn
  | { todo := [], tally } => .stop (.ok (none, tally))
  | { todo := (a, position) :: rest, tally } =>
    let taken := { tally with explored := tally.explored + 1 }
    if a.isComplete then
      if position = tokens.length then .stop (a.tree.map fun t => (some t, taken))
      else .next { todo := rest, tally := taken }
    else
      match task.pursue tokens a position with
      | .error fault => .stop (.error fault)
      | .ok (move, successors) => .next {
          todo := successors.map (·, position + move.consumed) ++ rest
          tally := { taken with
            pruned := taken.pruned + (move.successors.length - successors.length) } }

def Turns (w next : Worklist) : Prop := task.turn tokens w = .next next

-- What an attempt can be followed by on the list.
def followers : Attempt × Nat → List (Attempt × Nat)
  | (a, position) =>
    if a.isComplete then []
    else
      match task.pursue tokens a position with
      | .error _ => []
      | .ok (move, successors) => successors.map (·, position + move.consumed)

def Follows (entry next : Attempt × Nat) : Prop := next ∈ task.followers tokens entry

end Loop

-- From one worklist on, the loop does what a search with this result does: it comes to the rest
-- of the list if nothing is found, and else it stops with the result. Nothing is said of a
-- search that runs out of fuel.
inductive Imitates (task : Task) (tokens : List String) (w : Worklist)
    (rest : List (Attempt × Nat)) : Except AttemptFault (Option Tree × Tally) → Prop where
  | exhausted : Imitates task tokens w rest (.error .exhausted)
  | nothing {after : Tally}
      (turns : Relation.ReflTransGen (task.Turns tokens) w { todo := rest, tally := after }) :
      Imitates task tokens w rest (.ok (none, after))
  | found {last : Worklist} {t : Tree} {after : Tally}
      (turns : Relation.ReflTransGen (task.Turns tokens) w last)
      (stops : task.turn tokens last = .stop (.ok (some t, after))) :
      Imitates task tokens w rest (.ok (some t, after))
  | fails {last : Worklist} {fault : AttemptFault}
      (turns : Relation.ReflTransGen (task.Turns tokens) w last)
      (stops : task.turn tokens last = .stop (.error fault)) :
      Imitates task tokens w rest (.error fault)

-- The loop does the work of the search when these attempts come next.
def Performs (task : Task) (tokens : List String) (work : Search (Option Tree))
    (todo : List (Attempt × Nat)) : Prop :=
  ∀ rest tally, task.Imitates tokens { todo := todo ++ rest, tally } rest (work.run tally)

section Imitating

variable {task : Task} {tokens : List String}

theorem Imitates.after {w next : Worklist} {rest : List (Attempt × Nat)}
    {result : Except AttemptFault (Option Tree × Tally)}
    (hturns : Relation.ReflTransGen (task.Turns tokens) w next)
    (h : task.Imitates tokens next rest result) : task.Imitates tokens w rest result := by
  cases h with
  | exhausted => exact .exhausted
  | nothing turns => exact .nothing (hturns.trans turns)
  | found turns stops => exact .found (hturns.trans turns) stops
  | fails turns stops => exact .fails (hturns.trans turns) stops

theorem Imitates.exists_stop {w : Worklist} {result : Except AttemptFault (Option Tree × Tally)}
    (h : task.Imitates tokens w [] result) (hfuel : result ≠ .error .exhausted) :
    ∃ last, Relation.ReflTransGen (task.Turns tokens) w last ∧
      task.turn tokens last = .stop result := by
  cases h with
  | exhausted => exact absurd rfl hfuel
  | nothing turns => exact ⟨_, turns, rfl⟩
  | found turns stops => exact ⟨_, turns, stops⟩
  | fails turns stops => exact ⟨_, turns, stops⟩

theorem performs_firstTree {visit : Attempt → Search (Option Tree)} {position : Nat}
    (attempts : List Attempt)
    (h : ∀ a ∈ attempts, task.Performs tokens (visit a) [(a, position)]) :
    task.Performs tokens (firstTree visit attempts) (attempts.map (·, position)) := by
  induction attempts with
  | nil => exact fun rest tally => .nothing .refl
  | cons a attempts ih =>
      intro rest tally
      have hfirst := h a (by simp) (attempts.map (·, position) ++ rest) tally
      have hothers := ih fun b hb => h b (by simp [hb])
      rw [firstTree, StateT.run_bind]
      generalize (visit a).run tally = result at hfirst
      cases hfirst with
      | exhausted => exact .exhausted
      | nothing turns => exact (hothers rest _).after turns
      | found turns stops => exact .found turns stops
      | fails turns stops => exact .fails turns stops

theorem run_exploreAt_of_complete {a : Attempt} (hcomplete : a.isComplete = true)
    (token : Option String) (position : Nat) (after : Attempt → Search (Option Tree)) (fuel : Nat)
    (tally : Tally) :
    (task.exploreAt token position after (fuel + 1) a).run tally =
      if token.isNone then
        a.tree.map fun t => (some t, { tally with explored := tally.explored + 1 })
      else .ok (none, { tally with explored := tally.explored + 1 }) := by
  rw [exploreAt, if_pos hcomplete]
  cases token with
  | none => cases a.tree <;> rfl
  | some name => rfl

theorem run_exploreAt_of_not_complete {a : Attempt} (hcomplete : ¬ a.isComplete = true)
    (position : Nat) (after : Attempt → Search (Option Tree)) (fuel : Nat) (tally : Tally) :
    (task.exploreAt tokens[position]? position after (fuel + 1) a).run tally =
      match task.pursue tokens a position with
      | .error fault => .error fault
      | .ok (move, successors) =>
        (if move.consumed = 0 then
          firstTree (task.exploreAt tokens[position]? position after fuel) successors
        else firstTree after successors).run
          { explored := tally.explored + 1
            pruned := tally.pruned + (move.successors.length - successors.length) } := by
  rw [exploreAt, Search.run_modify_bind, if_neg hcomplete, pursue]
  cases hstep : a.step task.grammar task.lengths tokens[position]? position with
  | error fault => rw [Search.run_error_bind rfl]
  | ok move =>
      rw [Search.run_ok_bind rfl]
      dsimp only
      cases task.admitted position move with
      | error fault => rw [Search.run_error_bind rfl]; rfl
      | ok successors => rw [Search.run_ok_bind rfl]; rfl

theorem eq_ok_of_pursue {a : Attempt} {position : Nat} {move : Move} {successors : List Attempt}
    (h : task.pursue tokens a position = .ok (move, successors)) :
    a.step task.grammar task.lengths tokens[position]? position = .ok move ∧
      task.admitted position move = .ok successors := by
  unfold pursue at h
  split at h
  · simp at h
  · rename_i hstep
    obtain ⟨_, hadmitted, heq⟩ := exists_of_map_eq_ok h
    obtain ⟨rfl, rfl⟩ := Prod.mk.inj heq
    exact ⟨hstep, hadmitted⟩

theorem consumed_of_step {a : Attempt} {g : Grammar} {lengths : String → Option Int}
    {token : Option String} {position : Nat} {move : Move}
    (h : a.step g lengths token position = .ok move) :
    move.consumed = 0 ∨ (move.consumed = 1 ∧ (token = none → move.successors = [])) := by
  unfold Attempt.step at h
  split at h
  · simp at h
  · split at h
    · simp at h
    · rename_i name _
      right
      split at h
      · rename_i htoken
        obtain ⟨next, _, rfl⟩ := exists_of_map_eq_ok h
        exact ⟨rfl, by simp [htoken]⟩
      · rw [Except.ok.injEq] at h
        subst h
        exact ⟨rfl, fun _ => rfl⟩
    · left
      obtain ⟨successors, _, rfl⟩ := exists_of_map_eq_ok h
      rfl
    · simp at h

-- The attempts that are taken up next are the same, whether the search calls itself for them
-- or they stand on the list.
theorem performs_exploreAt {after : Attempt → Search (Option Tree)} {position : Nat}
    (hle : position ≤ tokens.length)
    (hafter : tokens[position]? ≠ none → ∀ next,
      task.Performs tokens (after next) [(next, position + 1)])
    (fuel : Nat) (a : Attempt) :
    task.Performs tokens (task.exploreAt tokens[position]? position after fuel a)
      [(a, position)] := by
  induction fuel generalizing a with
  | zero => exact fun rest tally => .exhausted
  | succ fuel ih =>
      intro rest tally
      by_cases hcomplete : a.isComplete = true
      · rw [run_exploreAt_of_complete hcomplete]
        by_cases hend : position = tokens.length
        · have hturn : task.turn tokens { todo := [(a, position)] ++ rest, tally } =
              .stop (a.tree.map fun t => (some t, { tally with explored := tally.explored + 1 })) := by
            simp [turn, hcomplete, hend]
          rw [if_pos (by simp [hend])]
          cases htree : a.tree with
          | error fault => exact .fails .refl (by rw [hturn, htree]; rfl)
          | ok t => exact .found .refl (by rw [hturn, htree]; rfl)
        · rw [if_neg (by simp; omega)]
          exact .nothing (.single (by simp [Turns, turn, hcomplete, hend]))
      · rw [run_exploreAt_of_not_complete hcomplete]
        cases hpursue : task.pursue tokens a position with
        | error fault => exact .fails .refl (by simp [turn, hcomplete, hpursue])
        | ok result =>
            obtain ⟨move, successors⟩ := result
            obtain ⟨hstep, hadmitted⟩ := eq_ok_of_pursue hpursue
            have hturn : task.Turns tokens { todo := [(a, position)] ++ rest, tally } {
                todo := successors.map (·, position + move.consumed) ++ rest
                tally := {
                  explored := tally.explored + 1
                  pruned := tally.pruned + (move.successors.length - successors.length) } } := by
              simp [Turns, turn, hcomplete, hpursue]
            refine Imitates.after (.single hturn) ?_
            dsimp only
            rcases consumed_of_step hstep with hzero | ⟨hone, hnone⟩
            · rw [if_pos hzero, hzero]
              exact performs_firstTree successors (fun b _ => ih b) rest _
            · rw [if_neg (by omega), hone]
              refine performs_firstTree successors (fun b hb => hafter (fun htoken => ?_) b) rest _
              rw [admitted, hnone htoken] at hadmitted
              simp [← Except.ok.inj hadmitted] at hb

theorem performs_explore (rest : List String) {position : Nat} (hle : position ≤ tokens.length)
    (hrest : tokens.drop position = rest) (a : Attempt) :
    task.Performs tokens (task.explore rest position a) [(a, position)] := by
  have htoken : tokens[position]? = rest.head? := by rw [← hrest, List.head?_drop]
  induction rest generalizing position a with
  | nil =>
      rw [explore, ← List.head?_nil, ← htoken]
      exact performs_exploreAt hle (fun hsome => absurd htoken hsome) _ a
  | cons token rest ih =>
      rw [explore, ← List.head?_cons, ← htoken]
      refine performs_exploreAt hle (fun _ next => ?_) _ a
      have hlt : position < tokens.length := by
        rw [← List.drop_eq_nil_iff.not.trans Nat.not_le]
        simp [hrest]
      have hdrop : tokens.drop (position + 1) = rest := by
        rw [← List.drop_drop, hrest]
        rfl
      exact ih hlt hdrop next (by rw [← hdrop, List.head?_drop])

end Imitating

section Following

variable {task : Task} {lengths : Lengths} {input tokens : List String} {position : Nat}
  {a : Attempt} {frames : List Frame}

theorem followers_of_ok (hcomplete : ¬ a.isComplete = true) {move : Move}
    {successors : List Attempt}
    (hstep : a.step task.grammar task.lengths input[position]? position = .ok move)
    (hadmitted : task.admitted position move = .ok successors) :
    task.followers input (a, position) = successors.map (·, position + move.consumed) := by
  simp [followers, pursue, hcomplete, hstep, hadmitted, Except.map]

theorem followers_of_error (hcomplete : ¬ a.isComplete = true) {fault : AttemptFault}
    (hstep : a.step task.grammar task.lengths input[position]? position = .error fault) :
    task.followers input (a, position) = [] := by
  simp [followers, pursue, hcomplete, hstep]

-- What follows an attempt that stands, stands as well. It has one token less before it, or less
-- weight.
theorem Standing.follows (htask : task.Informed lengths)
    (h : task.Standing lengths tokens position a frames) (hinput : input.drop position = tokens)
    {entry : Attempt × Nat} (hentry : task.Follows input (a, position) entry) :
    (∃ next nextFrames, entry = (next, position) ∧
      task.Standing lengths tokens position next nextFrames ∧
      Frame.weight (task.longest + 1) (task.levels position) position nextFrames <
        Frame.weight (task.longest + 1) (task.levels position) position frames) ∨
    ∃ name others next nextFrames, tokens = name :: others ∧ entry = (next, position + 1) ∧
      task.Standing lengths others (position + 1) next nextFrames := by
  have htoken : tokens.head? = input[position]? := by rw [← hinput, List.head?_drop]
  by_cases hcomplete : a.isComplete = true
  · simp [Follows, followers, hcomplete] at hentry
  · obtain ⟨f, outer, s, rest, rfl, hrest⟩ := h.exists_rest hcomplete
    cases s with
    | terminal name =>
        right
        rcases step_terminal h hrest with
          ⟨_, hstep⟩ | ⟨others, next, htokens, hstep, hadmitted, hnext⟩
        · rw [htoken] at hstep
          simp [Follows, followers_of_ok hcomplete hstep rfl] at hentry
        · rw [htoken] at hstep
          rw [Follows, followers_of_ok hcomplete hstep hadmitted] at hentry
          exact ⟨name, others, next, _, htokens, by simpa using hentry, hnext⟩
    | nonterminal name =>
        left
        rcases step_nonterminal htask h hrest input[position]? with
          ⟨hstep, _⟩ | ⟨move, successors, hstep, hadmitted, hconsumed, hcovers⟩
        · simp [Follows, followers_of_error hcomplete hstep] at hentry
        · rw [Follows, followers_of_ok hcomplete hstep hadmitted, hconsumed] at hentry
          obtain ⟨next, hm, rfl⟩ := List.mem_map.mp hentry
          obtain ⟨p, _, hadvances⟩ := hcovers.exists_of_mem next hm
          exact ⟨next, _, rfl, hadvances.standing, hadvances.weight_lt⟩

-- So nothing can be followed by more and more attempts.
theorem Standing.acc (htask : task.Informed lengths) (hinput : input.drop position = tokens)
    (h : task.Standing lengths tokens position a frames) :
    Acc (fun next entry => task.Follows input entry next) (a, position) := by
  generalize hsize : (tokens.length,
    Frame.weight (task.longest + 1) (task.levels position) position frames) = size
  induction size using (Prod.lex Nat.lt_wfRel Nat.lt_wfRel).wf.induction
    generalizing tokens position a frames with
  | _ size ih =>
      constructor
      intro entry hentry
      subst hsize
      rcases h.follows htask hinput hentry with
        ⟨next, nextFrames, rfl, hnext, hlt⟩ | ⟨name, others, next, nextFrames, rfl, rfl, hnext⟩
      · exact ih _ (.right _ hlt) hinput hnext rfl
      · have hothers : input.drop (position + 1) = others := by
          rw [← List.drop_drop, hinput]
          rfl
        exact ih _ (.left _ _ (Nat.lt_succ_self _)) hothers hnext rfl

-- An attempt that is followed by finitely many others at a time, and not without end, is
-- followed by finitely many in all.
theorem finite_of_acc {f : α → List α} {x : α} (h : Acc (fun y x => y ∈ f x) x) :
    {y | Relation.ReflTransGen (fun x y => y ∈ f x) x y}.Finite := by
  induction h with
  | intro x _ ih =>
      have hunion := (List.finite_toSet (f x)).biUnion ih
      refine (hunion.insert x).subset fun y hy => ?_
      rcases Relation.ReflTransGen.cases_head hy with rfl | ⟨z, hz, hzy⟩
      · exact Set.mem_insert _ _
      · exact Set.mem_insert_of_mem _ (Set.mem_biUnion hz hzy)

end Following

-- What is on the list was there at first, or it follows something that was.
def Reaches (task : Task) (tokens : List String) (w : Worklist) (entry : Attempt × Nat) : Prop :=
  ∃ first ∈ w.todo, Relation.ReflTransGen (task.Follows tokens) first entry

theorem finite_reaches {task : Task} {tokens : List String} {w : Worklist}
    (h : ∀ entry ∈ w.todo, Acc (fun next entry => task.Follows tokens entry next) entry) :
    {entry | task.Reaches tokens w entry}.Finite := by
  have hunion := (List.finite_toSet w.todo).biUnion fun entry hm => finite_of_acc (h entry hm)
  exact hunion.subset fun entry ⟨first, hm, hreaches⟩ => Set.mem_biUnion hm hreaches

theorem exists_of_turns {task : Task} {tokens : List String} {w next : Worklist}
    (h : task.Turns tokens w next) :
    ∃ entry rest, w.todo = entry :: rest ∧ ∀ other ∈ next.todo,
      task.Follows tokens entry other ∨ other ∈ rest := by
  obtain ⟨todo, tally⟩ := w
  cases todo with
  | nil => simp [Turns, turn] at h
  | cons entry rest =>
      obtain ⟨a, position⟩ := entry
      refine ⟨_, rest, rfl, ?_⟩
      simp only [Turns, turn] at h
      split at h
      · split at h
        · simp at h
        · obtain rfl := Turn.next.inj h
          exact fun other hm => .inr hm
      · rename_i hcomplete
        split at h
        · simp at h
        · rename_i hpursue
          obtain rfl := Turn.next.inj h
          intro other hm
          rw [Follows, followers_of_ok hcomplete (eq_ok_of_pursue hpursue).1
            (eq_ok_of_pursue hpursue).2]
          exact List.mem_append.mp hm

theorem reaches_of_turns {task : Task} {tokens : List String} {first w : Worklist}
    (h : Relation.ReflTransGen (task.Turns tokens) first w) :
    ∀ entry ∈ w.todo, task.Reaches tokens first entry := by
  induction h with
  | refl => exact fun entry hm => ⟨entry, hm, .refl⟩
  | tail _ hturn ih =>
      obtain ⟨entry, rest, htodo, hall⟩ := exists_of_turns hturn
      rw [htodo] at ih
      intro other hm
      rcases hall other hm with hfollows | hrest
      · obtain ⟨start, hstart, hreaches⟩ := ih entry (by simp)
        exact ⟨start, hstart, hreaches.tail hfollows⟩
      · exact ih other (by simp [hrest])

end Task

namespace Backtracking

theorem search_ne_exhausted (g : Grammar) (tokens : List String) :
    search g tokens ≠ .error .exhausted := by
  intro h
  have hparse : parse g tokens = .error .exhausted := by rw [parse, h]; rfl
  rcases parse_cases g tokens with ⟨r, hr, _⟩ | ⟨hfault, _⟩
  · simp [hparse] at hr
  · simp [hparse] at hfault

section Opening

variable {g : Grammar} {tokens : List String} {task : Task}
  (h : Task.ofGrammar? g tokens.length = some task)

include h

-- The loop stops with what the search answers.
theorem exists_stop :
    ∃ last, Relation.ReflTransGen (task.Turns tokens) task.opening last ∧
      task.turn tokens last = .stop (search g tokens) := by
  have hsearch := search_ne_exhausted g tokens
  obtain ⟨lengths, _, rfl⟩ := Option.map_eq_some_iff.mp h
  simp only [search, h] at hsearch ⊢
  by_cases hstart : (Attempt.initial g lengths.toInt).owed.within tokens.length = true
  · rw [if_pos hstart] at hsearch ⊢
    rw [Task.opening, if_pos hstart]
    exact Task.Imitates.exists_stop
      (Task.performs_explore tokens (Nat.zero_le _) rfl _ [] .initial) hsearch
  · rw [if_neg hstart]
    rw [Task.opening, if_neg hstart]
    exact ⟨_, .refl, rfl⟩

-- The attempt that the loop begins with stands.
theorem exists_standing_of_mem_opening {entry : Attempt × Nat} (hm : entry ∈ task.opening.todo) :
    ∃ lengths frames, Lengths.shortest? g = some lengths ∧ task.grammar = g ∧
      task.lengths = lengths.toInt ∧
      task.Standing lengths (tokens.drop entry.2) entry.2 entry.1 frames := by
  obtain ⟨lengths, hshortest, rfl⟩ := Option.map_eq_some_iff.mp h
  simp only [Task.opening] at hm
  split at hm
  · rename_i hstart
    obtain ⟨n, hn, hle⟩ := within_iff.mp hstart
    rw [List.mem_singleton.mp hm]
    exact ⟨lengths, _, hshortest, rfl, rfl, Task.standing_initial hn hle⟩
  · simp at hm

theorem acc_of_mem_opening (entry : Attempt × Nat) (hm : entry ∈ task.opening.todo) :
    Acc (fun next entry => task.Follows tokens entry next) entry := by
  obtain ⟨lengths, frames, hshortest, rfl, hlengths, hstanding⟩ :=
    exists_standing_of_mem_opening h hm
  exact hstanding.acc ⟨hlengths, Lengths.settled_shortest? hshortest⟩ rfl

end Opening

-- The search is what the loop over the worklist does. The loop comes to an end. What it takes up
-- follows, step by step, the attempt that it begins with, and only finitely many attempts do. If
-- the lengths of the shortest sentences cannot be found, the loop is not begun.
theorem search_terminates (g : Grammar) (tokens : List String) :
    (Task.ofGrammar? g tokens.length = none ∧ search g tokens = .error .tooLarge) ∨
    ∃ task, Task.ofGrammar? g tokens.length = some task ∧
      (∃ last, Relation.ReflTransGen (task.Turns tokens) task.opening last ∧
        task.turn tokens last = .stop (search g tokens)) ∧
      (∀ w, Relation.ReflTransGen (task.Turns tokens) task.opening w →
        ∀ entry ∈ w.todo, task.Reaches tokens task.opening entry) ∧
      {entry | task.Reaches tokens task.opening entry}.Finite := by
  cases htask : Task.ofGrammar? g tokens.length with
  | none => exact .inl ⟨rfl, by rw [search, htask]⟩
  | some task =>
      exact .inr ⟨task, rfl, exists_stop htask, fun w => Task.reaches_of_turns,
        Task.finite_reaches (acc_of_mem_opening htask)⟩

end Backtracking

end ContextFree
