import ContextFree.Backtracking.Search
import ContextFree.Power
import ContextFree.Proofs.Backtracking.Frames

namespace ContextFree

namespace Frame

-- No nonterminal is being expanded inside more expansions of it from the same position than
-- there are tokens from there on.
def Narrow (count : Nat) : List (String × Nat) → Prop
  | [] => True
  | key :: outer => outer.count key + key.2 ≤ count ∧ Narrow count outer

-- How many expansions are in progress that began at the position.
def begun (position : Nat) (keys : List (String × Nat)) : Nat :=
  keys.countP fun key => key.2 = position

theorem Narrow.count_le {count : Nat} {keys : List (String × Nat)} (h : Narrow count keys)
    (name : String) (position : Nat) : keys.count (name, position) ≤ count - position + 1 := by
  induction keys with
  | nil => simp
  | cons key keys ih =>
      rw [List.count_cons]
      split
      · rename_i heq
        obtain rfl := eq_of_beq heq
        have := h.1
        simp only at this
        omega
      · exact ih h.2

theorem countP_le_add {p q r : α → Bool} (h : ∀ a, p a = true → q a = true ∨ r a = true)
    (l : List α) : l.countP p ≤ l.countP q + l.countP r := by
  induction l with
  | nil => simp
  | cons a l ih =>
      have hone : (if p a = true then 1 else 0) ≤
          (if q a = true then 1 else 0) + if r a = true then 1 else 0 := by
        by_cases hp : p a = true
        · rcases h a hp with ha | ha <;> simp [hp, ha]
        · simp [hp]
      simp only [List.countP_cons]
      omega

-- So there is a bound on how many there are.
theorem Narrow.begun_le {count : Nat} {keys : List (String × Nat)} (h : Narrow count keys)
    {names : List String} (hnames : ∀ key ∈ keys, key.1 ∈ names) (position : Nat) :
    begun position keys ≤ names.length * (count - position + 1) := by
  have hall : ∀ others : List String,
      keys.countP (fun key => key.2 = position ∧ key.1 ∈ others) ≤
        others.length * (count - position + 1) := by
    intro others
    induction others with
    | nil => simp
    | cons name others ih =>
        have hsplit : keys.countP (fun key => key.2 = position ∧ key.1 ∈ name :: others) ≤
            keys.count (name, position) +
              keys.countP (fun key => key.2 = position ∧ key.1 ∈ others) := by
          refine countP_le_add (fun key hkey => ?_) keys
          simp only [List.mem_cons, decide_eq_true_eq, beq_iff_eq, Prod.ext_iff] at hkey ⊢
          exact hkey.2.imp (⟨·, hkey.1⟩) (⟨hkey.1, ·⟩)
        have hcount := h.count_le name position
        rw [List.length_cons, Nat.add_mul, Nat.one_mul]
        omega
  have heq : begun position keys = keys.countP fun key => key.2 = position ∧ key.1 ∈ names := by
    refine List.countP_congr fun key hm => ?_
    simp [hnames key hm]
  rw [heq]
  exact hall names

theorem narrow_close {count : Nat} {f : Frame} {outer : List Frame}
    (h : Narrow count (keys (f :: outer))) : Narrow count (keys (close f outer)) := by
  induction outer generalizing f with
  | nil => exact h
  | cons next outer ih =>
      rw [close]
      split
      · refine ih (f := next.add f.tree) ?_
        cases hlabel : f.label with
        | none => simpa [keys, hlabel, add] using h
        | some name =>
            simp only [keys, hlabel] at h
            exact h.2
      · exact h

-- Only what the productions have on the left is expanded.
theorem Proper.key_mem {g : Grammar} {inner : List Symbol} {frames : List Frame}
    (h : Proper g inner frames) : ∀ key ∈ keys frames, key.1 ∈ g.nonterminals := by
  induction h with
  | root => simp [keys]
  | inside mem _ ih =>
      simp only [keys, List.mem_cons, forall_eq_or_imp]
      exact ⟨g.lhs_mem _ mem, ih⟩

-- What the symbols that remain can still spread into. Deeper inside there are fewer levels
-- left.
def weight (base levels position : Nat) : List Frame → Nat
  | [] => 0
  | f :: outer =>
    f.rest.length * Nat.pow base (levels - begun position (keys (f :: outer))) +
      weight base levels position outer

theorem weight_close (base levels position : Nat) (f : Frame) (outer : List Frame) :
    weight base levels position (close f outer) = weight base levels position (f :: outer) := by
  induction outer generalizing f with
  | nil => rfl
  | cons next outer ih =>
      rw [close]
      split
      · rename_i hrest
        rw [ih]
        simp [weight, add, keys, hrest]
      · rfl

-- An expansion takes weight away while there are levels left.
theorem weight_expand_lt {base levels position : Nat} {f : Frame} {outer : List Frame}
    {s : Symbol} {rest rhs : List Symbol} {name : String} (hrest : f.rest = s :: rest)
    (hbase : rhs.length < base)
    (hlevels : begun position ((name, position) :: keys (f :: outer)) ≤ levels) :
    weight base levels position
        ({ label := some name, origin := position, done := [], rest := rhs } ::
          { f with rest } :: outer) <
      weight base levels position (f :: outer) := by
  have hbegun : begun position ((name, position) :: keys (f :: outer)) =
      begun position (keys (f :: outer)) + 1 := by
    simp [begun]
  have hlt := mul_pow_lt rhs.length base (levels - (begun position (keys (f :: outer)) + 1))
    (levels - begun position (keys (f :: outer))) hbase (by omega)
  have hkeys : keys ({ f with rest } :: outer) = keys (f :: outer) := rfl
  simp only [weight]
  simp only [keys] at hbegun hlt hkeys ⊢
  simp only [hbegun, hrest, List.length_cons, Nat.add_mul, Nat.one_mul]
  omega

theorem weight_le (base levels position : Nat) (hbase : 0 < base) (frames : List Frame) :
    weight base levels position frames ≤ (remaining frames).length * Nat.pow base levels := by
  induction frames with
  | nil => exact Nat.zero_le _
  | cons f outer ih =>
      rw [remaining, List.length_append, Nat.add_mul]
      exact Nat.add_le_add
        (Nat.mul_le_mul_left _ (Nat.pow_le_pow_right hbase (Nat.sub_le _ _))) ih

end Frame

namespace Task

theorem length_le_longest {task : Task} {p : Production} (mem : p ∈ task.grammar.productions) :
    p.rhs.length ≤ task.longest := by
  have hmem : p.rhs.length ∈ task.grammar.productions.map (·.rhs.length) :=
    List.mem_map_of_mem (f := (·.rhs.length)) mem
  rw [longest, List.foldl_max]
  exact Nat.le_trans (List.le_max?_getD_of_mem hmem) (Nat.le_max_right ..)

end Task

end ContextFree
