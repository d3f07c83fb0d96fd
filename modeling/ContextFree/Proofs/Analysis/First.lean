import ContextFree.Analysis.First
import ContextFree.Proofs.Analysis.Rounds

namespace ContextFree

-- Every symbol of the production on the right can vanish, so its left side can.
inductive Nullable (g : Grammar) : Symbol → Prop where
  | expand (p : Production) (mem : p ∈ g.productions) (all : ∀ s ∈ p.rhs, Nullable g s) :
      Nullable g (.nonterminal p.lhs)

-- The token can come first in what the symbol derives. The symbols before the one
-- that contributes it vanish.
inductive Begins (g : Grammar) (token : String) : Symbol → Prop where
  | self : Begins g token (.terminal token)
  | expand (p : Production) (mem : p ∈ g.productions) (before after : List Symbol) (first : Symbol)
      (eq : p.rhs = before ++ first :: after) (nullable : ∀ s ∈ before, Nullable g s)
      (begins : Begins g token first) : Begins g token (.nonterminal p.lhs)

-- The same of a sequence of symbols.
def BeginsSequence (g : Grammar) (token : String) (symbols : List Symbol) : Prop :=
  ∃ before first after, symbols = before ++ first :: after ∧
    (∀ s ∈ before, Nullable g s) ∧ Begins g token first

theorem begins_terminal_iff (g : Grammar) (token name : String) :
    Begins g token (.terminal name) ↔ name = token := by
  constructor
  · intro h
    cases h with
    | self => rfl
  · rintro rfl
    exact .self

-- Of a list whose members are passed over until one of them is taken, the first member is taken,
-- or it is passed over and one of the others is taken.
theorem exists_split_cons_iff {Passes Takes : α → Prop} (a : α) (rest : List α) :
    (∃ before first after, a :: rest = before ++ first :: after ∧
        (∀ b ∈ before, Passes b) ∧ Takes first) ↔
      Takes a ∨ Passes a ∧ ∃ before first after, rest = before ++ first :: after ∧
        (∀ b ∈ before, Passes b) ∧ Takes first := by
  constructor
  · rintro ⟨before, first, after, heq, hpasses, htakes⟩
    cases before with
    | nil =>
        obtain ⟨rfl, rfl⟩ := List.cons.inj heq
        exact .inl htakes
    | cons b before =>
        obtain ⟨rfl, rfl⟩ := List.cons.inj heq
        exact .inr ⟨hpasses a (by simp), before, first, after, rfl,
          fun b hb => hpasses b (by simp [hb]), htakes⟩
  · rintro (htakes | ⟨ha, before, first, after, rfl, hpasses, htakes⟩)
    · exact ⟨[], a, rest, rfl, by simp, htakes⟩
    · refine ⟨a :: before, first, after, rfl, ?_, htakes⟩
      simpa only [List.mem_cons, forall_eq_or_imp] using ⟨ha, hpasses⟩

theorem merge_eq_or_length_lt [DecidableEq α] (items others : List α) :
    merge items others = items ∨ items.length < (merge items others).length := by
  obtain ⟨added, h⟩ := exists_merge_eq_append items others
  cases added with
  | nil => exact .inl (by simpa using h)
  | cons a rest =>
      right
      rw [h]
      simp only [List.length_append, List.length_cons]
      omega

namespace FirstSets

-- By the sets, the symbol can derive the empty sequence.
def Vanishes (firsts : FirstSets) : Symbol → Prop
  | .terminal _ => False
  | .nonterminal name => (firsts.of name).nullable = true

-- By the sets, the symbol can begin with the token.
def Starts (firsts : FirstSets) (token : String) : Symbol → Prop
  | .terminal name => name = token
  | .nonterminal name => token ∈ (firsts.of name).terminals

@[simp] theorem vanishes_terminal (firsts : FirstSets) (name : String) :
    ¬ firsts.Vanishes (.terminal name) := nofun

@[simp] theorem vanishes_nonterminal (firsts : FirstSets) (name : String) :
    firsts.Vanishes (.nonterminal name) ↔ (firsts.of name).nullable = true := .rfl

@[simp] theorem starts_terminal (firsts : FirstSets) (token name : String) :
    firsts.Starts token (.terminal name) ↔ name = token := .rfl

@[simp] theorem starts_nonterminal (firsts : FirstSets) (token name : String) :
    firsts.Starts token (.nonterminal name) ↔ token ∈ (firsts.of name).terminals := .rfl

theorem nullable_ofSequence (firsts : FirstSets) (symbols : List Symbol) :
    (firsts.ofSequence symbols).nullable = true ↔ ∀ s ∈ symbols, firsts.Vanishes s := by
  induction symbols with
  | nil => simp [ofSequence]
  | cons s rest ih =>
      cases s with
      | terminal name => simp [ofSequence]
      | nonterminal name =>
          simp only [ofSequence, List.mem_cons, forall_eq_or_imp, vanishes_nonterminal]
          split
          · rename_i hn
            simp [ih, hn]
          · rename_i hn
            simp [hn]

theorem mem_ofSequence (firsts : FirstSets) (symbols : List Symbol) (token : String) :
    token ∈ (firsts.ofSequence symbols).terminals ↔
      ∃ before first after, symbols = before ++ first :: after ∧
        (∀ s ∈ before, firsts.Vanishes s) ∧ firsts.Starts token first := by
  induction symbols with
  | nil => simp [ofSequence]
  | cons s rest ih =>
      rw [exists_split_cons_iff, ← ih]
      cases s with
      | terminal name => simp [ofSequence, eq_comm]
      | nonterminal name =>
          simp only [ofSequence, vanishes_nonterminal, starts_nonterminal]
          split
          · rename_i hn
            simp [mem_merge, hn]
          · rename_i hn
            simp [hn]

-- The sets say exactly what the nonterminals of the grammar can begin with.
structure Exact (g : Grammar) (firsts : FirstSets) : Prop where
  vanishes_iff : ∀ s, firsts.Vanishes s ↔ Nullable g s
  starts_iff : ∀ token s, firsts.Starts token s ↔ Begins g token s

namespace Exact

theorem nullable_iff {g : Grammar} {firsts : FirstSets} (h : Exact g firsts)
    (symbols : List Symbol) :
    (firsts.ofSequence symbols).nullable = true ↔ ∀ s ∈ symbols, Nullable g s := by
  simp only [nullable_ofSequence, h.vanishes_iff]

theorem mem_iff {g : Grammar} {firsts : FirstSets} (h : Exact g firsts) (symbols : List Symbol)
    (token : String) :
    token ∈ (firsts.ofSequence symbols).terminals ↔ BeginsSequence g token symbols := by
  simp only [mem_ofSequence, h.vanishes_iff, h.starts_iff, BeginsSequence]

end Exact

-- One entry for each nonterminal of the grammar, with terminals of the grammar.
structure Proper (g : Grammar) (firsts : FirstSets) : Prop where
  names_eq : firsts.names = g.sortedNonterminals
  nodup : ∀ entry ∈ firsts, entry.2.terminals.Nodup
  subset : ∀ entry ∈ firsts, entry.2.terminals ⊆ g.sortedTerminals

-- No set claims more than the grammar derives.
def Sound (g : Grammar) (firsts : FirstSets) : Prop :=
  (∀ s, firsts.Vanishes s → Nullable g s) ∧ ∀ token s, firsts.Starts token s → Begins g token s

def sizeOfFirst (first : First) : Nat := first.terminals.length + if first.nullable then 1 else 0

-- A nonterminal's set is one of the entries, or says nothing.
theorem of_mem_or (firsts : FirstSets) (name : String) :
    (name, firsts.of name) ∈ firsts ∨ firsts.of name = { terminals := [], nullable := false } :=
  Family.mem_or_getD_eq firsts name _

-- A production adds to the set of its left side, and to no other one.
theorem of_extend_self {firsts : FirstSets} {p : Production} (h : p.lhs ∈ firsts.names) :
    (firsts.extend p).of p.lhs =
      { terminals := merge (firsts.of p.lhs).terminals (firsts.ofSequence p.rhs).terminals
        nullable := (firsts.of p.lhs).nullable || (firsts.ofSequence p.rhs).nullable } :=
  Family.getD_change_self h _ _

theorem of_extend_of_ne {firsts : FirstSets} {p : Production} {name : String} (h : name ≠ p.lhs) :
    (firsts.extend p).of name = firsts.of name := by
  simp [of, extend, Family.value?_change_of_ne firsts p.lhs name _ h]

theorem terminals_ofSequence_subset {g : Grammar} {firsts : FirstSets} (h : Proper g firsts)
    {p : Production} (mem : p ∈ g.productions) :
    (firsts.ofSequence p.rhs).terminals ⊆ g.sortedTerminals := by
  intro token ht
  obtain ⟨before, first, after, heq, _, hs⟩ := (mem_ofSequence firsts p.rhs token).mp ht
  cases first with
  | terminal name =>
      have hd : name ∈ g.terminals :=
        g.declares_of_mem_rhs p mem (.terminal name) (by simp [heq])
      rw [starts_terminal] at hs
      subst hs
      exact (Names.mem_sortedSet _ _).mpr hd
  | nonterminal name =>
      rw [starts_nonterminal] at hs
      rcases firsts.of_mem_or name with hm | hm
      · exact h.subset _ hm hs
      · simp [hm] at hs

theorem extend_widens {g : Grammar} {p : Production} (mem : p ∈ g.productions)
    (firsts : FirstSets) (h : Proper g firsts) :
    Proper g (firsts.extend p) ∧
      (firsts.extend p = firsts ∨
        Family.total sizeOfFirst firsts < Family.total sizeOfFirst (firsts.extend p)) := by
  have hsub := terminals_ofSequence_subset h mem
  constructor
  · refine ⟨by simp [extend, h.names_eq], ?_, ?_⟩
    · intro entry he
      rcases Family.mem_change he with he | ⟨value, hv, rfl⟩
      · exact h.nodup entry he
      · exact nodup_merge _ _ (h.nodup _ hv)
    · intro entry he
      rcases Family.mem_change he with he | ⟨value, hv, rfl⟩
      · exact h.subset entry he
      · intro token ht
        rcases (mem_merge _ _ _).mp ht with ht | ht
        · exact h.subset _ hv ht
        · exact hsub ht
  · apply Family.change_eq_or_total_lt
    rintro ⟨name, old⟩ _
    simp only [sizeOfFirst]
    rcases merge_eq_or_length_lt old.terminals (firsts.ofSequence p.rhs).terminals with hm | hm
    · rw [hm]
      cases hold : old.nullable <;> cases hnew : (firsts.ofSequence p.rhs).nullable <;>
        cases old <;> simp_all
    · right
      cases old.nullable <;> simp <;> omega

theorem round_widens (g : Grammar) (firsts : FirstSets) (h : Proper g firsts) :
    Proper g (round g firsts) ∧
      ((round g firsts = firsts ∧ ∀ p ∈ g.productions, extend firsts p = firsts) ∨
        Family.total sizeOfFirst firsts < Family.total sizeOfFirst (round g firsts)) :=
  foldl_eq_or_size_lt (fun _ mem s hs => extend_widens mem s hs) firsts h

theorem proper_initial (g : Grammar) : Proper g (initial g) := by
  refine ⟨?_, ?_, ?_⟩
  · simp [initial, Family.names, Function.comp_def]
  all_goals
    intro entry he
    obtain ⟨name, _, rfl⟩ := List.mem_map.mp he
    simp

theorem total_le_of_proper {g : Grammar} {firsts : FirstSets} (h : Proper g firsts) :
    Family.total sizeOfFirst firsts ≤
      g.sortedNonterminals.length * (g.sortedTerminals.length + 1) := by
  have hlen : firsts.length = g.sortedNonterminals.length := by
    rw [← h.names_eq, Family.names, List.length_map]
  rw [← hlen]
  apply Family.total_le
  intro entry he
  have hle := (h.nodup entry he).length_le_of_subset (h.subset entry he)
  unfold sizeOfFirst
  split <;> omega

-- The rounds end because nothing is left to add, not because they are used up.
theorem round_ofGrammar (g : Grammar) : round g (ofGrammar g) = ofGrammar g := by
  apply settle_fixed_of_growth (round g) (Proper g) (Family.total sizeOfFirst)
    (g.sortedNonterminals.length * (g.sortedTerminals.length + 1))
  · intro s hs
    exact (round_widens g s hs).1
  · intro s hs
    exact (round_widens g s hs).2.imp_left And.left
  · intro s hs
    exact total_le_of_proper hs
  · exact proper_initial g
  · unfold maxRounds
    omega

theorem proper_ofGrammar (g : Grammar) : Proper g (ofGrammar g) :=
  settle_induct (round g) (Proper g) (fun s hs => (round_widens g s hs).1)
    (maxRounds g) (initial g) (proper_initial g)

-- At the end no production has anything to add.
theorem extend_ofGrammar (g : Grammar) (p : Production) (mem : p ∈ g.productions) :
    (ofGrammar g).extend p = ofGrammar g := by
  rcases (round_widens g _ (proper_ofGrammar g)).2 with ⟨_, hall⟩ | hlt
  · exact hall p mem
  · rw [round_ofGrammar] at hlt
    omega

theorem terminals_subset_of_extend_eq {firsts : FirstSets} {p : Production}
    (mem : p.lhs ∈ firsts.names) (h : firsts.extend p = firsts) :
    (firsts.ofSequence p.rhs).terminals ⊆ (firsts.of p.lhs).terminals ∧
      ((firsts.ofSequence p.rhs).nullable = true → (firsts.of p.lhs).nullable = true) := by
  have hself := of_extend_self mem
  rw [h] at hself
  constructor
  · intro token ht
    rw [hself]
    exact (mem_merge _ _ _).mpr (.inr ht)
  · intro hn
    rw [hself]
    simp [hn]

theorem sound_initial (g : Grammar) : Sound g (initial g) := by
  have hof : ∀ name, of (initial g) name = { terminals := [], nullable := false } := by
    intro name
    rcases of_mem_or (initial g) name with h | h
    · obtain ⟨other, _, heq⟩ := List.mem_map.mp h
      exact (Prod.mk.inj heq).2.symm
    · exact h
  constructor
  · intro s hs
    cases s with
    | terminal name => simp at hs
    | nonterminal name => simp [hof] at hs
  · intro token s hs
    cases s with
    | terminal name => exact (begins_terminal_iff g token name).mpr hs
    | nonterminal name => simp [hof] at hs

theorem sound_extend {g : Grammar} {p : Production} (mem : p ∈ g.productions)
    {firsts : FirstSets} (h : Sound g firsts) : Sound g (firsts.extend p) := by
  by_cases hname : p.lhs ∈ firsts.names
  case neg =>
    rwa [extend, Family.change_of_not_mem _ _ _ hname]
  constructor
  · intro s hs
    cases s with
    | terminal name => simp at hs
    | nonterminal name =>
        by_cases heq : name = p.lhs
        · subst heq
          simp only [vanishes_nonterminal, of_extend_self hname, Bool.or_eq_true] at hs
          rcases hs with hs | hs
          · exact h.1 _ hs
          · exact .expand p mem fun s hm => h.1 s ((nullable_ofSequence firsts p.rhs).mp hs s hm)
        · simp only [vanishes_nonterminal, of_extend_of_ne heq] at hs
          exact h.1 _ hs
  · intro token s hs
    cases s with
    | terminal name => exact (begins_terminal_iff g token name).mpr hs
    | nonterminal name =>
        by_cases heq : name = p.lhs
        · subst heq
          simp only [starts_nonterminal, of_extend_self hname, mem_merge] at hs
          rcases hs with hs | hs
          · exact h.2 token _ hs
          · obtain ⟨before, first, after, heq, hv, hf⟩ := (mem_ofSequence firsts p.rhs token).mp hs
            exact .expand p mem before after first heq (fun s hm => h.1 s (hv s hm))
              (h.2 token first hf)
        · simp only [starts_nonterminal, of_extend_of_ne heq] at hs
          exact h.2 token _ hs

theorem sound_ofGrammar (g : Grammar) : Sound g (ofGrammar g) :=
  settle_induct (round g) (Sound g)
    (fun _ h => foldl_keeps (Sound g) (fun _ mem _ hs => sound_extend mem hs) _ h)
    (maxRounds g) (initial g) (sound_initial g)

-- FIRST is what can come first: derivations through vanishing symbols of any
-- length and in cycles are found, and nothing else is.
theorem exact_ofGrammar (g : Grammar) : Exact g (ofGrammar g) := by
  have hsound := sound_ofGrammar g
  have hclosed : ∀ p ∈ g.productions,
      ((ofGrammar g).ofSequence p.rhs).terminals ⊆ ((ofGrammar g).of p.lhs).terminals ∧
        (((ofGrammar g).ofSequence p.rhs).nullable = true →
          ((ofGrammar g).of p.lhs).nullable = true) := by
    intro p mem
    apply terminals_subset_of_extend_eq _ (extend_ofGrammar g p mem)
    rw [(proper_ofGrammar g).names_eq]
    exact (Names.mem_sortedSet _ _).mpr (g.lhs_mem p mem)
  have hnullable : ∀ s, Nullable g s → (ofGrammar g).Vanishes s := by
    intro s hs
    induction hs with
    | expand p mem _ ih => exact (hclosed p mem).2 ((nullable_ofSequence _ p.rhs).mpr ih)
  refine ⟨fun s => ⟨hsound.1 s, hnullable s⟩, fun token s => ⟨hsound.2 token s, ?_⟩⟩
  intro hs
  induction hs with
  | self => rfl
  | expand p mem before after first heq nullable _ ih =>
      apply (hclosed p mem).1
      exact (mem_ofSequence _ p.rhs token).mpr
        ⟨before, first, after, heq, fun s hm => hnullable s (nullable s hm), ih⟩

end FirstSets

end ContextFree
