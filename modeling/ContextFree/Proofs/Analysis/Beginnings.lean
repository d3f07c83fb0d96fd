import ContextFree.Proofs.Analysis.First
import ContextFree.Proofs.Derivation.Forms

namespace ContextFree

section Beginning

variable {g : Grammar} {token : String} {form others : List Symbol}

theorem beginsSequence_cons {s : Symbol} :
    BeginsSequence g token (s :: form) ↔
      Begins g token s ∨ Nullable g s ∧ BeginsSequence g token form :=
  exists_split_cons_iff s form

theorem beginsSequence_append :
    BeginsSequence g token (form ++ others) ↔
      BeginsSequence g token form ∨
        (∀ s ∈ form, Nullable g s) ∧ BeginsSequence g token others := by
  induction form with
  | nil => simp [BeginsSequence]
  | cons s form ih =>
      rw [List.cons_append, beginsSequence_cons, beginsSequence_cons, ih]
      simp only [List.mem_cons, forall_eq_or_imp, and_or_left, or_assoc, and_assoc]

-- Symbols that can each be derived away can be derived away together.
theorem Derives.nil_of_forall (h : ∀ s ∈ form, Derives g [s] []) : Derives g form [] := by
  induction form with
  | nil => exact .refl _
  | cons s form ih => exact (h s (by simp)).concat (ih fun t ht => h t (by simp [ht]))

theorem Nullable.derives {s : Symbol} (h : Nullable g s) : Derives g [s] [] := by
  induction h with
  | expand p mem _ ih => exact (Derives.of_production mem).trans (.nil_of_forall ih)

-- A form derives the empty sequence if and only if all of its symbols can vanish.
theorem derives_nil_iff : Derives g form [] ↔ ∀ s ∈ form, Nullable g s := by
  constructor
  · intro h
    refine h.induct_back (motive := fun form => ∀ s ∈ form, Nullable g s) (by simp) ?_
    intro before after p mem hall s hs
    rcases List.mem_append.mp hs with hs | hs
    · exact hall s (by simp [hs])
    · rcases List.mem_cons.mp hs with rfl | hs
      · exact .expand p mem fun t ht => hall t (by simp [ht])
      · exact hall s (by simp [hs])
  · exact fun h => .nil_of_forall fun s hs => (h s hs).derives

-- Behind symbols that vanish, what begins the next symbol begins the form.
theorem derives_behind {before after rest : List Symbol} {first : Symbol}
    (hnull : ∀ s ∈ before, Nullable g s) (h : Derives g [first] (.terminal token :: rest)) :
    Derives g (before ++ first :: after) (.terminal token :: (rest ++ after)) := by
  have hfirst : Derives g (first :: after) (.terminal token :: (rest ++ after)) :=
    h.append [] after
  exact (derives_nil_iff.mpr hnull).concat hfirst

theorem Begins.derives {s : Symbol} (h : Begins g token s) :
    ∃ rest, Derives g [s] (.terminal token :: rest) := by
  induction h with
  | self => exact ⟨[], .refl _⟩
  | expand p mem before after first heq hnull _ ih =>
      obtain ⟨rest, hrest⟩ := ih
      have hbody : Derives g p.rhs (.terminal token :: (rest ++ after)) :=
        heq ▸ derives_behind hnull hrest
      exact ⟨rest ++ after, (Derives.of_production mem).trans hbody⟩

-- A token can come first in a form if and only if the form derives one that begins with it.
theorem beginsSequence_iff :
    BeginsSequence g token form ↔ ∃ rest, Derives g form (.terminal token :: rest) := by
  constructor
  · rintro ⟨before, first, after, rfl, hnull, hbegins⟩
    obtain ⟨rest, hrest⟩ := hbegins.derives
    exact ⟨rest ++ after, derives_behind hnull hrest⟩
  · rintro ⟨rest, h⟩
    refine h.induct_back (motive := BeginsSequence g token) (beginsSequence_cons.mpr (.inl .self)) ?_
    -- what the right-hand side begins with, and that it vanishes, passes to its left side
    intro before after p mem hbegins
    rw [List.append_assoc, beginsSequence_append, beginsSequence_append] at hbegins
    rw [beginsSequence_append, beginsSequence_cons]
    refine hbegins.imp_right fun ⟨hbefore, hbody⟩ => ⟨hbefore, ?_⟩
    rcases hbody with ⟨left, first, right, heq, hleft, hfirst⟩ | ⟨hnull, hafter⟩
    · exact .inl (.expand p mem left right first heq hleft hfirst)
    · exact .inr ⟨.expand p mem hnull, hafter⟩

end Beginning

namespace Tree

variable {g : Grammar} {ts : List Tree}

theorem nullable_all (hvalid : ∀ t ∈ ts, t.Valid g) (hyield : yieldList ts = []) :
    ∀ s ∈ ts.map root, Nullable g s := by
  have hd := derives_all hvalid
  rw [hyield] at hd
  exact derives_nil_iff.mp hd

theorem beginsSequence_of_yieldList (hvalid : ∀ t ∈ ts, t.Valid g) {token : String}
    {rest : List String} (hyield : yieldList ts = token :: rest) :
    BeginsSequence g token (ts.map root) := by
  have hd := derives_all hvalid
  rw [hyield] at hd
  exact beginsSequence_iff.mpr ⟨sentence rest, hd⟩

end Tree

namespace FirstSets

theorem mem_ofSequence_iff_derives (g : Grammar) (symbols : List Symbol) (token : String) :
    token ∈ ((ofGrammar g).ofSequence symbols).terminals ↔
      ∃ rest, Derives g symbols (.terminal token :: rest) := by
  rw [(exact_ofGrammar g).mem_iff, beginsSequence_iff]

theorem nullable_ofSequence_iff_derives (g : Grammar) (symbols : List Symbol) :
    ((ofGrammar g).ofSequence symbols).nullable = true ↔ Derives g symbols [] := by
  rw [(exact_ofGrammar g).nullable_iff, derives_nil_iff]

-- A nonterminal alone begins with what its set holds.
theorem ofSequence_singleton (firsts : FirstSets) (name : String) :
    (∀ token, token ∈ (firsts.ofSequence [.nonterminal name]).terminals ↔
      token ∈ (firsts.of name).terminals) ∧
    (firsts.ofSequence [.nonterminal name]).nullable = (firsts.of name).nullable := by
  simp only [ofSequence]
  split
  · rename_i hn
    simp [mem_merge, hn]
  · simp

-- FIRST is what derivations of any length begin with, and whether one of them ends in nothing:
-- for every nonterminal, and for every sequence of symbols that is put together from the sets.
theorem ofGrammar_iff_derives (g : Grammar) :
    (∀ name,
      (∀ token, token ∈ ((ofGrammar g).of name).terminals ↔
        ∃ rest, Derives g [.nonterminal name] (.terminal token :: rest)) ∧
      (((ofGrammar g).of name).nullable = true ↔ Derives g [.nonterminal name] [])) ∧
    ∀ symbols,
      (∀ token, token ∈ ((ofGrammar g).ofSequence symbols).terminals ↔
        ∃ rest, Derives g symbols (.terminal token :: rest)) ∧
      (((ofGrammar g).ofSequence symbols).nullable = true ↔ Derives g symbols []) := by
  refine ⟨fun name => ?_, fun symbols => ⟨mem_ofSequence_iff_derives g symbols,
    nullable_ofSequence_iff_derives g symbols⟩⟩
  obtain ⟨hmem, hnull⟩ := ofSequence_singleton (ofGrammar g) name
  refine ⟨fun token => ?_, ?_⟩
  · rw [← hmem, mem_ofSequence_iff_derives]
  · rw [← hnull, nullable_ofSequence_iff_derives]

end FirstSets

end ContextFree
