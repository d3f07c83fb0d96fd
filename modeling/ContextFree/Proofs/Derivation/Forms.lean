import ContextFree.Proofs.Derivation.Trees

namespace ContextFree

-- What holds of the last form of a derivation and is not lost when a right-hand side is taken
-- back to its nonterminal holds of the first form.
theorem Derives.induct_back {g : Grammar} {motive : List Symbol → Prop} {first last : List Symbol}
    (h : Derives g first last) (hlast : motive last)
    (hback : ∀ before after, ∀ p ∈ g.productions, motive (before ++ p.rhs ++ after) →
      motive (before ++ .nonterminal p.lhs :: after)) : motive first := by
  induction h with
  | refl => exact hlast
  | step _ rewrites ih =>
      cases rewrites with
      | replace before after p mem => exact ih (hback before after p mem hlast)

-- Out of declared symbols only declared symbols come.
theorem Derives.declares {g : Grammar} {form last : List Symbol} (h : Derives g form last)
    (hform : ∀ s ∈ form, g.Declares s) : ∀ s ∈ last, g.Declares s := by
  induction h with
  | refl => exact hform
  | step _ rewrites ih =>
      cases rewrites with
      | replace before after p mem =>
          intro s hs
          simp only [List.mem_append] at hs
          rcases hs with (hs | hs) | hs
          · exact ih s (by simp [hs])
          · exact g.declares_of_mem_rhs p mem s hs
          · exact ih s (by simp [hs])

-- Behind what the first symbols of a right-hand side derive stands the next one of them.
theorem Derives.called_inner {g : Grammar} {first after : List Symbol} {front text : List String}
    {p : Production} (mem : p ∈ g.productions)
    (h : Derives g first (sentence front ++ .nonterminal p.lhs :: after)) {dot : Nat}
    {name : String} (symbol : p.rhs[dot]? = some (.nonterminal name))
    (hderives : Derives g (p.rhs.take dot) (sentence text)) :
    ∃ after, Derives g first (sentence (front ++ text) ++ .nonterminal name :: after) := by
  obtain ⟨hlt, hsymbol⟩ := List.getElem?_eq_some_iff.mp symbol
  have hrhs : p.rhs = p.rhs.take dot ++ .nonterminal name :: p.rhs.drop (dot + 1) := by
    rw [← hsymbol, ← List.drop_eq_getElem_cons hlt, List.take_append_drop]
  have hexpand := h.step (.replace _ after p mem)
  rw [hrhs] at hexpand
  have hread := hderives.append (sentence front)
    (.nonterminal name :: p.rhs.drop (dot + 1) ++ after)
  refine ⟨p.rhs.drop (dot + 1) ++ after, ?_⟩
  rw [sentence_append]
  simpa only [List.append_assoc, List.cons_append] using hexpand.trans (by simpa using hread)

namespace Tree

theorem derives_all {g : Grammar} {ts : List Tree} (h : ∀ t ∈ ts, t.Valid g) :
    Derives g (ts.map root) (sentence (yieldList ts)) := by
  induction ts with
  | nil => exact .refl _
  | cons t ts ih =>
      rw [yieldList_cons, sentence_append]
      exact (h t (by simp)).derives.concat (ih fun u hu => h u (by simp [hu]))

theorem exists_leaves (g : Grammar) (tokens : List String) :
    ∃ ts : List Tree, ts.map root = sentence tokens ∧ (∀ t ∈ ts, t.Valid g) ∧
      yieldList ts = tokens := by
  refine ⟨tokens.map .leaf, by simp [sentence, Function.comp_def], by simp, ?_⟩
  induction tokens with
  | nil => rfl
  | cons token tokens ih => simpa using ih

-- A form that derives tokens is the roots of trees that spell them.
theorem derives_sentence_iff {g : Grammar} {form : List Symbol} {tokens : List String} :
    Derives g form (sentence tokens) ↔ ∃ ts : List Tree, ts.map root = form ∧
      (∀ t ∈ ts, t.Valid g) ∧ yieldList ts = tokens := by
  constructor
  · intro h
    refine h.induct_back (motive := fun form => ∃ ts : List Tree, ts.map root = form ∧
      (∀ t ∈ ts, t.Valid g) ∧ yieldList ts = tokens) (exists_leaves g tokens) ?_
    intro before after p mem hts
    obtain ⟨ts, hroots, hvalid, rfl⟩ := hts
    obtain ⟨front, right, rfl, hfront, rfl⟩ := List.map_eq_append_iff.mp hroots
    obtain ⟨left, inner, rfl, rfl, hinner⟩ := List.map_eq_append_iff.mp hfront
    refine ⟨left ++ .node p.lhs inner :: right, by simp, ?_, by simp⟩
    simp only [List.mem_append, List.mem_cons]
    rintro t (ht | rfl | ht)
    · exact hvalid t (by simp [ht])
    · exact (valid_node g _ _).mpr ⟨by rw [hinner]; exact mem, fun u hu => hvalid u (by simp [hu])⟩
    · exact hvalid t (by simp [ht])
  · rintro ⟨ts, rfl, hvalid, rfl⟩
    exact derives_all hvalid

end Tree

-- The form can be derived so far that the nonterminal stands behind these tokens: some symbols
-- from the left are derived, and the next one is the nonterminal or becomes a production that
-- opens in the same way.
inductive Opens (g : Grammar) : List Symbol → List String → String → Prop where
  | here (name : String) (after : List Symbol) : Opens g (.nonterminal name :: after) [] name
  | skip {form : List Symbol} {text : List String} {name : String} {t : Tree} (valid : t.Valid g)
      (opens : Opens g form text name) : Opens g (t.root :: form) (t.yield ++ text) name
  | inside {p : Production} {text : List String} {name : String} (mem : p ∈ g.productions)
      (opens : Opens g p.rhs text name) (after : List Symbol) :
      Opens g (.nonterminal p.lhs :: after) text name

namespace Opens

variable {g : Grammar} {form after : List Symbol} {text : List String} {name : String}

theorem skip_all {ts : List Tree} (hvalid : ∀ t ∈ ts, t.Valid g) (h : Opens g form text name) :
    Opens g (ts.map Tree.root ++ form) (Tree.yieldList ts ++ text) name := by
  induction ts with
  | nil => exact h
  | cons t ts ih =>
      have := ih fun u hu => hvalid u (by simp [hu])
      simpa using this.skip (hvalid t (by simp))

-- What opens in a form of two parts opens in the first one, or behind it.
theorem of_append (h : Opens g (form ++ after) text name) :
    Opens g form text name ∨ ∃ (ts : List Tree) (rest : List String), ts.map Tree.root = form ∧
      (∀ t ∈ ts, t.Valid g) ∧ text = Tree.yieldList ts ++ rest ∧ Opens g after rest name := by
  induction form generalizing text with
  | nil => exact .inr ⟨[], text, rfl, by simp, rfl, h⟩
  | cons s form ih =>
      rw [List.cons_append] at h
      cases h with
      | here name => exact .inl (.here _ _)
      | inside mem opens => exact .inl (.inside mem opens _)
      | @skip _ text _ t valid opens =>
          rcases ih opens with hfirst | ⟨ts, rest, rfl, hvalid, rfl, hafter⟩
          · exact .inl (hfirst.skip valid)
          · refine .inr ⟨t :: ts, rest, rfl, ?_, by simp, hafter⟩
            simpa only [List.mem_cons, forall_eq_or_imp] using ⟨valid, hvalid⟩

theorem back {before : List Symbol} {p : Production} (mem : p ∈ g.productions)
    (h : Opens g (before ++ p.rhs ++ after) text name) :
    Opens g (before ++ .nonterminal p.lhs :: after) text name := by
  rw [List.append_assoc] at h
  induction before generalizing text with
  | nil =>
      rw [List.nil_append] at h ⊢
      rcases of_append h with hinner | ⟨ts, rest, hroots, hvalid, rfl, hafter⟩
      · exact .inside mem hinner after
      · have hnode : (Tree.node p.lhs ts).Valid g :=
          (Tree.valid_node g _ _).mpr ⟨by rw [hroots]; exact mem, hvalid⟩
        exact hafter.skip hnode
  | cons s before ih =>
      rw [List.cons_append] at h
      cases h with
      | here name => exact .here _ _
      | inside mem' opens => exact .inside mem' opens _
      | skip valid opens => exact (ih opens).skip valid

theorem of_derives {rest : List Symbol}
    (h : Derives g form (sentence text ++ .nonterminal name :: rest)) : Opens g form text name := by
  refine h.induct_back (motive := (Opens g · text name)) ?_ fun before after p mem => back mem
  obtain ⟨ts, hroots, hvalid, hyield⟩ := Tree.exists_leaves g text
  have := (here (g := g) name rest).skip_all hvalid
  rwa [hroots, hyield, List.append_nil] at this

end Opens

end ContextFree
