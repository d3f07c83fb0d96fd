import ContextFree.Proofs.Derivation.Forms

namespace ContextFree

-- The nonterminal derives the tokens.
def Grammar.Generates (g : Grammar) (name : String) (tokens : List String) : Prop :=
  Derives g [.nonterminal name] (sentence tokens)

-- The symbols spell the tokens one after the other, each nonterminal by one of its texts.
def Spelled (texts : String → List String → Prop) : List Symbol → List String → Prop
  | [], tokens => tokens = []
  | .terminal name :: rest, tokens => ∃ others, tokens = name :: others ∧ Spelled texts rest others
  | .nonterminal name :: rest, tokens =>
    ∃ text others, tokens = text ++ others ∧ texts name text ∧ Spelled texts rest others

section Spelling

variable {texts : String → List String → Prop} {rest : List Symbol} {tokens others : List String}

@[simp] theorem spelled_nil : Spelled texts [] tokens ↔ tokens = [] := .rfl

@[simp] theorem spelled_terminal {name : String} :
    Spelled texts (.terminal name :: rest) tokens ↔
      ∃ others, tokens = name :: others ∧ Spelled texts rest others := .rfl

@[simp] theorem spelled_nonterminal {name : String} :
    Spelled texts (.nonterminal name :: rest) tokens ↔
      ∃ text others, tokens = text ++ others ∧ texts name text ∧ Spelled texts rest others := .rfl

-- What is so of everything that is spelled, symbol by symbol.
theorem forall_spelled_nil {motive : List String → Prop} :
    (∀ tokens, Spelled texts [] tokens → motive tokens) ↔ motive [] := by
  simp

theorem forall_spelled_terminal {name : String} {motive : List String → Prop} :
    (∀ tokens, Spelled texts (.terminal name :: rest) tokens → motive tokens) ↔
      ∀ others, Spelled texts rest others → motive (name :: others) := by
  constructor
  · exact fun h others hothers => h _ ⟨others, rfl, hothers⟩
  · rintro h _ ⟨others, rfl, hothers⟩
    exact h others hothers

theorem forall_spelled_nonterminal {name : String} {motive : List String → Prop} :
    (∀ tokens, Spelled texts (.nonterminal name :: rest) tokens → motive tokens) ↔
      ∀ text, texts name text → ∀ others, Spelled texts rest others → motive (text ++ others) := by
  constructor
  · exact fun h text htext others hothers => h _ ⟨text, others, rfl, htext, hothers⟩
  · rintro h _ ⟨text, others, rfl, htext, hothers⟩
    exact h text htext others hothers

-- A valid tree whose nodes have texts spells one of the texts of its root.
theorem spelled_roots {ts : List Tree}
    (h : ∀ t ∈ ts, ∀ name, t.root = .nonterminal name → texts name t.yield) :
    Spelled texts (ts.map Tree.root) (Tree.yieldList ts) := by
  induction ts with
  | nil => rfl
  | cons t ts ih =>
      have hrest := ih fun u hu => h u (by simp [hu])
      cases t with
      | leaf terminal => exact ⟨_, rfl, hrest⟩
      | node symbol children => exact ⟨_, _, rfl, h _ (by simp) symbol rfl, hrest⟩

end Spelling

section Generating

variable {g : Grammar} {name : String} {form : List Symbol} {tokens : List String}

theorem generates_of_tree {t : Tree} (hvalid : t.Valid g) (hroot : t.root = .nonterminal name) :
    g.Generates name t.yield := by
  have h := hvalid.derives
  rwa [hroot] at h

-- The nonterminal generates the tokens if and only if there is a derivation tree.
theorem exists_derivation_iff :
    (∃ t : Tree, t.Derivation g name tokens) ↔ g.Generates name tokens := by
  constructor
  · rintro ⟨t, hroot, hvalid, rfl⟩
    exact generates_of_tree hvalid hroot
  · intro h
    obtain ⟨ts, hroots, hvalid, rfl⟩ := Tree.derives_sentence_iff.mp h
    obtain ⟨t, rfl, hroot⟩ := List.map_eq_singleton_iff.mp hroots
    exact ⟨t, hroot, hvalid t (by simp), by simp⟩

-- A form derives what its symbols spell one after the other.
theorem derives_iff_spelled : Derives g form (sentence tokens) ↔ Spelled g.Generates form tokens := by
  constructor
  · intro h
    obtain ⟨ts, rfl, hvalid, rfl⟩ := Tree.derives_sentence_iff.mp h
    exact spelled_roots fun t ht name hroot => generates_of_tree (hvalid t ht) hroot
  · intro h
    induction form generalizing tokens with
    | nil =>
        obtain rfl := spelled_nil.mp h
        exact .refl _
    | cons s rest ih =>
        cases s with
        | terminal name =>
            obtain ⟨others, rfl, hrest⟩ := spelled_terminal.mp h
            exact (Derives.refl [.terminal name]).concat (ih hrest)
        | nonterminal name =>
            obtain ⟨text, others, rfl, htext, hrest⟩ := spelled_nonterminal.mp h
            rw [sentence_append]
            exact Derives.concat htext (ih hrest)

-- What a production spells, its left side generates, and it generates nothing else.
theorem generates_iff :
    g.Generates name tokens ↔
      ∃ p ∈ g.productions, p.lhs = name ∧ Spelled g.Generates p.rhs tokens := by
  constructor
  · intro h
    obtain ⟨t, hroot, hvalid, rfl⟩ := exists_derivation_iff.mpr h
    obtain ⟨children, rfl⟩ := Tree.exists_node_of_root hroot
    obtain ⟨mem, hchildren⟩ := (Tree.valid_node g name children).mp hvalid
    refine ⟨_, mem, rfl, ?_⟩
    simpa using derives_iff_spelled.mp (Tree.derives_all hchildren)
  · rintro ⟨p, mem, rfl, h⟩
    exact (Derives.of_production mem).trans (derives_iff_spelled.mpr h)

-- What the productions spell by the texts are texts again.
def Grammar.Closed (g : Grammar) (texts : String → List String → Prop) : Prop :=
  ∀ p ∈ g.productions, ∀ tokens, Spelled texts p.rhs tokens → texts p.lhs tokens

theorem Grammar.closed_generates (g : Grammar) : g.Closed g.Generates :=
  fun p mem _ h => generates_iff.mpr ⟨p, mem, rfl, h⟩

-- The generated texts are the least that are closed in this way.
theorem Grammar.Generates.induct {motive : String → List String → Prop}
    (h : g.Generates name tokens) (closed : g.Closed motive) : motive name tokens := by
  have htree (t : Tree) (hvalid : t.Valid g) :
      ∀ name, t.root = .nonterminal name → motive name t.yield := by
    induction t with
    | leaf terminal => simp
    | node symbol children ih =>
        rintro _ ⟨⟩
        obtain ⟨mem, hchildren⟩ := (Tree.valid_node g _ _).mp hvalid
        exact closed _ mem _ (spelled_roots fun t ht => ih t ht (hchildren t ht))
  obtain ⟨t, hroot, hvalid, rfl⟩ := exists_derivation_iff.mpr h
  exact htree t hvalid name hroot

-- Every nonterminal has a sentence.
def Grammar.Productive (g : Grammar) : Prop :=
  ∀ name ∈ g.nonterminals, ∃ tokens, g.Generates name tokens

-- Then so has every right-hand side.
theorem Grammar.Productive.exists_derives (h : g.Productive) {p : Production}
    (mem : p ∈ g.productions) : ∃ tokens, Derives g p.rhs (sentence tokens) := by
  have hform (form : List Symbol) (hdeclared : ∀ s ∈ form, g.Declares s) :
      ∃ tokens, Spelled g.Generates form tokens := by
    induction form with
    | nil => exact ⟨[], rfl⟩
    | cons s rest ih =>
        obtain ⟨others, hothers⟩ := ih fun t ht => hdeclared t (by simp [ht])
        cases s with
        | terminal name => exact ⟨_, _, rfl, hothers⟩
        | nonterminal name =>
            obtain ⟨text, htext⟩ := h name (hdeclared (.nonterminal name) (by simp))
            exact ⟨_, _, _, rfl, htext, hothers⟩
  obtain ⟨tokens, htokens⟩ := hform p.rhs (g.declares_of_mem_rhs p mem)
  exact ⟨tokens, derives_iff_spelled.mpr htokens⟩

end Generating

end ContextFree
