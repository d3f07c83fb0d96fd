import ContextFree.Proofs.Derivation.Forms
import ContextFree.Proofs.Derivation.Paths

namespace ContextFree

-- No nonterminal derives itself in one or more steps.
def Grammar.Acyclic (g : Grammar) : Prop :=
  ∀ name, ¬ Relation.TransGen (Rewrites g) [.nonterminal name] [.nonterminal name]

theorem Derives.transGen {g : Grammar} {first next last : List Symbol} (h : Derives g next last)
    (rewrites : Rewrites g first next) : Relation.TransGen (Rewrites g) first last := by
  induction h with
  | refl => exact .single rewrites
  | step _ last ih => exact ih.tail last

section Growing

variable {g : Grammar} {form next : List Symbol}

theorem rewrites_singleton {s : Symbol} (h : Rewrites g [s] next) :
    ∃ p ∈ g.productions, s = .nonterminal p.lhs ∧ next = p.rhs := by
  generalize hform : [s] = form at h
  cases h with
  | replace before after p mem =>
      cases before with
      | nil =>
          obtain ⟨rfl, rfl⟩ := List.cons.inj hform
          exact ⟨p, mem, rfl, by simp⟩
      | cons first rest => simp at hform

theorem length_le_of_rewrites (hg : ∀ p ∈ g.productions, p.rhs ≠ [])
    (h : Relation.ReflTransGen (Rewrites g) form next) : form.length ≤ next.length := by
  induction h with
  | refl => exact Nat.le_refl _
  | tail _ rewrites ih =>
      cases rewrites with
      | replace before after p mem =>
          have hpos := List.length_pos_iff.mpr (hg p mem)
          simp only [List.length_append, List.length_cons] at ih ⊢
          omega

-- If no right-hand side is empty or a single nonterminal, no nonterminal derives itself.
theorem Grammar.acyclic_of_growing
    (hg : ∀ p ∈ g.productions, 2 ≤ p.rhs.length ∨ ∃ name, p.rhs = [.terminal name]) : g.Acyclic := by
  intro name h
  have hne : ∀ p ∈ g.productions, p.rhs ≠ [] := by
    intro p mem hnil
    rcases hg p mem with hlength | ⟨terminal, hrhs⟩
    · simp [hnil] at hlength
    · simp [hnil] at hrhs
  obtain ⟨form, hfirst, hrest⟩ := Relation.TransGen.head'_iff.mp h
  obtain ⟨p, mem, -, rfl⟩ := rewrites_singleton hfirst
  rcases hg p mem with hlength | ⟨terminal, hrhs⟩
  · have := length_le_of_rewrites hne hrest
    simp only [List.length_singleton] at this
    omega
  · rw [hrhs] at hrest
    rcases hrest.cases_head with heq | ⟨next, hnext, -⟩
    · simp at heq
    · obtain ⟨q, -, hq, -⟩ := rewrites_singleton hnext
      simp at hq

end Growing

namespace Tree

-- Between siblings that spell nothing, a child is all that its parent derives.
theorem Valid.transGen_child {g : Grammar} {symbol : String} {left right : List Tree} {t : Tree}
    (h : (Tree.node symbol (left ++ t :: right)).Valid g) (hleft : yieldList left = [])
    (hright : yieldList right = []) :
    Relation.TransGen (Rewrites g) [.nonterminal symbol] [t.root] := by
  obtain ⟨mem, valid⟩ := (valid_node g _ _).mp h
  have hbefore := derives_all fun u hu => valid u (List.mem_append_left _ hu)
  have hafter := derives_all fun u hu => valid u (List.mem_append_right _ (List.mem_cons_of_mem _ hu))
  rw [hleft] at hbefore
  rw [hright] at hafter
  have hrewrites := Rewrites.replace [] [] _ mem
  simp only [List.nil_append, List.append_nil, List.map_append, List.map_cons] at hrewrites
  exact (hbefore.concat ((Derives.refl [t.root]).concat hafter)).transGen hrewrites

-- The spots lie around the span, and if one of them is no wider, its nonterminal derives the
-- symbol.
def Encloses (g : Grammar) (spots : List (String × Nat × Nat)) (first last : Nat) (s : Symbol) :
    Prop :=
  ∀ name origin behind, (name, origin, behind) ∈ spots → origin ≤ first ∧ last ≤ behind ∧
    (origin = first → behind = last → Relation.TransGen (Rewrites g) [.nonterminal name] [s])

theorem Encloses.child {g : Grammar} {spots : List (String × Nat × Nat)} {first : Nat}
    {symbol : String} {left right : List Tree} {t : Tree}
    (hvalid : (Tree.node symbol (left ++ t :: right)).Valid g)
    (h : Encloses g spots first (first + (yieldList (left ++ t :: right)).length)
      (.nonterminal symbol)) :
    Encloses g ((useAt first symbol (left ++ t :: right)).spot :: spots)
      (first + (yieldList left).length) (first + (yieldList left).length + t.yield.length)
      t.root := by
  have hlength : (yieldList (left ++ t :: right)).length =
      (yieldList left).length + t.yield.length + (yieldList right).length := by
    simp only [yieldList_append, yieldList_cons, List.length_append, Nat.add_assoc]
  have hchild : yieldList left = [] → yieldList right = [] →
      Relation.TransGen (Rewrites g) [.nonterminal symbol] [t.root] := hvalid.transGen_child
  rw [← List.length_eq_zero_iff, ← List.length_eq_zero_iff] at hchild
  intro name origin behind hm
  rcases List.mem_cons.mp hm with heq | hm
  · simp only [Use.spot, useAt, Prod.mk.injEq] at heq
    obtain ⟨rfl, rfl, rfl⟩ := heq
    exact ⟨by omega, by omega, fun _ _ => hchild (by omega) (by omega)⟩
  · obtain ⟨horigin, hbehind, hderives⟩ := h name origin behind hm
    refine ⟨by omega, by omega, fun _ _ => ?_⟩
    exact (hderives (by omega) (by omega)).trans (hchild (by omega) (by omega))

-- Where no nonterminal derives itself, none lies inside of itself with the same span.
theorem Valid.avoids_of_acyclic {g : Grammar} (hg : g.Acyclic) {t : Tree} (h : t.Valid g)
    {spots : List (String × Nat × Nat)} {first : Nat}
    (hspots : Encloses g spots first (first + t.yield.length) t.root) :
    t.Avoids Use.spot spots first := by
  induction t generalizing spots first with
  | leaf terminal => trivial
  | node symbol children ih =>
      refine ⟨fun hm => hg symbol ((hspots _ _ _ hm).2.2 rfl rfl), ?_⟩
      -- the children from any of them on, with those in front of it kept in view
      have hall : ∀ right left, children = left ++ right →
          AllAvoid Use.spot ((useAt first symbol children).spot :: spots)
            (first + (yieldList left).length) right := by
        intro right
        induction right with
        | nil => exact fun _ _ => trivial
        | cons t right ihr =>
            intro left hchildren
            refine ⟨?_, ?_⟩
            · subst hchildren
              exact ih t (by simp) (((valid_node g _ _).mp h).2 t (by simp)) (hspots.child h)
            · have := ihr (left ++ [t]) (by simpa using hchildren)
              simpa [Nat.add_assoc] using this
      exact hall children [] rfl

theorem Valid.simple_of_acyclic {g : Grammar} (hg : g.Acyclic) {t : Tree} (h : t.Valid g)
    (first : Nat) : t.Simple first :=
  h.avoids_of_acyclic hg nofun

end Tree

end ContextFree
