import ContextFree.Proofs.Derivation.Paths
import Mathlib.Logic.Relation

namespace ContextFree

namespace Tree

-- The tree `u` stands somewhere below the top of the other one, behind so many of its tokens.
inductive Inside (u : Tree) : Nat → Tree → Prop where
  | child (symbol : String) (before after : List Tree) :
      Inside u (yieldList before).length (.node symbol (before ++ u :: after))
  | deeper (symbol : String) (before after : List Tree) {behind : Nat} {t : Tree}
      (inside : Inside u behind t) :
      Inside u ((yieldList before).length + behind) (.node symbol (before ++ t :: after))

-- One loop is cut out of the tree: a node gives way to a node below it that applies the same
-- production to the same tokens.
inductive Cut : Tree → Tree → Prop where
  | here {symbol other : String} {outer inner : List Tree} {behind : Nat}
      (inside : Inside (.node other inner) behind (.node symbol outer))
      (same : useAt behind other inner = useAt 0 symbol outer) :
      Cut (.node symbol outer) (.node other inner)
  | deeper (symbol : String) (before after : List Tree) {t u : Tree} (cut : Cut t u) :
      Cut (.node symbol (before ++ t :: after)) (.node symbol (before ++ u :: after))

theorem useAt_eq_iff {behind first : Nat} {symbol other : String} {outer inner : List Tree} :
    useAt (first + behind) other inner = useAt first symbol outer ↔
      useAt behind other inner = useAt 0 symbol outer := by
  simp only [useAt, Use.mk.injEq]
  refine and_congr_right fun _ => ?_
  omega

namespace Inside

variable {g : Grammar} {t u : Tree} {behind : Nat}

theorem size_lt (h : Inside u behind t) : u.size < t.size := by
  induction h with
  | child symbol before after =>
      simp only [size, sizeList_append, sizeList]
      omega
  | deeper symbol before after _ ih =>
      simp only [size, sizeList_append, sizeList]
      omega

theorem valid (h : Inside u behind t) (ht : t.Valid g) : u.Valid g := by
  induction h with
  | child symbol before after => exact ((valid_node g _ _).mp ht).2 u (by simp)
  | deeper symbol before after _ ih => exact ih (((valid_node g _ _).mp ht).2 _ (by simp))

theorem yield_eq (h : Inside u behind t) :
    ∃ front rest, t.yield = front ++ u.yield ++ rest ∧ front.length = behind := by
  induction h with
  | child symbol before after => exact ⟨yieldList before, yieldList after, by simp, rfl⟩
  | deeper symbol before after _ ih =>
      obtain ⟨front, rest, hyield, rfl⟩ := ih
      exact ⟨yieldList before ++ front, rest ++ yieldList after, by simp [hyield], by simp⟩

end Inside

namespace Cut

variable {g : Grammar} {t u : Tree}

theorem size_lt (h : Cut t u) : u.size < t.size := by
  induction h with
  | here inside _ => exact inside.size_lt
  | deeper symbol before after _ ih =>
      simp only [size, sizeList_append, sizeList]
      omega

theorem root_eq (h : Cut t u) : u.root = t.root := by
  cases h with
  | here _ same => exact congrArg (Symbol.nonterminal ·.production.lhs) same
  | deeper => rfl

-- The node below spells as much as the node above, so there is nothing around it.
theorem yield_eq (h : Cut t u) : u.yield = t.yield := by
  induction h with
  | @here symbol other outer inner behind inside same =>
      obtain ⟨front, rest, hyield, hfront⟩ := inside.yield_eq
      have hfirst := congrArg Use.first same
      have hlast := congrArg Use.last same
      have hlength := congrArg List.length hyield
      simp only [useAt, yield_node, List.length_append] at hfirst hlast hlength
      obtain rfl := List.length_eq_zero_iff.mp (show front.length = 0 by omega)
      obtain rfl := List.length_eq_zero_iff.mp (show rest.length = 0 by omega)
      simpa using hyield.symm
  | deeper symbol before after _ ih => simp [ih]

theorem valid (h : Cut t u) (ht : t.Valid g) : u.Valid g := by
  induction h with
  | here inside _ => exact inside.valid ht
  | deeper symbol before after cut ih =>
      obtain ⟨mem, valid⟩ := (valid_node g _ _).mp ht
      refine (valid_node g _ _).mpr ⟨by simpa [cut.root_eq] using mem, fun v hv => ?_⟩
      simp only [List.mem_append, List.mem_cons] at hv
      rcases hv with hv | rfl | hv
      · exact valid v (by simp [hv])
      · exact ih (valid _ (by simp))
      · exact valid v (by simp [hv])

theorem derivation {symbol : String} {tokens : List String} (h : Cut t u)
    (ht : t.Derivation g symbol tokens) : u.Derivation g symbol tokens :=
  ⟨h.root_eq.trans ht.root_eq, h.valid ht.valid, h.yield_eq.trans ht.yield_eq⟩

end Cut

-- The production is applied to these tokens at the top of the tree, which begins at the position
-- `first`, or at a node inside it.
def Applies (use : Use) (first : Nat) (t : Tree) : Prop :=
  ∃ symbol children,
    t = .node symbol children ∧ useAt first symbol children = use ∨
    ∃ behind, Inside (.node symbol children) behind t ∧ useAt (first + behind) symbol children = use

theorem Applies.inside {use : Use} {first : Nat} {t : Tree} {before : List Tree}
    (h : t.Applies use (first + (yieldList before).length)) (symbol : String) (after : List Tree) :
    ∃ other children behind, Inside (.node other children) behind (.node symbol (before ++ t :: after)) ∧
      useAt (first + behind) other children = use := by
  obtain ⟨other, children, ⟨rfl, huse⟩ | ⟨behind, hinside, huse⟩⟩ := h
  · exact ⟨other, children, _, .child symbol before after, huse⟩
  · refine ⟨other, children, _, .deeper symbol before after hinside, ?_⟩
    rwa [← Nat.add_assoc]

theorem allAvoid_or_exists {Found : List Use → Nat → Tree → Prop} (ts : List Tree)
    (h : ∀ t ∈ ts, ∀ above first, t.Avoids id above first ∨ Found above first t)
    (above : List Use) (first : Nat) :
    AllAvoid id above first ts ∨ ∃ before t after, ts = before ++ t :: after ∧
      Found above (first + (yieldList before).length) t := by
  induction ts generalizing first with
  | nil => exact .inl trivial
  | cons t ts ih =>
      rcases h t (by simp) above first with ht | ht
      · rcases ih (fun u hu => h u (by simp [hu])) (first + t.yield.length) with
          hts | ⟨before, u, after, rfl, hu⟩
        · exact .inl ⟨ht, hts⟩
        · refine .inr ⟨t :: before, u, after, rfl, ?_⟩
          rwa [yieldList_cons, List.length_append, ← Nat.add_assoc]
      · exact .inr ⟨[], t, ts, rfl, ht⟩

-- Where a use is repeated on a path there is something to cut out, or the repetition begins
-- above the tree.
theorem avoids_or_cut (t : Tree) (above : List Use) (first : Nat) :
    t.Avoids id above first ∨ (∃ u, Cut t u) ∨ ∃ use ∈ above, t.Applies use first := by
  induction t generalizing above first with
  | leaf terminal => exact .inl trivial
  | node symbol children ih =>
      by_cases htop : useAt first symbol children ∈ above
      · exact .inr (.inr ⟨_, htop, symbol, children, .inl ⟨rfl, rfl⟩⟩)
      · rcases allAvoid_or_exists children ih (useAt first symbol children :: above) first with
          hall | ⟨before, t, after, rfl, ⟨u, hcut⟩ | ⟨use, hm, happlies⟩⟩
        · exact .inl ⟨htop, hall⟩
        · exact .inr (.inl ⟨_, .deeper symbol before after hcut⟩)
        · obtain ⟨other, inner, behind, hinside, huse⟩ := happlies.inside symbol after
          rcases List.mem_cons.mp hm with rfl | hm
          · exact .inr (.inl ⟨_, .here hinside (useAt_eq_iff.mp huse)⟩)
          · exact .inr (.inr ⟨use, hm, other, inner, .inr ⟨behind, hinside, huse⟩⟩)

theorem avoids_id_iff {t : Tree} {first : Nat} :
    t.Avoids id [] first ↔ ∀ path ∈ t.paths first, path.Nodup := by
  simp [avoids_iff]

-- Cutting out loops ends, and then no use is repeated on a path.
theorem exists_cuts (t : Tree) :
    ∃ u, Relation.ReflTransGen Cut t u ∧ ∀ path ∈ u.paths 0, path.Nodup := by
  rcases avoids_or_cut t [] 0 with h | ⟨u, hcut⟩ | ⟨_, hm, _⟩
  · exact ⟨t, .refl, avoids_id_iff.mp h⟩
  · have := hcut.size_lt
    obtain ⟨v, hcuts, hnodup⟩ := exists_cuts u
    exact ⟨v, .head hcut hcuts, hnodup⟩
  · simp at hm
termination_by t.size

theorem Derivation.cuts {g : Grammar} {symbol : String} {tokens : List String} {t u : Tree}
    (h : t.Derivation g symbol tokens) (hcuts : Relation.ReflTransGen Cut t u) :
    u.Derivation g symbol tokens := by
  induction hcuts with
  | refl => exact h
  | tail _ hcut ih => exact hcut.derivation ih

end Tree

end ContextFree
