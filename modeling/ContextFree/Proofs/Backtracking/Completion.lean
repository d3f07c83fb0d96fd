import ContextFree.Proofs.Analysis.Shortest
import ContextFree.Proofs.Backtracking.Frames
import ContextFree.Proofs.Derivation.Choices
import Mathlib.Data.List.Nodup

namespace ContextFree

namespace Tree

mutual

-- No node lies inside more nodes of its nonterminal and its position than there are tokens
-- from there on.
def Shallow (count : Nat) (above : List (String × Nat)) (first : Nat) : Tree → Prop
  | .leaf _ => True
  | .node symbol children =>
    above.count (symbol, first) + first ≤ count ∧
      AllShallow count ((symbol, first) :: above) first children

def AllShallow (count : Nat) (above : List (String × Nat)) (first : Nat) : List Tree → Prop
  | [] => True
  | t :: ts => Shallow count above first t ∧ AllShallow count above (first + t.yield.length) ts

end

-- The nodes around a node that share its nonterminal and its position end at different
-- positions behind it.
theorem count_add_le_of_nodup {spots : List (String × Nat × Nat)} (hnodup : spots.Nodup)
    {symbol : String} {first last count : Nat} (hspot : (symbol, first, last) ∉ spots)
    (hlast : last ≤ count) (hspots : ∀ spot ∈ spots, last ≤ spot.2.2 ∧ spot.2.2 ≤ count) :
    (spots.map fun spot => (spot.1, spot.2.1)).count (symbol, first) + last ≤ count := by
  let same := spots.filter fun spot => (spot.1, spot.2.1) == (symbol, first)
  have hcount : (spots.map fun spot => (spot.1, spot.2.1)).count (symbol, first) = same.length := by
    rw [List.count, List.countP_map, List.countP_eq_length_filter]
    rfl
  have hlasts : (same.map (·.2.2)).Nodup := by
    refine List.Nodup.map_on (fun a ha b hb heq => ?_) (hnodup.filter _)
    have ha := (List.mem_filter.mp ha).2
    have hb := (List.mem_filter.mp hb).2
    simp only [beq_iff_eq, Prod.mk.injEq] at ha hb
    exact Prod.ext (ha.1.trans hb.1.symm) (Prod.ext (ha.2.trans hb.2.symm) heq)
  have hsub : same.map (·.2.2) ⊆ List.range' (last + 1) (count - last) := by
    intro l hl
    obtain ⟨⟨name, origin, behind⟩, hsame, rfl⟩ := List.mem_map.mp hl
    obtain ⟨hm, hkey⟩ := List.mem_filter.mp hsame
    simp only [beq_iff_eq, Prod.mk.injEq] at hkey
    obtain ⟨rfl, rfl⟩ := hkey
    obtain ⟨hfrom, hto⟩ := hspots _ hm
    have hne : behind ≠ last := by
      rintro rfl
      exact hspot hm
    rw [List.mem_range'_1]
    simp only at hfrom hto ⊢
    omega
  have hle := hlasts.length_le_of_subset hsub
  simp only [List.length_map, List.length_range'] at hle
  omega

theorem allShallow_of_allAvoid {count : Nat} (ts : List Tree)
    (ih : ∀ t ∈ ts, ∀ (spots : List (String × Nat × Nat)) first, t.Avoids Use.spot spots first →
      spots.Nodup → first + t.yield.length ≤ count →
      (∀ spot ∈ spots, first + t.yield.length ≤ spot.2.2 ∧ spot.2.2 ≤ count) →
      t.Shallow count (spots.map fun spot => (spot.1, spot.2.1)) first)
    {spots : List (String × Nat × Nat)} {first : Nat} (h : AllAvoid Use.spot spots first ts)
    (hnodup : spots.Nodup) (hlast : first + (yieldList ts).length ≤ count)
    (hspots : ∀ spot ∈ spots, first + (yieldList ts).length ≤ spot.2.2 ∧ spot.2.2 ≤ count) :
    AllShallow count (spots.map fun spot => (spot.1, spot.2.1)) first ts := by
  induction ts generalizing first with
  | nil => trivial
  | cons t ts ihr =>
      simp only [yieldList_cons, List.length_append, ← Nat.add_assoc] at hlast hspots
      refine ⟨ih t (by simp) spots first h.1 hnodup (by omega) fun spot hm => ?_,
        ihr (fun u hu => ih u (by simp [hu])) h.2 hlast hspots⟩
      have := hspots spot hm
      omega

theorem Avoids.shallow {count : Nat} {t : Tree} {spots : List (String × Nat × Nat)} {first : Nat}
    (h : t.Avoids Use.spot spots first) (hnodup : spots.Nodup)
    (hlast : first + t.yield.length ≤ count)
    (hspots : ∀ spot ∈ spots, first + t.yield.length ≤ spot.2.2 ∧ spot.2.2 ≤ count) :
    t.Shallow count (spots.map fun spot => (spot.1, spot.2.1)) first := by
  induction t generalizing spots first with
  | leaf terminal => trivial
  | node symbol children ih =>
      simp only [yield_node] at hlast hspots
      refine ⟨?_, ?_⟩
      · have := count_add_le_of_nodup hnodup h.1 hlast hspots
        exact Nat.le_trans (Nat.add_le_add_left (Nat.le_add_right _ _) _) this
      · refine allShallow_of_allAvoid children (fun t ht spots first => ih t ht) h.2
          (List.nodup_cons.mpr ⟨h.1, hnodup⟩) hlast ?_
        simp only [List.mem_cons, forall_eq_or_imp]
        exact ⟨⟨Nat.le_refl _, hlast⟩, hspots⟩

-- Without repeating itself a tree is never deeper than the search looks.
theorem Simple.shallow {t : Tree} (h : t.Simple 0) : t.Shallow t.yield.length [] 0 :=
  Avoids.shallow h List.nodup_nil (by omega) (by simp)

-- The tree is one of those that a search for the tokens can come to.
structure Admissible (g : Grammar) (tokens : List String) (t : Tree) : Prop where
  derivation : t.Derivation g g.start tokens
  shallow : t.Shallow tokens.length [] 0

theorem Derivation.exists_admissible {g : Grammar} {tokens : List String} {t : Tree}
    (h : t.Derivation g g.start tokens) : ∃ u : Tree, u.Admissible g tokens := by
  obtain ⟨u, hu, hsimple⟩ := h.exists_simple
  exact ⟨u, hu, hu.yield_eq ▸ hsimple.shallow⟩

end Tree

namespace Frame

-- The trees stand for all that remains in the frames, and they spell the tokens from the
-- position on.
def Completes (g : Grammar) (count : Nat) :
    List Frame → Nat → List String → List Tree → Prop
  | [], _, tokens, us => tokens = [] ∧ us = []
  | f :: outer, position, tokens, us =>
    ∃ ts vs others, us = ts ++ vs ∧ ts.map Tree.root = f.rest ∧ (∀ t ∈ ts, t.Valid g) ∧
      Tree.AllShallow count (keys (f :: outer)) position ts ∧
      tokens = Tree.yieldList ts ++ others ∧
      Completes g count outer (position + (Tree.yieldList ts).length) others vs

section Completing

variable {g : Grammar} {count : Nat} {f : Frame} {outer : List Frame} {position : Nat}
  {tokens : List String} {us : List Tree}

theorem completes_close :
    Completes g count (close f outer) position tokens us ↔
      Completes g count (f :: outer) position tokens us := by
  induction outer generalizing f with
  | nil => rfl
  | cons next outer ih =>
      rw [close]
      split
      · rename_i hrest
        rw [ih]
        constructor
        · intro h
          exact ⟨[], us, tokens, rfl, by simp [hrest], by simp, trivial, rfl, h⟩
        · rintro ⟨ts, vs, others, rfl, hroots, _, _, rfl, houter⟩
          rw [hrest, List.map_eq_nil_iff] at hroots
          subst hroots
          exact houter
      · rfl

-- The first of the trees is the terminal, which is the next token.
theorem completes_terminal {name : String} {rest : List Symbol}
    (hrest : f.rest = .terminal name :: rest) :
    Completes g count (f :: outer) position tokens us ↔
      ∃ others vs, tokens = name :: others ∧ us = .leaf name :: vs ∧
        Completes g count (matched f outer rest name) (position + 1) others vs := by
  simp only [matched, completes_close]
  constructor
  · rintro ⟨ts, vs, others, rfl, hroots, hvalid, hshallow, rfl, houter⟩
    rw [hrest] at hroots
    obtain ⟨t, ts, rfl, hroot, htail⟩ := List.map_eq_cons_iff.mp hroots
    obtain rfl := Tree.eq_leaf_of_root hroot
    refine ⟨Tree.yieldList ts ++ others, ts ++ vs, rfl, rfl, ts, vs, others, rfl, htail,
      fun t ht => hvalid t (by simp [ht]), hshallow.2, rfl, ?_⟩
    simpa [Nat.add_assoc, Nat.add_comm 1] using houter
  · rintro ⟨_, _, rfl, rfl, ts, vs, others, rfl, hroots, hvalid, hshallow, rfl, houter⟩
    refine ⟨.leaf name :: ts, vs, others, rfl, ?_, ?_, ⟨trivial, hshallow⟩, rfl, ?_⟩
    · rw [hrest, List.map_cons, hroots]
      rfl
    · simpa using hvalid
    · simpa [Nat.add_assoc, Nat.add_comm 1] using houter

-- The trees complete the expansion by the production, and it does not lie too deep.
def CompletesBy (g : Grammar) (count : Nat) (f : Frame) (outer : List Frame) (rest : List Symbol)
    (position : Nat) (tokens : List String) (p : Production) (us : List Tree) : Prop :=
  (keys (f :: outer)).count (p.lhs, position) + position ≤ count ∧
    Completes g count (expanded f outer rest p position) position tokens us

-- The first of the trees is a node for one of the productions of the nonterminal, and its
-- children complete the expansion.
theorem completes_nonterminal {name : String} {rest : List Symbol}
    (hrest : f.rest = .nonterminal name :: rest) :
    Completes g count (f :: outer) position tokens us ↔
      ∃ children vs, us = .node name children :: vs ∧
        { lhs := name, rhs := children.map Tree.root } ∈ g.productionsFor name ∧
        CompletesBy g count f outer rest position tokens
          { lhs := name, rhs := children.map Tree.root } (children ++ vs) := by
  simp only [CompletesBy, expanded, completes_close]
  constructor
  · rintro ⟨ts, vs, others, rfl, hroots, hvalid, hshallow, rfl, houter⟩
    rw [hrest] at hroots
    obtain ⟨t, ts, rfl, hroot, htail⟩ := List.map_eq_cons_iff.mp hroots
    obtain ⟨children, rfl⟩ := Tree.exists_node_of_root hroot
    obtain ⟨mem, valid⟩ := (Tree.valid_node g name children).mp (hvalid _ (by simp))
    refine ⟨children, ts ++ vs, rfl, (g.mem_productionsFor name _).mpr ⟨mem, rfl⟩, hshallow.1.1,
      children, ts ++ vs, Tree.yieldList ts ++ others, rfl, rfl, valid, hshallow.1.2, by simp, ts, vs,
      others, rfl, htail, fun t ht => hvalid t (by simp [ht]), hshallow.2, rfl, ?_⟩
    simpa [Nat.add_assoc] using houter
  · rintro ⟨children, _, rfl, mem, hdepth, ds, _, _, heq, hds, hdvalid, hdshallow, rfl, ts, vs, others,
      rfl, hroots, hvalid, hshallow, rfl, houter⟩
    -- the children are as many as the symbols of the right-hand side
    have hlength : ds.length = children.length := by simpa using congrArg List.length hds
    obtain ⟨rfl, rfl⟩ := List.append_inj heq hlength.symm
    refine ⟨.node name children :: ts, vs, others, rfl, ?_, ?_, ⟨⟨hdepth, hdshallow⟩, hshallow⟩,
      by simp, ?_⟩
    · rw [hrest, List.map_cons, hroots]
      rfl
    · simp only [List.mem_cons, forall_eq_or_imp]
      refine ⟨(Tree.valid_node g _ _).mpr ⟨((g.mem_productionsFor _ _).mp mem).1, hdvalid⟩, hvalid⟩
    · simpa [Nat.add_assoc] using houter

-- The tokens are no fewer than what the lengths of the symbols come to.
theorem Completes.sum?_le {lengths : Lengths} (hsettled : lengths.Settled g) {frames : List Frame}
    (h : Completes g count frames position tokens us) :
    ∃ n, lengths.sum? (remaining frames) = some n ∧ n ≤ tokens.length := by
  induction frames generalizing position tokens us with
  | nil => exact ⟨0, rfl, Nat.zero_le _⟩
  | cons f outer ih =>
      obtain ⟨ts, vs, others, _, hroots, hvalid, _, rfl, houter⟩ := h
      obtain ⟨a, ha, hale⟩ := Lengths.Settled.sum?_le ts (fun t _ => hsettled.size?_le) hvalid
      obtain ⟨b, hb, hble⟩ := ih houter
      refine ⟨a + b, Lengths.sum?_append_eq_some.mpr ⟨a, b, hroots ▸ ha, hb, rfl⟩, ?_⟩
      rw [List.length_append]
      omega

theorem completes_root_iff :
    Completes g tokens.length
        [{ label := none, origin := 0, done := [], rest := [.nonterminal g.start] }] 0 tokens us ↔
      ∃ t : Tree, us = [t] ∧ t.Admissible g tokens := by
  constructor
  · rintro ⟨ts, _, _, rfl, hroots, hvalid, hshallow, rfl, rfl, rfl⟩
    obtain ⟨t, rfl, hroot⟩ := List.map_eq_singleton_iff.mp hroots
    exact ⟨t, by simp, ⟨hroot, hvalid t (by simp), by simp⟩, hshallow.1⟩
  · rintro ⟨t, rfl, ht, hshallow⟩
    exact ⟨[t], [], [], rfl, by simp [ht.root_eq], by simpa using ht.valid, ⟨hshallow, trivial⟩,
      by simp [ht.yield_eq], rfl, rfl⟩

end Completing

-- The tree is made of those trees that come first, in the order of their choices, among all
-- that are possible. If none is made, none are possible.
def Best (g : Grammar) (possible : List Tree → Prop) (whole : List Tree → List Tree) :
    Option Tree → Prop
  | none => ∀ us, ¬ possible us
  | some t => ∃ us, possible us ∧ whole us = [.node "" [t]] ∧
    ∀ vs, possible vs → Tree.choicesList g us ≤ Tree.choicesList g vs

def BestBy (g : Grammar) (count : Nat) (f : Frame) (outer : List Frame) (rest : List Symbol)
    (position : Nat) (tokens : List String) (p : Production) : Option Tree → Prop :=
  Best g (CompletesBy g count f outer rest position tokens p)
    (plug (expanded f outer rest p position) [])

-- The tree is the best for the first of the alternatives for which there is one.
def First (best : α → Option Tree → Prop) (alternatives : List α) : Option Tree → Prop
  | none => ∀ a ∈ alternatives, best a none
  | some t => ∃ before a after, alternatives = before ++ a :: after ∧
    (∀ b ∈ before, best b none) ∧ best a (some t)

section Choosing

variable {g : Grammar} {count : Nat} {f : Frame} {outer : List Frame} {position : Nat}
  {rest : List Symbol} {name : String} {r : Option Tree}

theorem Best.congr {possible others : List Tree → Prop} {whole : List Tree → List Tree}
    (h : Best g possible whole r) (hiff : ∀ us, possible us ↔ others us) :
    Best g others whole r := by
  obtain rfl : possible = others := funext fun us => propext (hiff us)
  exact h

theorem First.cons {best : α → Option Tree → Prop} {a : α} {as : List α} (hnone : best a none)
    (h : First best as r) : First best (a :: as) r := by
  cases r with
  | none => simpa only [First, List.mem_cons, forall_eq_or_imp] using ⟨hnone, h⟩
  | some t =>
      obtain ⟨before, b, after, rfl, hbefore, hb⟩ := h
      refine ⟨a :: before, b, after, rfl, ?_, hb⟩
      simpa only [List.mem_cons, forall_eq_or_imp] using ⟨hnone, hbefore⟩

theorem Best.terminal {others : List String} (hrest : f.rest = .terminal name :: rest)
    (h : Best g (Completes g count (matched f outer rest name) (position + 1) others)
      (plug (matched f outer rest name) []) r) :
    Best g (Completes g count (f :: outer) position (name :: others)) (plug (f :: outer) []) r := by
  cases r with
  | none =>
      intro us hus
      obtain ⟨_, vs, heq, _, hvs⟩ := (completes_terminal hrest).mp hus
      obtain rfl := (List.cons.inj heq).2
      exact h vs hvs
  | some t =>
      obtain ⟨us, hus, hwhole, hleast⟩ := h
      refine ⟨.leaf name :: us, (completes_terminal hrest).mpr ⟨others, us, rfl, rfl, hus⟩, ?_,
        fun ws hws => ?_⟩
      · rw [← plug_matched hrest, hwhole]
      · obtain ⟨_, vs, heq, rfl, hvs⟩ := (completes_terminal hrest).mp hws
        obtain rfl := (List.cons.inj heq).2
        simpa using hleast vs hvs

-- Of two productions the first one gives the tree that comes first. With the same production
-- it is decided further on.
theorem Best.nonterminal {tokens : List String} (hrest : f.rest = .nonterminal name :: rest)
    (h : First (BestBy g count f outer rest position tokens) (g.productionsFor name) r) :
    Best g (Completes g count (f :: outer) position tokens) (plug (f :: outer) []) r := by
  cases r with
  | none =>
      intro us hus
      obtain ⟨children, vs, _, mem, hcompletes⟩ := (completes_nonterminal hrest).mp hus
      exact h _ mem _ hcompletes
  | some t =>
      obtain ⟨before, ⟨lhs, rhs⟩, after, hps, hbefore, us, hus, hwhole, hleast⟩ := h
      have mem : { lhs, rhs } ∈ g.productionsFor name := by simp [hps]
      obtain rfl := ((g.mem_productionsFor name _).mp mem).2
      obtain ⟨children, vs, rfl, rfl⟩ : ∃ children vs, us = children ++ vs ∧
          rhs = children.map Tree.root := by
        obtain ⟨children, vs, _, heq, hroots, _⟩ := completes_close.mp hus.2
        exact ⟨children, vs, heq, hroots.symm⟩
      refine ⟨.node lhs children :: vs, (completes_nonterminal hrest).mpr ⟨children, vs, rfl, mem, hus⟩,
        ?_, fun ws hws => ?_⟩
      · rw [← plug_expanded hrest, hwhole]
      · obtain ⟨ds, ws, rfl, _, hds⟩ := (completes_nonterminal hrest).mp hws
        have hp : { lhs, rhs := children.map Tree.root } ∉ before := fun hm => hbefore _ hm _ hus
        have hq : { lhs, rhs := ds.map Tree.root } ∉ before := fun hm => hbefore _ hm _ hds
        simp only [Tree.choicesList_cons, Tree.choices_node, List.cons_append, cons_le_choices_iff]
        by_cases hsame : children.map Tree.root = ds.map Tree.root
        · right
          rw [← hsame] at hds ⊢
          simpa using hleast _ hds
        · left
          rw [hps]
          exact idxOf_lt_of_notMem hp hq (by simpa using hsame)

end Choosing

end Frame

end ContextFree
