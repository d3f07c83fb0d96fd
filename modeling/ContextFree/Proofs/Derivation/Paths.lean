import ContextFree.Proofs.Derivation.Trees

namespace ContextFree

-- A production that is applied to the tokens between two positions.
structure Use where
  production : Production
  first : Nat
  last : Nat
deriving DecidableEq

-- The nonterminal and the span, whatever the production.
def Use.spot (u : Use) : String × Nat × Nat := (u.production.lhs, u.first, u.last)

namespace Tree

-- The use at the top of a node that begins at the position `first`.
def useAt (first : Nat) (symbol : String) (children : List Tree) : Use where
  production := { lhs := symbol, rhs := children.map root }
  first := first
  last := first + (yieldList children).length

mutual

-- The uses on each path from the root down to a leaf or to a node without children.
def paths (first : Nat) : Tree → List (List Use)
  | .leaf _ => [[]]
  | .node symbol children =>
    (if children.isEmpty then [[]] else pathsList first children).map
      (useAt first symbol children :: ·)

def pathsList (first : Nat) : List Tree → List (List Use)
  | [] => []
  | t :: ts => paths first t ++ pathsList (first + t.yield.length) ts

end

mutual

-- On no path a key is repeated, and none of the keys above is met.
def Avoids (key : Use → α) (above : List α) (first : Nat) : Tree → Prop
  | .leaf _ => True
  | .node symbol children =>
    key (useAt first symbol children) ∉ above ∧
      AllAvoid key (key (useAt first symbol children) :: above) first children

def AllAvoid (key : Use → α) (above : List α) (first : Nat) : List Tree → Prop
  | [] => True
  | t :: ts => Avoids key above first t ∧ AllAvoid key above (first + t.yield.length) ts

end

variable {key : Use → α}

@[simp] theorem avoids_leaf (above : List α) (first : Nat) (terminal : String) :
    (Tree.leaf terminal).Avoids key above first := trivial

theorem avoids_node (above : List α) (first : Nat) (symbol : String) (children : List Tree) :
    (Tree.node symbol children).Avoids key above first ↔
      key (useAt first symbol children) ∉ above ∧
        AllAvoid key (key (useAt first symbol children) :: above) first children := .rfl

@[simp] theorem allAvoid_nil (above : List α) (first : Nat) : AllAvoid key above first [] := trivial

theorem allAvoid_cons (above : List α) (first : Nat) (t : Tree) (ts : List Tree) :
    AllAvoid key above first (t :: ts) ↔
      t.Avoids key above first ∧ AllAvoid key above (first + t.yield.length) ts := .rfl

theorem allAvoid_append (above : List α) (first : Nat) (ts us : List Tree) :
    AllAvoid key above first (ts ++ us) ↔
      AllAvoid key above first ts ∧ AllAvoid key above (first + (yieldList ts).length) us := by
  induction ts generalizing first with
  | nil => simp
  | cons t ts ih =>
      simp only [List.cons_append, allAvoid_cons, ih, yieldList_cons, List.length_append, and_assoc,
        Nat.add_assoc]

theorem allAvoid_mono {above others : List α} (ts : List Tree)
    (ih : ∀ t ∈ ts, ∀ first, t.Avoids key others first → t.Avoids key above first) (first : Nat)
    (h : AllAvoid key others first ts) : AllAvoid key above first ts := by
  induction ts generalizing first with
  | nil => trivial
  | cons t ts ihr =>
      exact ⟨ih t (by simp) first h.1, ihr (fun u hu => ih u (by simp [hu])) _ h.2⟩

-- A tree that avoids more keys avoids fewer.
theorem Avoids.mono {above others : List α} (hsub : above ⊆ others) {t : Tree} {first : Nat}
    (h : t.Avoids key others first) : t.Avoids key above first := by
  induction t generalizing above others first with
  | leaf terminal => trivial
  | node symbol children ih =>
      refine ⟨fun hm => h.1 (hsub hm), ?_⟩
      have hcons := List.cons_subset_cons (key (useAt first symbol children)) hsub
      exact allAvoid_mono children (fun t ht _ h => ih t ht hcons h) first h.2

theorem AllAvoid.mono {above others : List α} (hsub : above ⊆ others) {ts : List Tree}
    {first : Nat} (h : AllAvoid key others first ts) : AllAvoid key above first ts :=
  allAvoid_mono ts (fun _ _ _ h => h.mono hsub) first h

theorem paths_ne_nil (t : Tree) (first : Nat) : t.paths first ≠ [] := by
  induction t generalizing first with
  | leaf terminal => simp [paths]
  | node symbol children ih =>
      cases children with
      | nil => simp [paths]
      | cons t ts => simp [paths, pathsList, ih t (by simp)]

theorem allAvoid_iff (ts : List Tree)
    (ih : ∀ t ∈ ts, ∀ (above : List α) first, t.Avoids key above first ↔
      ∀ path ∈ t.paths first, (path.map key).Nodup ∧ ∀ k ∈ path.map key, k ∉ above)
    (above : List α) (first : Nat) :
    AllAvoid key above first ts ↔
      ∀ path ∈ pathsList first ts, (path.map key).Nodup ∧ ∀ k ∈ path.map key, k ∉ above := by
  induction ts generalizing first with
  | nil => simp [pathsList]
  | cons t ts ihr =>
      simp only [allAvoid_cons, pathsList, List.mem_append, or_imp, forall_and]
      rw [ih t (by simp), ihr fun u hu => ih u (by simp [hu])]
      grind

-- The paths say the same as the walk over the tree.
theorem avoids_iff (t : Tree) (above : List α) (first : Nat) :
    t.Avoids key above first ↔
      ∀ path ∈ t.paths first, (path.map key).Nodup ∧ ∀ k ∈ path.map key, k ∉ above := by
  induction t generalizing above first with
  | leaf terminal => simp [paths]
  | node symbol children ih =>
      rw [avoids_node, allAvoid_iff children fun t ht above first => ih t ht above first]
      cases children with
      | nil => simp [paths, pathsList]
      | cons t ts =>
          have hpath : ∃ path, path ∈ pathsList first (t :: ts) := by
            obtain ⟨path, hm⟩ := List.exists_mem_of_ne_nil _ (paths_ne_nil t first)
            exact ⟨path, List.mem_append_left _ hm⟩
          simp only [paths, List.isEmpty_cons, Bool.false_eq_true, if_false, List.mem_map,
            forall_exists_index, and_imp, forall_apply_eq_imp_iff₂, List.map_cons, List.nodup_cons,
            List.mem_cons, not_or]
          constructor
          · rintro ⟨htop, hbelow⟩ path hm
            refine ⟨⟨?_, (hbelow path hm).1⟩, ?_⟩
            · rintro ⟨u, hu, heq⟩
              exact ((hbelow path hm).2 u hu).1 heq
            · rintro u (rfl | hu)
              · exact htop
              · exact ((hbelow path hm).2 u hu).2
          · intro hall
            obtain ⟨path, hm⟩ := hpath
            have hone := hall path hm
            grind

theorem allAvoid_cons_or {g : Grammar} {k : α} (ts : List Tree)
    (ih : ∀ t ∈ ts, t.Valid g → ∀ (above : List α) first, t.Avoids key above first →
      t.Avoids key (k :: above) first ∨
        ∃ symbol children before after, (Tree.node symbol children).Valid g ∧
          (Tree.node symbol children).Avoids key [] (first + before.length) ∧
          key (useAt (first + before.length) symbol children) = k ∧
          t.yield = before ++ yieldList children ++ after)
    (hvalid : ∀ t ∈ ts, t.Valid g) (above : List α) (first : Nat)
    (h : AllAvoid key above first ts) :
    AllAvoid key (k :: above) first ts ∨
      ∃ symbol children before after, (Tree.node symbol children).Valid g ∧
        (Tree.node symbol children).Avoids key [] (first + before.length) ∧
        key (useAt (first + before.length) symbol children) = k ∧
        yieldList ts = before ++ yieldList children ++ after := by
  induction ts generalizing first with
  | nil => exact .inl trivial
  | cons t ts ihr =>
      rcases ih t (by simp) (hvalid t (by simp)) above first h.1 with ht |
        ⟨symbol, children, before, after, hv, ha, hk, hy⟩
      · rcases ihr (fun u hu => ih u (by simp [hu])) (fun u hu => hvalid u (by simp [hu])) _ h.2 with
          hts | ⟨symbol, children, before, after, hv, ha, hk, hy⟩
        · exact .inl ⟨ht, hts⟩
        · refine .inr ⟨symbol, children, t.yield ++ before, after, hv, ?_, ?_, by simp [hy]⟩
          · simpa only [List.length_append, Nat.add_assoc] using ha
          · simpa only [List.length_append, Nat.add_assoc] using hk
      · exact .inr ⟨symbol, children, before, after ++ yieldList ts, hv, ha, hk, by simp [hy]⟩

-- A tree that does not avoid one more key has a node with that key.
theorem Avoids.cons_or {g : Grammar} (k : α) {t : Tree} (hvalid : t.Valid g) {above : List α}
    {first : Nat} (h : t.Avoids key above first) :
    t.Avoids key (k :: above) first ∨
      ∃ symbol children before after, (Tree.node symbol children).Valid g ∧
        (Tree.node symbol children).Avoids key [] (first + before.length) ∧
        key (useAt (first + before.length) symbol children) = k ∧
        t.yield = before ++ yieldList children ++ after := by
  induction t generalizing above first with
  | leaf terminal => exact .inl trivial
  | node symbol children ih =>
      by_cases hk : key (useAt first symbol children) = k
      · exact .inr ⟨symbol, children, [], [], hvalid, h.mono (List.nil_subset _), hk, by simp⟩
      · have hchildren := allAvoid_cons_or children (fun t ht hv _ _ h => ih t ht hv h)
          ((valid_node g symbol children).mp hvalid).2 _ first h.2
        refine hchildren.imp (fun hall => ⟨?_, hall.mono ?_⟩) id
        · simpa only [List.mem_cons, not_or] using ⟨hk, h.1⟩
        · simp only [List.cons_subset, List.mem_cons, true_or, or_true, true_and]
          intro other hm
          simp [hm]

-- No nonterminal of the tree lies inside of itself with the same span.
def Simple (t : Tree) (first : Nat) : Prop := t.Avoids Use.spot [] first

theorem Simple.nodup_paths {t : Tree} {first : Nat} (h : t.Simple first) :
    ∀ path ∈ t.paths first, path.Nodup := by
  intro path hp
  have hspots : (path.map Use.spot).Nodup := ((avoids_iff t [] first).mp h path hp).1
  exact List.Pairwise.of_map Use.spot (fun _ _ => mt (congrArg Use.spot)) hspots

theorem exists_simple_all {g : Grammar} (ts : List Tree)
    (ih : ∀ t ∈ ts, t.Valid g → ∀ first, ∃ u : Tree, u.Valid g ∧ u.root = t.root ∧
      u.yield = t.yield ∧ u.Simple first)
    (hvalid : ∀ t ∈ ts, t.Valid g) (first : Nat) :
    ∃ us : List Tree, (∀ u ∈ us, u.Valid g) ∧ us.map root = ts.map root ∧
      yieldList us = yieldList ts ∧ AllAvoid Use.spot [] first us := by
  induction ts generalizing first with
  | nil => exact ⟨[], by simp, rfl, rfl, trivial⟩
  | cons t ts ihr =>
      obtain ⟨u, huv, hur, huy, hus⟩ := ih t (by simp) (hvalid t (by simp)) first
      obtain ⟨us, hv, hr, hy, hs⟩ := ihr (fun u hu => ih u (by simp [hu]))
        (fun u hu => hvalid u (by simp [hu])) (first + t.yield.length)
      refine ⟨u :: us, ?_, by simp [hur, hr], by simp [huy, hy], hus, by rwa [huy]⟩
      simpa only [List.mem_cons, forall_eq_or_imp] using ⟨huv, hv⟩

-- Whatever a nonterminal derives, it derives without lying inside of itself: if it does,
-- the inner node derives the same.
theorem Valid.exists_simple {g : Grammar} {t : Tree} (h : t.Valid g) (first : Nat) :
    ∃ u : Tree, u.Valid g ∧ u.root = t.root ∧ u.yield = t.yield ∧ u.Simple first := by
  induction t generalizing first with
  | leaf terminal => exact ⟨.leaf terminal, h, rfl, rfl, trivial⟩
  | node symbol children ih =>
      obtain ⟨mem, valid⟩ := (valid_node g symbol children).mp h
      obtain ⟨us, hv, hr, hy, hs⟩ := exists_simple_all children
        (fun t ht hv first => ih t ht hv first) valid first
      rcases allAvoid_cons_or (k := (useAt first symbol us).spot) us
        (fun t _ hv _ _ h => h.cons_or _ hv) hv [] first hs with
        hall | ⟨inner, ds, before, after, hdv, hda, hspot, hyield⟩
      · refine ⟨.node symbol us, ?_, rfl, by simp [hy], List.not_mem_nil, hall⟩
        exact (valid_node g symbol us).mpr ⟨by rw [hr]; exact mem, hv⟩
      · -- a node further down has the same span, so there is nothing beside it
        simp only [Use.spot, useAt, Prod.mk.injEq] at hspot
        obtain ⟨rfl, hfirst, hlast⟩ := hspot
        have hlen := congrArg List.length hyield
        simp only [List.length_append] at hlen
        obtain rfl := List.length_eq_zero_iff.mp (show before.length = 0 by omega)
        obtain rfl := List.length_eq_zero_iff.mp (show after.length = 0 by omega)
        refine ⟨.node inner ds, hdv, rfl, ?_, hda⟩
        simpa [hy] using hyield.symm

theorem Derivation.exists_simple {g : Grammar} {symbol : String} {tokens : List String} {t : Tree}
    (h : t.Derivation g symbol tokens) :
    ∃ u : Tree, u.Derivation g symbol tokens ∧ u.Simple 0 := by
  obtain ⟨u, hv, hr, hy, hs⟩ := h.valid.exists_simple 0
  exact ⟨u, ⟨hr.trans h.root_eq, hv, hy.trans h.yield_eq⟩, hs⟩

end Tree

end ContextFree
