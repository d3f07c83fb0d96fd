import ContextFree.Proofs.Chart.Collecting

namespace ContextFree

namespace Chart

-- The tree fits the item, and nothing in it is an item that is being collected.
def Admits (c : Chart) (active : List Place) (place : Place) (t : Tree) : Prop :=
  ∃ x, c.item? place = some x ∧ c.Fits place t ∧ t.Avoids some (active.map c.use?) x.origin

-- The lists that are found on the way back: what the item matches, in front of the rest.
def Found (c : Chart) (active : List Place) (way : Place × List Tree) (ts : List Tree) : Prop :=
  ∃ x pre, ts = pre ++ way.2 ∧ c.Matches way.1 x pre ∧
    Tree.AllAvoid some (active.map c.use?) x.origin pre

-- The items that are being collected when the item is asked for: complete ones, each asked for
-- by those before it, and all of them on behalf of which the item is asked for.
structure Underway (c : Chart) (active : List Place) (place : Place) : Prop where
  nodup : active.Nodup
  complete : ∀ a ∈ active, ∃ y, c.item? a = some y ∧ y.isComplete = true
  asked : ∀ a ∈ active, Relation.TransGen c.Asks place a

-- The ways back over an edge, with the trees of all items at hand.
def waysOver (c : Chart) (treesOf : Place → List Tree) (after : List Tree) :
    Edge → List (Place × List Tree)
  | .scan predecessor =>
    match (c.item? predecessor).bind Item.next? with
    | some (.terminal name) => [(predecessor, .leaf name :: after)]
    | _ => []
  | .complete predecessor child => (treesOf child).map fun tree => (predecessor, tree :: after)

-- All lists of children that end in `after`, with the trees of all items at hand.
def listBehind (c : Chart) (treesOf : Place → List Tree) :
    (dot : Nat) → Place → (after : List Tree) → List (List Tree)
  | 0, _, after => [after]
  | dot + 1, place, after =>
    match c.edgesOf place with
    | [] => [after]
    | edges => (edges.flatMap (c.waysOver treesOf after)).reverse.flatMap fun (before, after) =>
      c.listBehind treesOf dot before after

def listFamilies (c : Chart) (treesOf : Place → List Tree) (place : Place) : List (List Tree) :=
  c.listBehind treesOf (((c.item? place).map Item.dot).getD 0) place []

-- The trees of a complete item, with nothing remembered: every question is answered anew.
def listTrees (c : Chart) : (depth : Nat) → (active : List Place) → Place → List Tree
  | 0, _, _ => []
  | depth + 1, active, place =>
    if place ∈ active then [] else
      match c.item? place with
      | none => []
      | some x =>
        (c.listFamilies (c.listTrees depth (place :: active)) place).map (.node x.production.lhs)

section Listing

variable {c : Chart} {treesOf treesOf' : Place → List Tree} {depth dot : Nat} {place : Place}
  {after : List Tree} {active : List Place}

theorem Underway.initial (c : Chart) (place : Place) : c.Underway [] place :=
  ⟨List.nodup_nil, by simp, by simp⟩

-- What is asked for on behalf of an item is asked for by all that asked for the item.
theorem Underway.child (h : c.Underway active place) (hm : place ∉ active) {x : Item}
    (hx : c.item? place = some x) (whole : x.isComplete = true) {child : Place}
    (hasks : c.Asks child place) : c.Underway (place :: active) child := by
  refine ⟨List.nodup_cons.mpr ⟨hm, h.nodup⟩, ?_, ?_⟩
  · simp only [List.mem_cons, forall_eq_or_imp]
    exact ⟨⟨x, hx, whole⟩, h.complete⟩
  · simp only [List.mem_cons, forall_eq_or_imp]
    exact ⟨.single hasks, fun a ha => .trans (.single hasks) (h.asked a ha)⟩

theorem listBehind_of_nil (hnil : c.edgesOf place = []) :
    c.listBehind treesOf dot place after = [after] := by
  cases dot with
  | zero => rfl
  | succ dot => rw [listBehind, hnil]

theorem listBehind_succ (hne : c.edgesOf place ≠ []) :
    c.listBehind treesOf (dot + 1) place after =
      ((c.edgesOf place).flatMap (c.waysOver treesOf after)).reverse.flatMap fun way =>
        c.listBehind treesOf dot way.1 way.2 := by
  rw [listBehind]
  split
  · exact absurd ‹_› hne
  · rfl

theorem listFamilies_of_item? {x : Item} (hx : c.item? place = some x) :
    c.listFamilies treesOf place = c.listBehind treesOf x.dot place [] := by
  rw [listFamilies, hx]
  rfl

theorem listTrees_of_mem (hm : place ∈ active) : c.listTrees depth active place = [] := by
  cases depth with
  | zero => rfl
  | succ depth => rw [listTrees, if_pos hm]

theorem listTrees_succ (hm : place ∉ active) {x : Item} (hx : c.item? place = some x) :
    c.listTrees (depth + 1) active place =
      (c.listFamilies (c.listTrees depth (place :: active)) place).map
        (.node x.production.lhs) := by
  rw [listTrees, if_neg hm, hx]

theorem eq_predecessor_of_mem {e : Edge} {way : Place × List Tree}
    (hm : way ∈ c.waysOver treesOf after e) : way.1 = e.predecessor := by
  cases e with
  | scan predecessor =>
      rw [waysOver] at hm
      split at hm
      · rw [List.mem_singleton.mp hm, Edge.predecessor]
      · exact absurd hm List.not_mem_nil
  | complete predecessor child =>
      obtain ⟨t, _, rfl⟩ := List.mem_map.mp hm
      rfl

theorem waysOver_congr {e : Edge} (he : e ∈ c.edgesOf place)
    (heq : ∀ child, c.Asks child place → treesOf child = treesOf' child) :
    c.waysOver treesOf after e = c.waysOver treesOf' after e := by
  cases e with
  | scan predecessor => rfl
  | complete predecessor child => rw [waysOver, waysOver, heq child (.here he)]

-- The walk back depends on the trees of those items only that are asked for.
theorem listBehind_congr (dot : Nat) (place : Place) (after : List Tree)
    (heq : ∀ child, c.Asks child place → treesOf child = treesOf' child) :
    c.listBehind treesOf dot place after = c.listBehind treesOf' dot place after := by
  induction dot generalizing place after with
  | zero => rfl
  | succ dot ih =>
      by_cases hnil : c.edgesOf place = []
      · rw [listBehind_of_nil hnil, listBehind_of_nil hnil]
      · rw [listBehind_succ hnil, listBehind_succ hnil,
          List.flatMap_congr fun e he => waysOver_congr he heq]
        refine List.flatMap_congr fun way hway => ?_
        obtain ⟨e, he, hm⟩ := List.mem_flatMap.mp (List.mem_reverse.mp hway)
        exact ih way.1 way.2 fun child hasks =>
          heq child (.back he (eq_predecessor_of_mem hm ▸ hasks))

end Listing

section Finished

variable {c : Chart} (h : c.Finished) {active : List Place} {place : Place} {x : Item}

include h

-- There are never more items being collected than there are items.
theorem Underway.length_lt (hu : c.Underway active place) : active.length < c.maxDepth := by
  have hsub : active ⊆ c.places := by
    intro a ha
    obtain ⟨y, hy, _⟩ := hu.complete a ha
    have hset := set_le_of_item? h hy
    have hsize := h.size_eq
    simp only [places, List.mem_flatMap, List.mem_map, List.mem_range]
    exact ⟨a.set, by omega, a.index, (Array.getElem?_eq_some_iff.mp hy).1, rfl⟩
  exact Nat.lt_succ_of_le (hu.nodup.length_le_of_subset hsub)

theorem edgesOf_eq_nil (hx : c.item? place = some x) (hdot : x.dot = 0) :
    c.edgesOf place = [] := by
  refine List.eq_nil_iff_forall_not_mem.mpr fun e he => ?_
  exact (h.fits_of_draws ((mem_edgesOf_iff h hx e).mp he)).2.2 hdot

theorem edgesOf_ne_nil (hx : c.item? place = some x) (hdot : x.dot ≠ 0) :
    c.edgesOf place ≠ [] := by
  obtain ⟨e, he, _⟩ := h.older place x hx hdot
  rw [edgesOf, (h.aligned place.set).edgesOf_eq_edgesTo hx]
  exact List.ne_nil_of_mem he

-- Only complete items are asked for.
theorem item_of_asks {child : Place} (hasks : c.Asks child place) (hx : c.item? place = some x) :
    ∃ y, c.item? child = some y ∧ y.isComplete = true := by
  induction hasks generalizing x with
  | here edge =>
      have hd := (mem_edgesOf_iff h hx _).mp edge
      obtain ⟨_, inner, _, _, _, inside, whole, _⟩ := (draws_complete_iff c _ _ _ _).mp hd
      exact ⟨inner, inside, whole⟩
  | @back _ e edge _ ih =>
      obtain ⟨y, hy⟩ := ((mem_edgesOf_iff h hx e).mp edge).predecessor_found
      exact ih hy

-- The trees that an edge adds, each with the item before.
theorem enumerates_waysOver {treesOf : Place → List Tree} (hx : c.item? place = some x)
    (after : List Tree)
    (hchild : ∀ child, c.Asks child place → Enumerates (c.Admits active child) (treesOf child))
    {e : Edge} (he : e ∈ c.edgesOf place) :
    Enumerates (fun way : Place × List Tree => ∃ t, way.2 = t :: after ∧ c.Adds e way.1 t ∧
      t.Avoids some (active.map c.use?) way.1.set) (c.waysOver treesOf after e) := by
  have hd := (mem_edgesOf_iff h hx e).mp he
  cases e with
  | scan predecessor =>
      obtain ⟨y, name, _, found, symbol, _⟩ := (draws_scan_iff c _ _ _).mp hd
      have hways : c.waysOver treesOf after (.scan predecessor) =
          [(predecessor, .leaf name :: after)] := by
        rw [waysOver, found, Option.bind_some, symbol]
      rw [hways]
      refine ⟨by simp, ?_⟩
      rintro ⟨before, ts⟩
      simp only [List.mem_singleton, Prod.mk.injEq]
      constructor
      · rintro ⟨rfl, rfl⟩
        exact ⟨.leaf name, rfl, ⟨rfl, y, name, found, symbol, rfl⟩, trivial⟩
      · rintro ⟨t, rfl, ⟨rfl, z, other, hz, hother, rfl⟩, _⟩
        obtain rfl := Option.some.inj (found.symm.trans hz)
        obtain rfl := Symbol.terminal.inj (Option.some.inj (symbol.symm.trans hother))
        exact ⟨rfl, rfl⟩
  | complete predecessor child =>
      obtain ⟨_, inner, _, _, _, inside, _, origin, _⟩ := (draws_complete_iff c _ _ _ _).mp hd
      refine ((hchild child (.here he)).map (fun t u heq => ?_)).congr ?_
      · simpa using heq
      · rintro ⟨before, ts⟩
        simp only [Prod.mk.injEq]
        constructor
        · rintro ⟨t, ⟨y, hy, hfits, havoids⟩, rfl, rfl⟩
          obtain rfl := Option.some.inj (inside.symm.trans hy)
          exact ⟨t, rfl, ⟨rfl, hfits⟩, origin ▸ havoids⟩
        · rintro ⟨t, rfl, ⟨rfl, hfits⟩, havoids⟩
          exact ⟨t, ⟨inner, inside, hfits, origin ▸ havoids⟩, rfl, rfl⟩

-- All ways back from an item, by the edges that lead to it.
theorem enumerates_ways {treesOf : Place → List Tree} (hx : c.item? place = some x)
    (after : List Tree)
    (hchild : ∀ child, c.Asks child place → Enumerates (c.Admits active child) (treesOf child)) :
    Enumerates (fun way : Place × List Tree => ∃ e ∈ c.edgesOf place, ∃ t, way.2 = t :: after ∧
      c.Adds e way.1 t ∧ t.Avoids some (active.map c.use?) way.1.set)
      ((c.edgesOf place).flatMap (c.waysOver treesOf after)).reverse := by
  refine (Enumerates.flatMap (fun e he => enumerates_waysOver h hx after hchild he)
    (nodup_edgesOf h hx) ?_).reverse
  rintro e he e' he' ⟨before, ts⟩ ⟨t, rfl, hadds, _⟩ ⟨u, heq, hadds', _⟩
  obtain rfl := (List.cons.inj heq).1
  exact adds_unique h hx he he' hadds hadds'

-- Following each way further gives what the item matches: the last tree tells the ways
-- apart, and the trees before it tell where they go.
theorem enumerates_found (hx : c.item? place = some x) {dot : Nat} (hdot : x.dot = dot + 1)
    {after : List Tree} {ways : List (Place × List Tree)}
    (hways : Enumerates (fun way : Place × List Tree => ∃ e ∈ c.edgesOf place, ∃ t,
      way.2 = t :: after ∧ c.Adds e way.1 t ∧ t.Avoids some (active.map c.use?) way.1.set) ways)
    {listsOf : Place × List Tree → List (List Tree)}
    (hlists : ∀ way ∈ ways, Enumerates (c.Found active way) (listsOf way)) :
    Enumerates (c.Found active (place, after)) (ways.flatMap listsOf) := by
  refine (Enumerates.flatMap hlists hways.nodup ?_).congr fun ts => ⟨?_, ?_⟩
  · rintro ⟨before, _⟩ hw ⟨before', _⟩ hw' ts ⟨y, pre, hts, hm, _⟩ ⟨y', pre', hts', hm', _⟩
    obtain ⟨e, he, t, rfl, hadds, _⟩ := (hways.mem_iff _).mp hw
    obtain ⟨e', he', t', rfl, hadds', _⟩ := (hways.mem_iff _).mp hw'
    obtain ⟨rfl, heq⟩ := List.append_inj' (hts.symm.trans hts') (by simp)
    obtain rfl := (List.cons.inj heq).1
    obtain rfl := before_unique h hx he he' hadds hadds' hm hm'
    rfl
  · rintro ⟨⟨before, _⟩, hw, y, pre, rfl, hm, havoid⟩
    obtain ⟨e, he, t, rfl, hadds, ht⟩ := (hways.mem_iff _).mp hw
    obtain ⟨z, hz, _, ho, _, _, hextend⟩ := matches_of_adds h hx he hadds
    obtain rfl := Option.some.inj (hz.symm.trans hm.found)
    refine ⟨x, pre ++ [t], by simp, hextend pre hm, ?_⟩
    rw [Tree.allAvoid_append, ← ho, ← hm.spans.last_eq]
    exact ⟨havoid, ht, trivial⟩
  · rintro ⟨z, ts, rfl, hm, havoid⟩
    obtain rfl := Option.some.inj (hx.symm.trans hm.found)
    obtain ⟨e, he, before, y, t, pre, rfl, hadds, hpre⟩ := (matches_iff h hx hdot ts).mp hm
    obtain ⟨z, hz, _, ho, _⟩ := matches_of_adds h hx he hadds
    obtain rfl := Option.some.inj (hz.symm.trans hpre.found)
    rw [Tree.allAvoid_append, ← ho, ← hpre.spans.last_eq, Tree.allAvoid_cons] at havoid
    exact ⟨(before, t :: after), (hways.mem_iff _).mpr ⟨e, he, t, rfl, hadds, havoid.2.1⟩, z, pre,
      by simp, hpre, havoid.1⟩

-- In front of its first symbol an item has matched nothing.
theorem enumerates_found_of_dot_eq_zero (hx : c.item? place = some x) (hdot : x.dot = 0)
    (after : List Tree) : Enumerates (c.Found active (place, after)) [after] := by
  refine ⟨by simp, fun ts => ?_⟩
  rw [List.mem_singleton]
  constructor
  · rintro rfl
    have horigin := (h.fits _ x (mem_items_of_item? hx)).2.2 hdot
    exact ⟨x, [], rfl, ⟨hx, by simp [hdot], by simp, by rw [horigin]; exact .nil _ _⟩, trivial⟩
  · rintro ⟨y, pre, rfl, hm, _⟩
    obtain rfl := Option.some.inj (hx.symm.trans hm.found)
    have hroots := hm.roots
    rw [hdot, List.take_zero, List.map_eq_nil_iff] at hroots
    rw [hroots]
    rfl

theorem enumerates_listBehind {treesOf : Place → List Tree} (dot : Nat)
    (hx : c.item? place = some x) (hdot : x.dot = dot) (after : List Tree)
    (hchild : ∀ child, c.Asks child place → Enumerates (c.Admits active child) (treesOf child)) :
    Enumerates (c.Found active (place, after)) (c.listBehind treesOf dot place after) := by
  induction dot generalizing place x after with
  | zero => exact enumerates_found_of_dot_eq_zero h hx hdot after
  | succ dot ih =>
      rw [listBehind_succ (edgesOf_ne_nil h hx (by omega))]
      have hways := enumerates_ways h hx after hchild
      refine enumerates_found h hx hdot hways fun way hway => ?_
      obtain ⟨e, he, t, _, hadds, _⟩ := (hways.mem_iff way).mp hway
      obtain ⟨y, hy, _, _, hydot, _⟩ := matches_of_adds h hx he hadds
      exact ih hy (by omega) way.2 fun child hasks =>
        hchild child (.back he (eq_predecessor_of_adds hadds ▸ hasks))

omit h in
-- A tree of an item that is being collected is never admitted.
theorem not_admits_of_mem (hm : place ∈ active) (t : Tree) : ¬ c.Admits active place t := by
  rintro ⟨x, hx, ⟨y, children, rfl, whole, hy⟩, havoids⟩
  obtain rfl := Option.some.inj (hx.symm.trans hy.found)
  rw [Tree.avoids_node, hy.useAt_eq whole] at havoids
  exact havoids.1 (List.mem_map_of_mem hm)

-- What is found on all ways back are the children of the admitted trees.
theorem admits_iff_found (hu : c.Underway active place) (hx : c.item? place = some x)
    (whole : x.isComplete = true) (hm : place ∉ active) (t : Tree) :
    (∃ ts, c.Found (place :: active) (place, []) ts ∧ .node x.production.lhs ts = t) ↔
      c.Admits active place t := by
  constructor
  · rintro ⟨_, ⟨y, ts, rfl, hy, havoids⟩, rfl⟩
    obtain rfl := Option.some.inj (hx.symm.trans hy.found)
    rw [List.append_nil]
    refine ⟨x, hx, ⟨x, ts, rfl, whole, hy⟩, ?_⟩
    rw [Tree.avoids_node, hy.useAt_eq whole]
    refine ⟨fun hmem => ?_, havoids⟩
    obtain ⟨a, ha, heq⟩ := List.mem_map.mp hmem
    obtain ⟨z, hz, hzwhole⟩ := hu.complete a ha
    obtain rfl := eq_of_use?_eq h hz hx hzwhole whole heq
    exact hm ha
  · rintro ⟨y, hy, ⟨z, ts, rfl, _, hz⟩, havoids⟩
    obtain rfl := Option.some.inj (hx.symm.trans hy)
    obtain rfl := Option.some.inj (hx.symm.trans hz.found)
    rw [Tree.avoids_node, hz.useAt_eq whole] at havoids
    exact ⟨ts, ⟨x, ts, by simp, hz, havoids.2⟩, rfl⟩

-- The trees of an item that is asked for while others are being collected are those that
-- have none of the others inside.
theorem enumerates_listTrees (depth : Nat) (hu : c.Underway active place)
    (hx : c.item? place = some x) (whole : x.isComplete = true)
    (hdepth : c.maxDepth ≤ depth + active.length) :
    Enumerates (c.Admits active place) (c.listTrees depth active place) := by
  induction depth generalizing active place x with
  | zero =>
      have := hu.length_lt h
      omega
  | succ depth ih =>
      by_cases hm : place ∈ active
      · rw [listTrees_of_mem hm]
        exact ⟨List.nodup_nil, fun t => by simp [not_admits_of_mem hm t]⟩
      · rw [listTrees_succ hm hx, listFamilies_of_item? hx]
        refine ((enumerates_listBehind h x.dot hx rfl [] fun child hasks => ?_).map
          fun _ _ heq => (Tree.node.inj heq).2).congr (admits_iff_found h hu hx whole hm)
        obtain ⟨y, hy, hywhole⟩ := item_of_asks h hasks hx
        exact ih (hu.child hm hx whole hasks) hy hywhole (by rw [List.length_cons]; omega)

-- A grounded item has the same trees, in the same order, wherever it is asked for: none of the
-- items that are being collected is met again below it.
theorem Grounded.listTrees_eq (hg : c.Grounded place) (hx : c.item? place = some x)
    (whole : x.isComplete = true) {active' : List Place} {depth depth' : Nat}
    (hu : c.Underway active place) (hdepth : c.maxDepth ≤ depth + active.length)
    (hu' : c.Underway active' place) (hdepth' : c.maxDepth ≤ depth' + active'.length) :
    c.listTrees depth active place = c.listTrees depth' active' place := by
  induction hg generalizing x active active' depth depth' with
  | intro place hacc ih =>
      have hnot {above : List Place} (hu : c.Underway above place) : place ∉ above := fun hm =>
        not_rel_self_of_acc (Acc.transGen ⟨_, hacc⟩) (hu.asked place hm)
      have hlt := hu.length_lt h
      have hlt' := hu'.length_lt h
      obtain ⟨depth, rfl⟩ : ∃ rest, depth = rest + 1 := ⟨depth - 1, by omega⟩
      obtain ⟨depth', rfl⟩ : ∃ rest, depth' = rest + 1 := ⟨depth' - 1, by omega⟩
      rw [listTrees_succ (hnot hu) hx, listTrees_succ (hnot hu') hx, listFamilies,
        listFamilies, listBehind_congr _ place [] fun child hasks => ?_]
      obtain ⟨y, hy, hywhole⟩ := item_of_asks h hasks hx
      refine ih child hasks hy hywhole (hu.child (hnot hu) hx whole hasks) ?_
        (hu'.child (hnot hu') hx whole hasks) ?_
      · rw [List.length_cons]
        omega
      · rw [List.length_cons]
        omega

-- Every edge has a way back, once its child is known to be grounded: nothing was cut from
-- the trees of the child.
theorem exists_way (hx : c.item? place = some x)
    (hunder : ∀ child, c.Asks child place → c.Underway active child) {e : Edge}
    (he : e ∈ c.edgesOf place)
    (hgrounded : ∀ parent child, e = .complete parent child → c.Grounded child) :
    ∃ t, c.Adds e e.predecessor t ∧ t.Avoids some (active.map c.use?) e.predecessor.set := by
  have hd := (mem_edgesOf_iff h hx e).mp he
  cases e with
  | scan predecessor =>
      obtain ⟨y, name, _, found, symbol, _⟩ := (draws_scan_iff c _ _ _).mp hd
      exact ⟨.leaf name, ⟨rfl, y, name, found, symbol, rfl⟩, trivial⟩
  | complete predecessor child =>
      obtain ⟨_, inner, _, _, _, inside, whole, origin, _⟩ := (draws_complete_iff c _ _ _ _).mp hd
      obtain ⟨ts, hm⟩ := exists_matches h child inside
      have hfits : c.Fits child (.node inner.production.lhs ts) := ⟨inner, ts, rfl, whole, hm⟩
      have hu := hunder child (.here he)
      refine ⟨_, ⟨rfl, hfits⟩, ?_⟩
      rw [Edge.predecessor, ← origin]
      exact (hgrounded predecessor child rfl).avoids h inside hfits hu.asked hu.complete

end Finished

end Chart

end ContextFree
