import ContextFree.Proofs.Chart.Memory

namespace ContextFree

namespace Chart

section Finished

variable {c : Chart} (h : c.Finished)

include h

theorem mem_accepting (place : Place) :
    place ∈ c.accepting ↔ place.set = c.tokens.length ∧ ∃ x, c.item? place = some x ∧
      x.isComplete = true ∧ x.origin = 0 ∧ x.production.lhs = c.grammar.start := by
  have hlast : c.sets.size - 1 = c.tokens.length := by
    rw [h.size_eq]
    omega
  simp only [accepting, hlast, List.mem_filterMap, List.mem_range]
  constructor
  · rintro ⟨index, _, heq⟩
    split at heq
    · rename_i x hx
      split at heq
      · rename_i haccepts
        obtain rfl := Option.some.inj heq
        exact ⟨rfl, x, hx, haccepts⟩
      · simp at heq
    · simp at heq
  · rintro ⟨hset, x, hx, haccepts⟩
    have hplace : place = { set := c.tokens.length, index := place.index } := by rw [← hset]
    refine ⟨place.index, ?_, ?_⟩
    · rw [← hset]
      exact (Array.getElem?_eq_some_iff.mp hx).1
    · rw [← hplace, hx]
      simp [haccepts]

omit h in
theorem nodup_accepting (c : Chart) : c.accepting.Nodup := by
  refine List.nodup_range.filterMap ?_
  intro i j place hi hj
  simp only [Option.mem_def] at hi hj
  split at hi <;> split at hj <;> grind

-- The accepting items are those that the derivation trees of the tokens fit.
theorem exists_accepting_iff (t : Tree) :
    (∃ place ∈ c.accepting, c.Fits place t) ↔ t.Derivation c.grammar c.grammar.start c.tokens := by
  constructor
  · rintro ⟨place, hp, x, children, rfl, whole, hm⟩
    obtain ⟨hset, y, hy, _, horigin, hlhs⟩ := (mem_accepting h place).mp hp
    obtain rfl := Option.some.inj (hm.found.symm.trans hy)
    have hspans := hm.spans
    rw [horigin, hset] at hspans
    refine ⟨by rw [Tree.root_node, hlhs], (Tree.valid_node _ _ _).mpr ⟨?_, hm.valid⟩,
      Spans.whole.mp hspans⟩
    rw [hm.roots, Item.dot_eq_length whole, List.take_length]
    exact (h.fits _ _ (mem_items_of_item? hy)).1
  · intro hd
    obtain ⟨place, x, hset, hx, horigin, hfits⟩ := exists_fits h hd.valid hd.root_eq h.start
      (Spans.whole.mpr hd.yield_eq)
    obtain ⟨y, children, rfl, whole, hm⟩ := id hfits
    obtain rfl := Option.some.inj (hx.symm.trans hm.found)
    have hlhs := Symbol.nonterminal.inj hd.root_eq
    exact ⟨place, (mem_accepting h place).mpr ⟨hset, x, hx, whole, horigin, hlhs⟩, hfits⟩

theorem parses_eq : c.parses = .ok (c.accepting.flatMap (c.listTrees c.maxDepth [])) := by
  have hall : c.Collects [] (c.accepting.mapM c.trees)
      (c.accepting.map (c.listTrees c.maxDepth [])) (∀ place ∈ c.accepting, c.Grounded place) := by
    refine .mapM _ fun place hp => ?_
    obtain ⟨_, x, hx, whole, _⟩ := (mem_accepting h place).mp hp
    exact collects_trees h hx whole
  obtain ⟨_, hrun, _⟩ := hall .initial (remembers_initial c) rfl
  rw [parses, TreeWork.fresh_eq, bind_apply, hrun]
  rfl

theorem enumerates_parses :
    Enumerates (fun t => ∃ place ∈ c.accepting, c.Admits [] place t)
      (c.accepting.flatMap (c.listTrees c.maxDepth [])) := by
  refine .flatMap (fun place hp => ?_) (nodup_accepting c) ?_
  · obtain ⟨_, x, hx, whole, _⟩ := (mem_accepting h place).mp hp
    exact enumerates_listTrees h c.maxDepth (.initial c place) hx whole (Nat.le_add_right _ _)
  · rintro a ha b hb t ⟨x, hx, hfits, _⟩ ⟨y, hy, hfits', _⟩
    obtain ⟨hset, x', hx', _, horigin, _⟩ := (mem_accepting h a).mp ha
    obtain ⟨hset', y', hy', _, horigin', _⟩ := (mem_accepting h b).mp hb
    exact fits_unique h hx' hy' (hset.trans hset'.symm) (horigin.trans horigin'.symm) hfits hfits'

end Finished

theorem exists_fits_accepting_iff (g : Grammar) (tokens : List String) (t : Tree) :
    (∃ place ∈ (build g tokens).accepting, (build g tokens).Fits place t) ↔
      t.Derivation g g.start tokens := by
  obtain ⟨_, hg, ht⟩ := reached_build g tokens
  rw [exists_accepting_iff (finished_build g tokens), hg, ht]

-- The trees that are given are those in which no use is repeated on a path.
theorem exists_parse (g : Grammar) (tokens : List String) :
    ∃ trees, parse g tokens = .ok trees ∧ Enumerates (fun t =>
      t.Derivation g g.start tokens ∧ ∀ path ∈ t.paths 0, path.Nodup) trees := by
  refine ⟨_, parses_eq (finished_build g tokens),
    (enumerates_parses (finished_build g tokens)).congr fun t => ?_⟩
  have hpaths : t.Avoids some (([] : List Place).map (build g tokens).use?) 0 ↔
      ∀ path ∈ t.paths 0, path.Nodup := by
    have hsome : Function.Injective (some : Use → Option Use) := fun _ _ => Option.some.inj
    simp [Tree.avoids_iff, List.nodup_map_iff hsome]
  rw [← exists_fits_accepting_iff, ← hpaths]
  have horigin {place : Place} (hp : place ∈ (build g tokens).accepting) {x : Item}
      (hx : (build g tokens).item? place = some x) : x.origin = 0 := by
    obtain ⟨_, y, hy, _, hy0, _⟩ := (mem_accepting (finished_build g tokens) place).mp hp
    obtain rfl := Option.some.inj (hx.symm.trans hy)
    exact hy0
  constructor
  · rintro ⟨place, hp, x, hx, hf, havoids⟩
    exact ⟨⟨place, hp, hf⟩, horigin hp hx ▸ havoids⟩
  · rintro ⟨⟨place, hp, hf⟩, havoids⟩
    obtain ⟨x, _, _, _, hm⟩ := id hf
    exact ⟨place, hp, x, hm.found, hf, (horigin hp hm.found).symm ▸ havoids⟩

-- Whoever has a tree has one in which no use is repeated on a path.
theorem ne_nil_iff {g : Grammar} {tokens : List String} {trees : List Tree}
    (h : Enumerates (fun t => t.Derivation g g.start tokens ∧ ∀ path ∈ t.paths 0, path.Nodup)
      trees) : trees ≠ [] ↔ ∃ t : Tree, t.Derivation g g.start tokens := by
  constructor
  · intro hne
    obtain ⟨t, hm⟩ := List.exists_mem_of_ne_nil _ hne
    exact ⟨t, ((h.mem_iff t).mp hm).1⟩
  · rintro ⟨t, hd⟩
    obtain ⟨u, hu, hsimple⟩ := hd.exists_simple
    exact List.ne_nil_of_mem ((h.mem_iff u).mpr ⟨hu, hsimple.nodup_paths⟩)

theorem accepts_iff (g : Grammar) (tokens : List String) :
    (build g tokens).accepts = true ↔ ∃ t : Tree, t.Derivation g g.start tokens := by
  rw [accepts, Bool.not_eq_true', List.isEmpty_eq_false_iff]
  constructor
  · intro hne
    obtain ⟨place, hp⟩ := List.exists_mem_of_ne_nil _ hne
    obtain ⟨_, x, hx, whole, _⟩ := (mem_accepting (finished_build g tokens) place).mp hp
    obtain ⟨ts, hm⟩ := exists_matches (finished_build g tokens) place hx
    exact ⟨_, (exists_fits_accepting_iff g tokens _).mp ⟨place, hp, x, ts, rfl, whole, hm⟩⟩
  · rintro ⟨t, hd⟩
    obtain ⟨place, hp, _⟩ := (exists_fits_accepting_iff g tokens t).mpr hd
    exact List.ne_nil_of_mem hp

-- The trees of a grammar for the tokens that repeat nothing on a path are given, each once.
-- There is one of them if there is any tree, and then the chart accepts. The trees are made with
-- one call inside another for every level, and how deep calls may lie is not limited here.
theorem parse_enumerates (g : Grammar) (tokens : List String) :
    ∃ trees, parse g tokens = .ok trees ∧ trees.Nodup ∧
      (∀ t, t ∈ trees ↔ t.Derivation g g.start tokens ∧ ∀ path ∈ t.paths 0, path.Nodup) ∧
      (trees ≠ [] ↔ ∃ t : Tree, t.Derivation g g.start tokens) ∧
      ((build g tokens).accepts = true ↔ ∃ t : Tree, t.Derivation g g.start tokens) := by
  obtain ⟨trees, hparse, htrees⟩ := exists_parse g tokens
  exact ⟨trees, hparse, htrees.nodup, htrees.mem_iff, ne_nil_iff htrees, accepts_iff g tokens⟩

end Chart

end ContextFree
