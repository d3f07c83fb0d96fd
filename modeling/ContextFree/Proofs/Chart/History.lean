import ContextFree.Proofs.Chart.Listing

namespace ContextFree

namespace Item

-- The symbol in front of the dot. An item of which nothing is matched has none.
def previous? (item : Item) : Option Symbol :=
  match item.dot with
  | 0 => none
  | dot + 1 => item.production.rhs[dot]?

theorem previous?_eq_none_iff (item : Item) : item.previous? = none ↔ item.dot = 0 := by
  have := item.dot_le
  unfold previous?
  split
  · simp [*]
  · simp only [List.getElem?_eq_none_iff]
    omega

-- What was behind the dot is in front of it after the dot has moved.
theorem previous?_of_advance? {item next : Item} (h : item.advance? = some next) :
    next.previous? = item.next? := by
  obtain ⟨hp, _, hdot⟩ := advance?_eq_some h
  rw [previous?, hdot, hp, next?]

-- An item is the next one of a single item.
theorem eq_of_advance? {item other next : Item} (h : item.advance? = some next)
    (h' : other.advance? = some next) : item = other := by
  obtain ⟨hp, ho, hdot⟩ := advance?_eq_some h
  obtain ⟨hp', ho', hdot'⟩ := advance?_eq_some h'
  exact eq_of_fields (hp.symm.trans hp') (ho.symm.trans ho') (by omega)

end Item

namespace Chart

-- The child is a complete item for the nonterminal, in the set of the item. The parent is
-- the item with the dot one symbol further left, in the set where the child begins.
def Completes (c : Chart) (place : Place) (item : Item) (name : String) (parent child : Place) :
    Prop :=
  ∃ outer inner, c.item? parent = some outer ∧ outer.advance? = some item ∧
    c.item? child = some inner ∧ inner.isComplete = true ∧ inner.production.lhs = name ∧
    child.set = place.set ∧ parent.set = inner.origin

-- The item of the parent waits, where the child begins, for what the child matches.
def Waits (c : Chart) (parent child : Place) : Prop :=
  ∃ outer inner, c.item? parent = some outer ∧
    outer.next? = some (.nonterminal inner.production.lhs) ∧ c.item? child = some inner ∧
    inner.isComplete = true ∧ inner.origin = parent.set

section Finished

variable {c : Chart} (h : c.Finished) {place : Place} {x : Item}

include h

-- Where there is no item there are no edges.
theorem edgesOf_of_item?_none (hx : c.item? place = none) : c.edgesOf place = [] := by
  have hsize : (c.setAt place.set).edges.size ≤ place.index := by
    rw [(h.aligned place.set).size_eq]
    exact Array.getElem?_eq_none_iff.mp hx
  simp [edgesOf, ItemSet.edgesOf, hsize]

-- A terminal is scanned from one place only.
theorem edgesOf_of_terminal (hx : c.item? place = some x) {terminal : String}
    (symbol : x.previous? = some (.terminal terminal)) :
    ∃ before y, c.item? before = some y ∧ y.advance? = some x ∧ before.set + 1 = place.set ∧
      c.tokens[before.set]? = some terminal ∧ c.edgesOf place = [.scan before] := by
  have hdot : x.dot ≠ 0 := fun hzero => by
    simp [(x.previous?_eq_none_iff).mpr hzero] at symbol
  have hscan (e : Edge) (he : e ∈ c.edgesOf place) : ∃ before y, e = .scan before ∧
      c.item? before = some y ∧ y.advance? = some x ∧ before.set + 1 = place.set ∧
      c.tokens[before.set]? = some terminal := by
    have hd := (mem_edgesOf_iff h hx e).mp he
    cases e with
    | scan before =>
        obtain ⟨y, name, hset, found, hname, token, advance⟩ := (draws_scan_iff c _ _ _).mp hd
        rw [Item.previous?_of_advance? advance, hname] at symbol
        obtain rfl := Symbol.terminal.inj (Option.some.inj symbol)
        exact ⟨before, y, rfl, found, advance, hset.symm, token⟩
    | complete parent child =>
        obtain ⟨y, _, _, _, hname, _, _, _, advance⟩ := (draws_complete_iff c _ _ _ _).mp hd
        simp [Item.previous?_of_advance? advance, hname] at symbol
  obtain ⟨e, he⟩ := List.exists_mem_of_ne_nil _ (edgesOf_ne_nil h hx hdot)
  obtain ⟨before, y, rfl, found, advance, hset, token⟩ := hscan e he
  refine ⟨before, y, found, advance, hset, token, ?_⟩
  refine List.perm_singleton.mp
    ((List.perm_ext_iff_of_nodup (nodup_edgesOf h hx) (List.nodup_singleton _)).mpr fun e' => ?_)
  rw [List.mem_singleton]
  constructor
  · intro he'
    obtain ⟨before', y', rfl, found', advance', hset', _⟩ := hscan e' he'
    obtain rfl := Item.eq_of_advance? advance advance'
    rw [place_unique h found' found (by omega)]
  · rintro rfl
    exact he

-- A nonterminal was matched by each complete item that some parent waited for.
theorem mem_edgesOf_iff_completes (hx : c.item? place = some x) {name : String}
    (symbol : x.previous? = some (.nonterminal name)) (e : Edge) :
    e ∈ c.edgesOf place ↔
      ∃ parent child, e = .complete parent child ∧ c.Completes place x name parent child := by
  rw [mem_edgesOf_iff h hx]
  constructor
  · intro hd
    cases e with
    | scan before =>
        obtain ⟨y, _, _, _, hname, _, advance⟩ := (draws_scan_iff c _ _ _).mp hd
        simp [Item.previous?_of_advance? advance, hname] at symbol
    | complete parent child =>
        obtain ⟨outer, inner, hset, found, hname, inside, whole, origin, advance⟩ :=
          (draws_complete_iff c _ _ _ _).mp hd
        rw [Item.previous?_of_advance? advance, hname] at symbol
        exact ⟨parent, child, rfl, outer, inner, found, advance, inside, whole,
          Symbol.nonterminal.inj (Option.some.inj symbol), hset.symm, origin.symm⟩
  · rintro ⟨parent, child, rfl, outer, inner, found, advance, inside, whole, hlhs, hset, horigin⟩
    rw [Item.previous?_of_advance? advance] at symbol
    exact (draws_complete_iff c _ _ _ _).mpr ⟨outer, inner, hset.symm, found, hlhs ▸ symbol,
      inside, whole, horigin.symm, advance⟩

-- No pair is lost: the item that the parent becomes is there, with an edge for the pair.
theorem exists_edge_iff_waits (parent child : Place) :
    (∃ place, .complete parent child ∈ c.edgesOf place) ↔ c.Waits parent child := by
  constructor
  · rintro ⟨place, he⟩
    cases hx : c.item? place with
    | none => simp [edgesOf_of_item?_none h hx] at he
    | some x =>
        obtain ⟨outer, inner, _, found, symbol, inside, whole, origin, _⟩ :=
          (draws_complete_iff c _ _ _ _).mp ((mem_edgesOf_iff h hx _).mp he)
        exact ⟨outer, inner, found, symbol, inside, whole, origin⟩
  · rintro ⟨outer, inner, found, symbol, inside, whole, origin⟩
    obtain ⟨x, advance⟩ := Item.advance?_eq_some_of_next? symbol
    have hd := Draws.complete found symbol inside whole origin advance
    obtain ⟨index, hx⟩ := item_of_draws h hd
    exact ⟨_, (mem_edgesOf_iff h hx _).mpr hd⟩

end Finished

-- The edges of an item tell where it came from: none of what is matched comes over an edge if
-- nothing is matched, a terminal was scanned from the item before, and a nonterminal was matched
-- by a complete item for which the item before waited. Each pair of such items is there once, and
-- whenever an item waits for a complete one there is an item for the pair.
theorem history_exact (g : Grammar) (tokens : List String) :
    let c := build g tokens
    (∀ place, match c.item? place with
      | none => c.edgesOf place = []
      | some x => match x.previous? with
        | none => c.edgesOf place = []
        | some (.terminal terminal) => ∃ before y, c.item? before = some y ∧
            y.advance? = some x ∧ before.set + 1 = place.set ∧
            tokens[before.set]? = some terminal ∧ c.edgesOf place = [.scan before]
        | some (.nonterminal name) => (c.edgesOf place).Nodup ∧ ∀ e, e ∈ c.edgesOf place ↔
            ∃ parent child, e = .complete parent child ∧
              c.Completes place x name parent child) ∧
    ∀ parent child, (∃ place, .complete parent child ∈ c.edgesOf place) ↔
      c.Waits parent child := by
  intro c
  have h : c.Finished := finished_build g tokens
  refine ⟨fun place => ?_, exists_edge_iff_waits h⟩
  split
  · rename_i hx
    exact edgesOf_of_item?_none h hx
  · rename_i x hx
    split
    · rename_i hsymbol
      exact edgesOf_eq_nil h hx ((x.previous?_eq_none_iff).mp hsymbol)
    · rename_i terminal symbol
      rw [← (reached_build g tokens).2.2]
      exact edgesOf_of_terminal h hx symbol
    · rename_i name symbol
      exact ⟨nodup_edgesOf h hx, mem_edgesOf_iff_completes h hx symbol⟩

end Chart

end ContextFree
