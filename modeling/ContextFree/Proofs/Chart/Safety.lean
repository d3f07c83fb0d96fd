import ContextFree.Proofs.Chart.Correctness
import ContextFree.Proofs.Chart.History
import ContextFree.Proofs.Chart.Termination

namespace ContextFree

namespace Chart

-- The dot of the parent moves on, and nothing is taken for granted: the parent has to be an item
-- with a symbol behind its dot, and the set has to be there.
def complete? (c : Chart) (position : Nat) (parent child : Place) : Option Chart := do
  let item ← c.item? parent
  let next ← item.advance?
  if position < c.sets.size then
    return c.update position (·.insertVia next (.complete parent child))
  else none

-- The same of the other steps: items are only added to sets that are there.
def scan? (c : Chart) (place : Place) (item : Item) (terminal : String) : Option Chart :=
  if c.tokens[place.set]? = some terminal then do
    let next ← item.advance?
    if place.set + 1 < c.sets.size then
      return c.update (place.set + 1) (·.insertVia next (.scan place))
    else none
  else some c

def predict? (c : Chart) (place : Place) (name : String) : Option Chart :=
  if place.set < c.sets.size then
    let predictions := (c.grammar.productionsFor name).map (Item.predicted · place.set)
    let c := c.update place.set fun s => predictions.foldl ItemSet.insert s
    let c := c.update place.set fun s => { s with waiting := s.waiting ++ [(name, place.index)] }
    ((c.setAt place.set).emptyOf name).foldlM
      (fun c child => c.complete? place.set place { set := place.set, index := child }) c
  else none

def finish? (c : Chart) (place : Place) (item : Item) : Option Chart :=
  if place.set < c.sets.size ∧ item.origin < c.sets.size then
    let name := item.production.lhs
    let c :=
      if item.origin = place.set then
        c.update place.set fun s => { s with empty := s.empty ++ [(name, place.index)] }
      else c
    ((c.setAt item.origin).waitingFor name).foldlM
      (fun c parent => c.complete? place.set { set := item.origin, index := parent } place) c
  else none

def process? (c : Chart) (place : Place) (item : Item) : Option Chart :=
  match item.next? with
  | some (.terminal terminal) => c.scan? place item terminal
  | some (.nonterminal name) => c.predict? place name
  | none => c.finish? place item

-- What the collection of trees takes for granted of an edge: it leads to items, the predecessor
-- has the symbol behind its dot that the edge is for, and the child is complete.
def Fitting (c : Chart) : Edge → Prop
  | .scan predecessor => ∃ y terminal, c.item? predecessor = some y ∧
      y.next? = some (.terminal terminal)
  | .complete predecessor child => ∃ y x, c.item? predecessor = some y ∧
      y.next? = some (.nonterminal x.production.lhs) ∧ c.item? child = some x ∧
      x.isComplete = true

section Completing

variable {c : Chart} {position : Nat}

theorem complete?_eq_some (hpos : position < c.sets.size) {parent : Place} {item : Item}
    {symbol : Symbol} (hitem : c.item? parent = some item) (hsymbol : item.next? = some symbol)
    (child : Place) :
    c.complete? position parent child = some (c.complete position parent child) := by
  obtain ⟨next, hnext⟩ := Item.advance?_eq_some_of_next? hsymbol
  simp [complete?, complete, hitem, hnext, hpos]

-- One pair after the other is completed, since no item is moved by it.
theorem foldlM_complete? (pairs : List (Place × Place)) (hpos : position < c.sets.size)
    (hpairs : ∀ pair ∈ pairs, ∃ x symbol, c.item? pair.1 = some x ∧ x.next? = some symbol) :
    pairs.foldlM (fun c pair => c.complete? position pair.1 pair.2) c =
      some (pairs.foldl (fun c pair => c.complete position pair.1 pair.2) c) := by
  induction pairs generalizing c with
  | nil => rfl
  | cons pair pairs ih =>
      obtain ⟨x, symbol, hx, hsymbol⟩ := hpairs pair (by simp)
      have hupdated := updated_complete hpos pair
      rw [List.foldlM_cons, complete?_eq_some hpos hx hsymbol, List.foldl_cons]
      refine ih (by rw [hupdated.size_eq]; exact hpos) fun other hm => ?_
      obtain ⟨y, symbol, hy, hsymbol⟩ := hpairs other (by simp [hm])
      exact ⟨y, symbol, hupdated.extends (ItemSet.extends_arrive _ _) _ _ _ hy, hsymbol⟩

end Completing

section Processing

variable {c : Chart} {position index : Nat} {item : Item} (h : Reached c position index)
  (hitem : c.item? { set := position, index } = some item)

include h

theorem scan?_eq_some {terminal : String} (symbol : item.next? = some (.terminal terminal)) :
    c.scan? { set := position, index } item terminal =
      some (c.scan { set := position, index } item terminal) := by
  obtain ⟨next, hnext⟩ := Item.advance?_eq_some_of_next? symbol
  by_cases htoken : c.tokens[position]? = some terminal
  · have hlt : position + 1 < c.sets.size := by
      have := (List.getElem?_eq_some_iff.mp htoken).1
      rw [h.size_eq]
      omega
    simp [scan?, scan, htoken, hnext, hlt]
  · simp [scan?, scan, htoken]

include hitem

-- The item that came to wait is still at its place, with the nonterminal behind its dot.
theorem predict?_eq_some (hsize : position < c.sets.size) {name : String}
    (symbol : item.next? = some (.nonterminal name)) :
    c.predict? { set := position, index } name =
      some (c.predict { set := position, index } name) := by
  have hlooks : c.predict? { set := position, index } name =
      ((c.announce { set := position, index } name).emptyPairs
          { set := position, index } name).foldlM
        (fun c pair => c.complete? position pair.1 pair.2)
        (c.announce { set := position, index } name) := by
    rw [predict?, if_pos hsize, emptyPairs, List.foldlM_map]
    rfl
  rw [hlooks, predict_eq]
  refine foldlM_complete? _ ?_ fun pair hm => ?_
  · rw [(updated_announce _ hsize name).size_eq]
    exact hsize
  · obtain ⟨child, _, rfl⟩ := List.mem_map.mp hm
    exact ⟨item, _, extends_announce _ (h.aligned position) hsize name hitem, symbol⟩

-- The items that waited at the origin have the nonterminal behind their dots.
theorem finish?_eq_some (hsize : position < c.sets.size) :
    c.finish? { set := position, index } item =
      some (c.finish { set := position, index } item) := by
  have horigin : item.origin ≤ position := (h.fits _ _ (mem_items_of_item? hitem)).2.1
  have hlooks : c.finish? { set := position, index } item =
      ((c.record { set := position, index } item).waitingPairs
          { set := position, index } item).foldlM
        (fun c pair => c.complete? position pair.1 pair.2)
        (c.record { set := position, index } item) := by
    rw [finish?, if_pos ⟨hsize, Nat.lt_of_le_of_lt horigin hsize⟩, waitingPairs, List.foldlM_map]
    rfl
  rw [hlooks, finish_eq]
  refine foldlM_complete? _ ?_ fun pair hm => ?_
  · rw [(updated_record _ hsize item).size_eq]
    exact hsize
  · rw [waitingPairs_record _ hsize] at hm
    obtain ⟨outer, hfound, hsymbol⟩ := exists_of_mem_waitingPairs h hm
    exact ⟨outer, _, extends_record _ hsize item hfound, hsymbol⟩

-- So whatever kind of item it is, the step goes through.
theorem process?_eq_some (hpos : position ≤ c.tokens.length) :
    c.process? { set := position, index } item =
      some (c.process { set := position, index } item) := by
  have hsize : position < c.sets.size := by
    rw [h.size_eq]
    omega
  rcases hsymbol : item.next? with - | ⟨terminal⟩ | ⟨name⟩
  all_goals simp only [process?, process, hsymbol]
  · exact finish?_eq_some h hitem hsize
  · exact scan?_eq_some h hsymbol
  · exact predict?_eq_some h hitem hsize hsymbol

end Processing

section Finished

variable {c : Chart} (h : c.Finished)

include h

theorem fitting_of_mem {place : Place} {e : Edge} (he : e ∈ c.edgesOf place) : c.Fitting e := by
  cases hx : c.item? place with
  | none => simp [edgesOf_of_item?_none h hx] at he
  | some x =>
      have hd := (mem_edgesOf_iff h hx e).mp he
      cases e with
      | scan predecessor =>
          obtain ⟨y, terminal, _, found, symbol, _⟩ := (draws_scan_iff c _ _ _).mp hd
          exact ⟨y, terminal, found, symbol⟩
      | complete predecessor child =>
          obtain ⟨y, inner, _, found, symbol, inside, whole, _⟩ :=
            (draws_complete_iff c _ _ _ _).mp hd
          exact ⟨y, inner, found, symbol, inside, whole⟩

-- The calls for the trees of a complete item come to an end with trees, so none of them fails on
-- the way: there is one way only.
theorem gather_ne_error {b : TreeMemo} (hb : c.Remembers b) (hactive : b.active = [])
    {place : Place} {x : Item} (hx : c.item? place = some x) (whole : x.isComplete = true)
    {s : Gathering} (hs : Relation.ReflTransGen c.Gathers (.asking place [] b) s)
    (fault : ChartFault) : c.gather s ≠ .stop (.error fault) := by
  intro hfault
  obtain ⟨last, hgathers, hlast⟩ := exists_gathers h hb hactive place
  obtain ⟨after, hrun, _⟩ := exists_trees h hb hactive place
  rw [hrun, listed, hx] at hlast
  simp only [whole, if_true] at hlast
  have heq := eq_of_reaches (fun hb hb' => Gathered.next.inj (hb.symm.trans hb')) hgathers
    (not_gathers_of_stop hlast) hs (not_gathers_of_stop hfault)
  rw [heq, hlast] at hfault
  cases hfault

end Finished

-- Everything that the loop over the sets and the collection of trees take for granted is so: no
-- step of the loop would fail if it looked, the edges lead to items of the right kind, and no call
-- for an accepting item fails.
structure Safe (g : Grammar) (tokens : List String) : Prop where
  process : ∀ w, Relation.ReflTransGen Sweep.Turns (.opening g tokens) w →
    ∀ item, w.position < w.chart.sets.size →
      w.chart.item? { set := w.position, index := w.index } = some item →
      w.chart.process? { set := w.position, index := w.index } item =
        some (w.chart.process { set := w.position, index := w.index } item)
  fitting : ∀ place, ∀ e ∈ (build g tokens).edgesOf place, (build g tokens).Fitting e
  gather : ∀ questions, ∀ place ∈ (build g tokens).accepting, ∀ s,
    Relation.ReflTransGen (build g tokens).Gathers
        (.asking place [] ((build g tokens).memoAfter questions)) s →
      ∀ fault, (build g tokens).gather s ≠ .stop (.error fault)

theorem safe (g : Grammar) (tokens : List String) : Safe g tokens := by
  have h : (build g tokens).Finished := finished_build g tokens
  constructor
  case process =>
    intro w hw item hpos hitem
    obtain ⟨hreached, _, _⟩ := reached_of_turns hw
    have hsize := hreached.size_eq
    exact process?_eq_some hreached hitem (by omega)
  case fitting => exact fun place e he => fitting_of_mem h he
  case gather =>
    intro questions place hp s hs
    obtain ⟨hmemo, hactive⟩ :=
      remembers_foldl_ask h (remembers_initial (build g tokens)) rfl questions
    obtain ⟨_, x, hx, whole, _⟩ := (mem_accepting h place).mp hp
    exact gather_ne_error h hmemo hactive hx whole hs

end Chart

end ContextFree
