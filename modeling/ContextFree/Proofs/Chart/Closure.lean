import ContextFree.Proofs.Chart.Steps
import Mathlib.Data.List.ProdSigma

namespace ContextFree

theorem Item.advance?_eq_some_of_next? {item : Item} {symbol : Symbol}
    (h : item.next? = some symbol) : ∃ next, item.advance? = some next := by
  apply Option.ne_none_iff_exists'.mp
  rw [Ne, item.advance?_eq_none_iff, ← item.next?_eq_none_iff, h]
  simp

theorem Item.isComplete_eq_false_of_next? {item : Item} {symbol : Symbol}
    (h : item.next? = some symbol) : ¬ item.isComplete = true := by
  rw [← item.next?_eq_none_iff, h]
  simp

namespace ItemSet

theorem arrive_append (s : ItemSet) (arrivals others : List (Item × Edge)) :
    s.arrive (arrivals ++ others) = (s.arrive arrivals).arrive others := List.foldl_append

theorem absorb_nothing (s : ItemSet) : s.absorb {} = s := by
  simp [absorb, predictAll, note]

section Notes

variable (notes : List (String × Nat)) (name : String)

theorem mem_noted (index : Nat) :
    index ∈ notes.filterMap (fun (other, index) => if other = name then some index else none) ↔
      (name, index) ∈ notes := by
  simp only [List.mem_filterMap, Prod.exists]
  constructor
  · rintro ⟨other, i, hm, heq⟩
    split at heq
    · rename_i hn
      obtain rfl := Option.some.inj heq
      exact hn ▸ hm
    · simp at heq
  · intro hm
    exact ⟨name, index, hm, by simp⟩

theorem nodup_noted (h : notes.Nodup) :
    (notes.filterMap fun (other, index) => if other = name then some index else none).Nodup := by
  refine h.filterMap ?_
  rintro ⟨a, i⟩ ⟨b, j⟩ index hi hj
  simp only [Option.mem_def, Option.ite_none_right_eq_some, Option.some.injEq] at hi hj
  rw [hi.1, hi.2, hj.1, hj.2]

end Notes

end ItemSet

namespace Chart

-- The items that parents become when they are completed by children.
def arrivals (c : Chart) (pairs : List (Place × Place)) : List (Item × Edge) :=
  pairs.filterMap fun pair =>
    ((c.item? pair.1).bind Item.advance?).map (·, .complete pair.1 pair.2)

theorem mem_arrivals (c : Chart) (pairs : List (Place × Place)) (x : Item) (e : Edge) :
    (x, e) ∈ c.arrivals pairs ↔ ∃ parent child item, (parent, child) ∈ pairs ∧
      c.item? parent = some item ∧ item.advance? = some x ∧ e = .complete parent child := by
  simp only [arrivals, List.mem_filterMap, Option.map_eq_some_iff, Option.bind_eq_some_iff,
    Prod.mk.injEq, Prod.exists]
  constructor
  · rintro ⟨parent, child, hm, next, ⟨item, hi, hn⟩, rfl, rfl⟩
    exact ⟨parent, child, item, hm, hi, hn, rfl⟩
  · rintro ⟨parent, child, item, hm, hi, hn, rfl⟩
    exact ⟨parent, child, hm, x, ⟨item, hi, hn⟩, rfl, rfl⟩

theorem nodup_arrivals (c : Chart) {pairs : List (Place × Place)} (h : pairs.Nodup) :
    (c.arrivals pairs).Nodup := by
  refine h.filterMap ?_
  rintro ⟨p, q⟩ ⟨p', q'⟩ ⟨x, e⟩ hp hq
  simp only [Option.mem_def, Option.map_eq_some_iff, Prod.mk.injEq] at hp hq
  obtain ⟨_, _, _, rfl⟩ := hp
  obtain ⟨_, _, _, heq⟩ := hq
  simpa [eq_comm] using heq

theorem updated_complete {c : Chart} {position : Nat} (hpos : position < c.sets.size)
    (pair : Place × Place) :
    Updated c (c.complete position pair.1 pair.2) position (·.arrive (c.arrivals [pair])) := by
  cases h : (c.item? pair.1).bind Item.advance? with
  | none =>
      have harrivals : c.arrivals [pair] = [] := by
        simp only [arrivals, List.filterMap_cons, h, Option.map_none, List.filterMap_nil]
      rw [complete, h, harrivals]
      exact updated_self c position rfl
  | some next =>
      have harrivals : c.arrivals [pair] = [(next, .complete pair.1 pair.2)] := by
        simp only [arrivals, List.filterMap_cons, h, Option.map_some, List.filterMap_nil]
      rw [complete, h, harrivals]
      exact updated_update c hpos _

-- Completing several parents is one arrival of all that they become.
theorem updated_completeAll {position : Nat} (pairs : List (Place × Place)) (c : Chart)
    (hpos : position < c.sets.size) (hpairs : ∀ pair ∈ pairs, ∃ x, c.item? pair.1 = some x) :
    Updated c (pairs.foldl (fun c pair => c.complete position pair.1 pair.2) c) position
      (·.arrive (c.arrivals pairs)) := by
  induction pairs generalizing c with
  | nil => exact updated_self c position rfl
  | cons pair pairs ih =>
      have hfirst := updated_complete hpos pair
      have hstays : ∀ other ∈ pairs,
          (c.complete position pair.1 pair.2).item? other.1 = c.item? other.1 := by
        intro other hm
        obtain ⟨x, hx⟩ := hpairs other (by simp [hm])
        rw [hx]
        exact hfirst.extends (ItemSet.extends_arrive _ _) other.1.set _ _ hx
      have hrest := ih (c.complete position pair.1 pair.2) (by rw [hfirst.size_eq]; exact hpos)
        fun other hm => by rw [hstays other hm]; exact hpairs other (by simp [hm])
      have harrivals : (c.complete position pair.1 pair.2).arrivals pairs = c.arrivals pairs :=
        List.filterMap_congr fun other hm => by rw [hstays other hm]
      have hcons : c.arrivals (pair :: pairs) = c.arrivals [pair] ++ c.arrivals pairs := by
        simp [arrivals, List.filterMap_cons]
        split <;> simp
      rw [harrivals] at hrest
      rw [hcons]
      simp only [ItemSet.arrive_append]
      exact hfirst.trans hrest

-- The item at the place with the children in its set that matched nothing.
def emptyPairs (c : Chart) (place : Place) (name : String) : List (Place × Place) :=
  ((c.setAt place.set).emptyOf name).map fun child => (place, { set := place.set, index := child })

-- The parents that waited at the origin of a complete item, with the item.
def waitingPairs (c : Chart) (place : Place) (item : Item) : List (Place × Place) :=
  ((c.setAt item.origin).waitingFor item.production.lhs).map
    fun parent => ({ set := item.origin, index := parent }, place)

-- The chart in which `predict` completes the waiting item: the productions are there from their
-- starts, and it is noted who waits for them.
def announce (c : Chart) (place : Place) (name : String) : Chart :=
  let c := c.update place.set
    (·.predictAll ((c.grammar.productionsFor name).map (Item.predicted · place.set)))
  c.update place.set fun s => { s with waiting := s.waiting ++ [(name, place.index)] }

theorem predict_eq (c : Chart) (place : Place) (name : String) :
    c.predict place name = ((c.announce place name).emptyPairs place name).foldl
      (fun c pair => c.complete place.set pair.1 pair.2) (c.announce place name) := by
  rw [emptyPairs, List.foldl_map]
  rfl

-- The chart in which `finish` completes the parents: an item that matched nothing is noted.
def record (c : Chart) (place : Place) (item : Item) : Chart :=
  if item.origin = place.set then
    c.update place.set fun s => { s with empty := s.empty ++ [(item.production.lhs, place.index)] }
  else c

theorem finish_eq (c : Chart) (place : Place) (item : Item) :
    c.finish place item = ((c.record place item).waitingPairs place item).foldl
      (fun c pair => c.complete place.set pair.1 pair.2) (c.record place item) := by
  rw [waitingPairs, List.foldl_map]
  rfl

section Notes

variable {c : Chart} (place : Place)

theorem updated_announce (hsize : place.set < c.sets.size) (name : String) :
    Updated c (c.announce place name) place.set fun s =>
      (s.predictAll ((c.grammar.productionsFor name).map (Item.predicted · place.set))).note
        [(name, place.index)] [] := by
  have hpredicted := updated_update c hsize
    (·.predictAll ((c.grammar.productionsFor name).map (Item.predicted · place.set)))
  have hf : ∀ s : ItemSet, { s with waiting := s.waiting ++ [(name, place.index)] } =
      s.note [(name, place.index)] [] := fun s => by simp [ItemSet.note]
  simp only [announce, hf]
  exact hpredicted.trans (updated_update _ (by rw [hpredicted.size_eq]; exact hsize) _)

-- Predictions do not move what is there, and they match nothing yet.
theorem extends_announce (aligned : (c.setAt place.set).Aligned) (hsize : place.set < c.sets.size)
    (name : String) {other : Place} {item : Item} (hitem : c.item? other = some item) :
    (c.announce place name).item? other = some item :=
  (updated_announce place hsize name).extends (ItemSet.predictAll_spec aligned _).2.1 _ _ _ hitem

theorem emptyPairs_announce (aligned : (c.setAt place.set).Aligned)
    (hsize : place.set < c.sets.size) (name : String) :
    (c.announce place name).emptyPairs place name = c.emptyPairs place name := by
  rw [emptyPairs, (updated_announce place hsize name).setAt_self]
  simp only [emptyPairs, ItemSet.emptyOf, ItemSet.note, List.append_nil,
    (ItemSet.predictAll_spec aligned _).2.2.2.2.2]

theorem updated_record (hsize : place.set < c.sets.size) (item : Item) :
    Updated c (c.record place item) place.set (·.note []
      (if item.origin = place.set then [(item.production.lhs, place.index)] else [])) := by
  have hf : ∀ s : ItemSet, { s with empty := s.empty ++ [(item.production.lhs, place.index)] } =
      s.note [] [(item.production.lhs, place.index)] := fun s => by simp [ItemSet.note]
  by_cases ho : item.origin = place.set
  · simp only [record, ho, if_true, hf]
    exact updated_update c hsize _
  · simp only [record, ho, if_false]
    exact updated_self c place.set (by simp [ItemSet.note])

theorem extends_record (hsize : place.set < c.sets.size) (item : Item) {other : Place}
    {x : Item} (hx : c.item? other = some x) : (c.record place item).item? other = some x :=
  (updated_record place hsize item).extends (ItemSet.Extends.refl _) _ _ _ hx

theorem waitingPairs_record (hsize : place.set < c.sets.size) (item : Item) :
    (c.record place item).waitingPairs place item = c.waitingPairs place item := by
  have hwaiting : ((c.record place item).setAt item.origin).waiting =
      (c.setAt item.origin).waiting := by
    rw [(updated_record place hsize item).setAt_eq]
    split <;> simp [ItemSet.note]
  simp only [waitingPairs, ItemSet.waitingFor, hwaiting]

end Notes

section Process

variable {c : Chart} {position index : Nat} {item : Item} (h : Reached c position index)
  (hitem : c.item? { set := position, index } = some item) (hpos : position ≤ c.tokens.length)

include h hitem

-- The edges that this item draws, with items that were processed before it.
theorem draws_fresh_iff (s : Nat) (x : Item) (e : Edge) :
    c.Draws e s x ∧ e.Before position (index + 1) ∧ ¬ e.Before position index ↔
      (∃ terminal, e = .scan { set := position, index } ∧ s = position + 1 ∧
        item.next? = some (.terminal terminal) ∧ c.tokens[position]? = some terminal ∧
        item.advance? = some x) ∨
      (∃ child inner, e = .complete { set := position, index } child ∧ s = position ∧
        item.next? = some (.nonterminal inner.production.lhs) ∧ item.advance? = some x ∧
        child.set = position ∧ child.Before position index ∧ c.item? child = some inner ∧
        inner.isComplete = true ∧ inner.origin = position) ∨
      (∃ parent outer, e = .complete parent { set := position, index } ∧ s = position ∧
        item.isComplete = true ∧ item.origin = parent.set ∧ parent.Before position index ∧
        c.item? parent = some outer ∧
        outer.next? = some (.nonterminal item.production.lhs) ∧ outer.advance? = some x) := by
  constructor
  · rintro ⟨hd, hbefore, hnot⟩
    cases hd with
    | @scan place found next terminal hfound symbol token advance =>
        obtain rfl := ((Place.before_succ_iff _ _ _).mp hbefore).resolve_left hnot
        obtain rfl := Option.some.inj (hitem.symm.trans hfound)
        exact .inl ⟨terminal, rfl, rfl, symbol, token, advance⟩
    | @complete parent child outer inner next found symbol inside whole origin advance =>
        right
        rcases (Place.before_succ_iff _ _ _).mp hbefore.1 with hparent | rfl
        · obtain rfl := ((Place.before_succ_iff _ _ _).mp hbefore.2).resolve_left
            fun hchild => hnot ⟨hparent, hchild⟩
          obtain rfl := Option.some.inj (hitem.symm.trans inside)
          exact .inr ⟨parent, outer, rfl, rfl, whole, origin, hparent, found, symbol, advance⟩
        · obtain rfl := Option.some.inj (hitem.symm.trans found)
          rcases (Place.before_succ_iff _ _ _).mp hbefore.2 with hchild | rfl
          · -- the child matched nothing, so it is in the same set
            have hle := (h.fits _ _ (mem_items_of_item? inside)).2.1
            have hset : child.set = position := by
              simp only at origin
              rcases hchild with hlt | ⟨heq, _⟩ <;> omega
            exact .inl
              ⟨child, inner, rfl, hset, symbol, advance, hset, hchild, inside, whole, origin⟩
          · obtain rfl := Option.some.inj (hitem.symm.trans inside)
            exact absurd whole (Item.isComplete_eq_false_of_next? symbol)
  · have hself := (Place.before_succ_iff { set := position, index } _ _).mpr (.inr rfl)
    have hnot := Place.not_before_self position index
    rintro (⟨terminal, rfl, rfl, symbol, token, advance⟩ |
      ⟨child, inner, rfl, rfl, symbol, advance, hset, hchild, inside, whole, origin⟩ |
      ⟨parent, outer, rfl, rfl, whole, origin, hparent, found, symbol, advance⟩)
    · exact ⟨.scan hitem symbol token advance, hself, hnot⟩
    · have hd := Draws.complete hitem symbol inside whole origin advance
      rw [hset] at hd
      exact ⟨hd, ⟨hself, hchild.succ⟩, fun hb => hnot hb.1⟩
    · exact ⟨.complete found symbol hitem whole origin advance, ⟨hparent.succ, hself⟩,
        fun hb => hnot hb.2⟩

theorem consequences_scan {terminal : String}
    (symbol : item.next? = some (.terminal terminal)) :
    ∃ target news, Updated c (c.scan { set := position, index } item terminal) target
        (·.absorb news) ∧ Consequences c position index item target news := by
  obtain ⟨next, hnext⟩ := Item.advance?_eq_some_of_next? symbol
  have hwhole := Item.isComplete_eq_false_of_next? symbol
  by_cases htoken : c.tokens[position]? = some terminal
  · have hlt : position + 1 < c.sets.size := by
      have := (List.getElem?_eq_some_iff.mp htoken).1
      rw [h.size_eq]
      omega
    refine ⟨position + 1, { arrivals := [(next, .scan { set := position, index })] }, ?_,
      ⟨.inr rfl, by simp, ?_, by simp, by simp [symbol], by simp, by simp [symbol], by simp,
        by simp [hwhole]⟩⟩
    · simp only [scan, htoken, hnext, if_true]
      have hf : ∀ s : ItemSet, s.insertVia next (.scan { set := position, index }) =
          s.absorb { arrivals := [(next, .scan { set := position, index })] } := fun s => by
        simp [ItemSet.absorb, ItemSet.predictAll, ItemSet.note, ItemSet.arrive]
      simpa only [hf] using updated_update c hlt
        (·.insertVia next (.scan { set := position, index }))
    · intro s x e
      rw [draws_fresh_iff h hitem]
      simp only [List.mem_singleton, Prod.mk.injEq, symbol, hwhole, hnext, Option.some.injEq,
        reduceCtorEq, false_and, and_false, exists_false, or_false, Symbol.terminal.injEq]
      constructor
      · rintro ⟨rfl, rfl, rfl⟩
        exact ⟨terminal, rfl, rfl, rfl, htoken, rfl⟩
      · rintro ⟨_, rfl, rfl, _, _, rfl⟩
        exact ⟨rfl, rfl, rfl⟩
  · refine ⟨position, {}, ?_, ⟨.inl rfl, by simp, ?_, by simp, by simp [symbol], by simp,
      by simp [symbol], by simp, by simp [hwhole]⟩⟩
    · simp only [scan, htoken, if_false]
      exact updated_self c position (ItemSet.absorb_nothing _)
    · intro s x e
      rw [draws_fresh_iff h hitem]
      simp only [List.not_mem_nil, and_false, symbol, hwhole, Option.some.injEq, reduceCtorEq,
        false_and, exists_false, or_false, Symbol.terminal.injEq, false_iff]
      rintro ⟨_, _, _, rfl, ht, _⟩
      exact htoken ht

-- The item that came to wait stays at its place, so it is the parent for each child.
theorem updated_predict (hsize : position < c.sets.size) (name : String) :
    Updated c (c.predict { set := position, index } name) position (·.absorb {
      predictions := (c.grammar.productionsFor name).map (Item.predicted · position)
      waiting := [(name, index)]
      arrivals := c.arrivals (c.emptyPairs { set := position, index } name) }) := by
  have hannounce := updated_announce { set := position, index } hsize name
  have hstays := extends_announce { set := position, index } (h.aligned position) hsize
    name hitem
  have hparent : ∀ pair ∈ c.emptyPairs { set := position, index } name,
      pair.1 = { set := position, index } := by
    intro pair hm
    obtain ⟨child, _, rfl⟩ := List.mem_map.mp hm
    rfl
  have hall := updated_completeAll (c.emptyPairs { set := position, index } name) _
    (by rw [hannounce.size_eq]; exact hsize) fun pair hm => ⟨item, by rw [hparent pair hm, hstays]⟩
  have harrivals : (c.announce { set := position, index } name).arrivals
        (c.emptyPairs { set := position, index } name) =
      c.arrivals (c.emptyPairs { set := position, index } name) :=
    List.filterMap_congr fun pair hm => by rw [hparent pair hm, hstays, hitem]
  rw [harrivals] at hall
  rw [predict_eq, emptyPairs_announce _ (h.aligned position) hsize]
  exact hannounce.trans hall

theorem mem_arrivals_emptyPairs_iff {name : String} (symbol : item.next? = some (.nonterminal name))
    (s : Nat) (x : Item) (e : Edge) :
    s = position ∧ (x, e) ∈ c.arrivals (c.emptyPairs { set := position, index } name) ↔
      c.Draws e s x ∧ e.Before position (index + 1) ∧ ¬ e.Before position index := by
  rw [draws_fresh_iff h hitem, mem_arrivals]
  constructor
  · rintro ⟨rfl, parent, child, outer, hm, hfound, hadvance, rfl⟩
    obtain ⟨i, hi, heq⟩ := List.mem_map.mp hm
    obtain ⟨rfl, rfl⟩ := Prod.mk.inj heq
    obtain rfl := Option.some.inj (hitem.symm.trans hfound)
    obtain ⟨hbefore, inner, inside, whole, hlhs, origin⟩ :=
      (h.mem_empty_iff { set := s, index := i } name).mp ((ItemSet.mem_noted _ _ _).mp hi)
    exact .inr (.inl ⟨_, inner, rfl, rfl, hlhs ▸ symbol, hadvance, rfl, hbefore, inside, whole,
      origin⟩)
  · rintro (⟨_, _, _, hsymbol, _⟩ |
      ⟨child, inner, rfl, rfl, hsymbol, hadvance, rfl, hbefore, inside, whole, origin⟩ |
      ⟨_, _, _, _, hw, _⟩)
    · simp [symbol] at hsymbol
    · obtain rfl := Symbol.nonterminal.inj (Option.some.inj (symbol.symm.trans hsymbol))
      refine ⟨rfl, _, child, item, ?_, hitem, hadvance, rfl⟩
      refine List.mem_map.mpr ⟨child.index, ?_, rfl⟩
      exact (ItemSet.mem_noted _ _ _).mpr
        ((h.mem_empty_iff child _).mpr ⟨hbefore, inner, inside, whole, rfl, origin⟩)
    · exact absurd hw (Item.isComplete_eq_false_of_next? symbol)

theorem consequences_predict (hsize : position < c.sets.size) {name : String}
    (symbol : item.next? = some (.nonterminal name)) :
    ∃ target news, Updated c (c.predict { set := position, index } name) target
        (·.absorb news) ∧ Consequences c position index item target news := by
  have hwhole := Item.isComplete_eq_false_of_next? symbol
  refine ⟨position, _, updated_predict h hitem hsize name,
    ⟨.inl rfl, ?_, mem_arrivals_emptyPairs_iff h hitem symbol, ?_, ?_, by simp, ?_, by simp,
      by simp [hwhole]⟩⟩
  · refine nodup_arrivals c ((ItemSet.nodup_noted _ _ (h.empty_nodup position)).map ?_)
    intro i j heq
    simpa using heq
  · intro x hx
    obtain ⟨p, hp, rfl⟩ := List.mem_map.mp hx
    obtain ⟨mem, rfl⟩ := (c.grammar.mem_productionsFor name p).mp hp
    exact ⟨mem, rfl, rfl, symbol⟩
  · intro other hother p hp
    obtain rfl := Symbol.nonterminal.inj (Option.some.inj (symbol.symm.trans hother))
    exact ⟨rfl, List.mem_map_of_mem hp⟩
  · rintro ⟨s, i⟩ other
    simp only [List.mem_singleton, Prod.mk.injEq, Place.mk.injEq, symbol, Option.some.injEq,
      Symbol.nonterminal.injEq]
    grind

omit hitem in
theorem exists_of_mem_waitingPairs {pair : Place × Place}
    (hm : pair ∈ c.waitingPairs { set := position, index } item) : ∃ outer,
      c.item? pair.1 = some outer ∧ outer.next? = some (.nonterminal item.production.lhs) := by
  obtain ⟨parent, hp, rfl⟩ := List.mem_map.mp hm
  obtain ⟨_, outer, hfound, hsymbol⟩ := (h.mem_waiting_iff
    { set := item.origin, index := parent } _).mp ((ItemSet.mem_noted _ _ _).mp hp)
  exact ⟨outer, hfound, hsymbol⟩

omit hitem in
theorem updated_finish (hsize : position < c.sets.size) (item : Item) :
    Updated c (c.finish { set := position, index } item) position (·.absorb {
      empty := if item.origin = position then [(item.production.lhs, index)] else []
      arrivals := c.arrivals (c.waitingPairs { set := position, index } item) }) := by
  have hrecord := updated_record { set := position, index } hsize item
  have hparent : ∀ pair ∈ c.waitingPairs { set := position, index } item, ∃ outer,
      (c.record { set := position, index } item).item? pair.1 = some outer ∧
        c.item? pair.1 = some outer := by
    intro pair hm
    obtain ⟨outer, hfound, _⟩ := exists_of_mem_waitingPairs h hm
    exact ⟨outer, extends_record _ hsize item hfound, hfound⟩
  have hall := updated_completeAll (c.waitingPairs { set := position, index } item) _
    (by rw [hrecord.size_eq]; exact hsize) fun pair hm => (hparent pair hm).imp fun _ hx => hx.1
  have harrivals : (c.record { set := position, index } item).arrivals
        (c.waitingPairs { set := position, index } item) =
      c.arrivals (c.waitingPairs { set := position, index } item) :=
    List.filterMap_congr fun pair hm => by
      obtain ⟨outer, hthere, hc⟩ := hparent pair hm
      rw [hthere, hc]
  rw [harrivals] at hall
  rw [finish_eq, waitingPairs_record _ hsize]
  exact hrecord.trans hall

theorem mem_arrivals_waitingPairs_iff (whole : item.isComplete = true) (s : Nat) (x : Item)
    (e : Edge) :
    s = position ∧ (x, e) ∈ c.arrivals (c.waitingPairs { set := position, index } item) ↔
      c.Draws e s x ∧ e.Before position (index + 1) ∧ ¬ e.Before position index := by
  have hsymbol : item.next? = none := item.next?_eq_none_iff.mpr whole
  rw [draws_fresh_iff h hitem, mem_arrivals]
  constructor
  · rintro ⟨rfl, parent, child, outer, hm, hfound, hadvance, rfl⟩
    obtain ⟨i, hi, heq⟩ := List.mem_map.mp hm
    obtain ⟨rfl, rfl⟩ := Prod.mk.inj heq
    obtain ⟨hbefore, other, hfound', symbol⟩ := (h.mem_waiting_iff
      { set := item.origin, index := i } _).mp ((ItemSet.mem_noted _ _ _).mp hi)
    obtain rfl := Option.some.inj (hfound.symm.trans hfound')
    exact .inr (.inr ⟨_, outer, rfl, rfl, whole, rfl, hbefore, hfound, symbol, hadvance⟩)
  · rintro (⟨_, _, _, symbol, _⟩ | ⟨_, _, _, _, symbol, _⟩ |
      ⟨parent, outer, rfl, rfl, _, origin, hbefore, hfound, symbol, hadvance⟩)
    · simp [hsymbol] at symbol
    · simp [hsymbol] at symbol
    · refine ⟨rfl, parent, _, outer, ?_, hfound, hadvance, rfl⟩
      refine List.mem_map.mpr ⟨parent.index, ?_, by rw [origin]⟩
      rw [origin]
      exact (ItemSet.mem_noted _ _ _).mpr
        ((h.mem_waiting_iff parent _).mpr ⟨hbefore, outer, hfound, symbol⟩)

theorem consequences_finish (hsize : position < c.sets.size) (whole : item.isComplete = true) :
    ∃ target news, Updated c (c.finish { set := position, index } item) target
        (·.absorb news) ∧ Consequences c position index item target news := by
  have hsymbol : item.next? = none := item.next?_eq_none_iff.mpr whole
  refine ⟨position, _, updated_finish h hsize item,
    ⟨.inl rfl, ?_, mem_arrivals_waitingPairs_iff h hitem whole, by simp, by simp [hsymbol], by simp,
      by simp [hsymbol], ?_, ?_⟩⟩
  · refine nodup_arrivals c ((ItemSet.nodup_noted _ _ (h.waiting_nodup item.origin)).map ?_)
    intro i j heq
    simpa using heq
  · by_cases ho : item.origin = position <;> simp [ho]
  · rintro ⟨s, i⟩ other
    by_cases ho : item.origin = position
    · simp only [ho, if_true, List.mem_singleton, Prod.mk.injEq, Place.mk.injEq, whole]
      grind
    · simp [ho]

-- Whatever kind of item it is, its consequences are news in one set.
theorem exists_consequences (hpos : position ≤ c.tokens.length) :
    ∃ target news, Updated c (c.process { set := position, index } item) target
        (·.absorb news) ∧ Consequences c position index item target news := by
  have hsize : position < c.sets.size := by
    rw [h.size_eq]
    omega
  unfold process
  split
  · rename_i terminal symbol
    exact consequences_scan h hitem symbol
  · rename_i name symbol
    exact consequences_predict h hitem hsize symbol
  · rename_i symbol
    exact consequences_finish h hitem hsize (item.next?_eq_none_iff.mp symbol)

-- Drawing the consequences of an item makes it the turn of the next one.
theorem reached_process (hpos : position ≤ c.tokens.length) :
    Reached (c.process { set := position, index } item) position (index + 1) ∧
      (c.process { set := position, index } item).grammar = c.grammar ∧
      (c.process { set := position, index } item).tokens = c.tokens := by
  obtain ⟨target, news, hnext, hnews⟩ := exists_consequences h hitem hpos
  exact ⟨h.absorb hitem hnews hnext, hnext.grammar_eq, hnext.tokens_eq⟩

end Process

theorem mem_dotted {g : Grammar} {p : Production} {dot : Nat} :
    (p, dot) ∈ dotted g ↔ p ∈ g.productions ∧ dot ≤ p.rhs.length := by
  simp only [dotted, List.mem_flatMap, List.mem_map, List.mem_range, Nat.lt_succ_iff,
    Prod.mk.injEq]
  constructor
  · rintro ⟨_, mem, _, hle, rfl, rfl⟩
    exact ⟨mem, hle⟩
  · rintro ⟨mem, hle⟩
    exact ⟨p, mem, dot, hle, rfl, rfl⟩

-- A set never holds more items than the fuel allows for.
theorem Reached.size_lt_capacity {c : Chart} {position index : Nat} (h : Reached c position index)
    (s : Nat) : (c.setAt s).size < c.capacity s := by
  let key (x : Item) := ((x.production, x.dot), x.origin)
  have hnodup : ((c.setAt s).items.toList.map key).Nodup := by
    refine (h.aligned s).nodup.map ?_
    rintro ⟨o, d, p, _⟩ ⟨o', d', p', _⟩ heq
    simp only [key, Prod.mk.injEq] at heq
    simp [heq]
  have hsub : (c.setAt s).items.toList.map key ⊆
      dotted c.grammar ×ˢ List.range (s + 1) := by
    intro k hm
    obtain ⟨x, hx, rfl⟩ := List.mem_map.mp hm
    have hfits := h.fits s x (by simpa using hx)
    refine List.mem_product.mpr ⟨mem_dotted.mpr ⟨hfits.1, x.dot_le⟩, ?_⟩
    exact List.mem_range.mpr (Nat.lt_succ_of_le hfits.2.1)
  have hle := hnodup.length_le_of_subset hsub
  rw [List.length_map, Array.length_toList, List.length_product, List.length_range] at hle
  exact Nat.lt_succ_of_le hle

-- When all items of a set are processed, it is the turn of the next set.
theorem Reached.turn {c : Chart} {position index : Nat} (h : Reached c position index)
    (hsize : (c.setAt position).size ≤ index) : Reached c (position + 1) 0 := by
  have hplace {place : Place} {x : Item} (hx : c.item? place = some x) :
      place.Before (position + 1) 0 ↔ place.Before position index := by
    have hlt : place.index < (c.setAt place.set).size := (Array.getElem?_eq_some_iff.mp hx).1
    unfold Place.Before
    constructor
    · rintro (hlt' | ⟨_, h0⟩)
      · by_cases heq : place.set = position
        · rw [heq] at hlt
          omega
        · omega
      · omega
    · omega
  have hedge {e : Edge} {s : Nat} {x : Item} (hd : c.Draws e s x) :
      e.Before (position + 1) 0 ↔ e.Before position index := by
    cases hd with
    | scan found _ _ _ => exact hplace found
    | complete found _ inside _ _ _ => exact and_congr (hplace found) (hplace inside)
  have hnote (place : Place) (P : Item → Prop) :
      (place.Before position index ∧ ∃ x, c.item? place = some x ∧ P x) ↔
        (place.Before (position + 1) 0 ∧ ∃ x, c.item? place = some x ∧ P x) := by
    constructor
    · rintro ⟨hb, x, hx, hP⟩
      exact ⟨(hplace hx).mpr hb, x, hx, hP⟩
    · rintro ⟨hb, x, hx, hP⟩
      exact ⟨(hplace hx).mp hb, x, hx, hP⟩
  refine { h with index_le := Nat.zero_le _, mem_edges_iff := ?_, predicted := ?_,
                  mem_waiting_iff := ?_, mem_empty_iff := ?_ }
  · intro s x e
    rw [h.mem_edges_iff]
    exact and_congr_right fun hd => (hedge hd).symm
  · intro place x name hb hx
    exact h.predicted place x name ((hplace hx).mp hb) hx
  · intro place name
    rw [h.mem_waiting_iff, hnote]
  · intro place name
    rw [h.mem_empty_iff, hnote]

theorem reached_close {position : Nat} (fuel : Nat) (c : Chart) (index : Nat)
    (h : Reached c position index) (hpos : position ≤ c.tokens.length)
    (hfuel : c.capacity position ≤ fuel + index) :
    Reached (close position fuel index c) (position + 1) 0 ∧
      (close position fuel index c).grammar = c.grammar ∧
      (close position fuel index c).tokens = c.tokens := by
  induction fuel generalizing c index with
  | zero =>
      have hlt := h.size_lt_capacity position
      have hle := h.index_le
      omega
  | succ fuel ih =>
      rw [close]
      split
      · rename_i hnone
        have hsize : (c.setAt position).size ≤ index := Array.getElem?_eq_none_iff.mp hnone
        exact ⟨h.turn hsize, rfl, rfl⟩
      · rename_i item hitem
        obtain ⟨hnext, hg, ht⟩ := reached_process h hitem hpos
        obtain ⟨hlast, hg', ht'⟩ := ih _ (index + 1) hnext (by rw [ht]; exact hpos) (by
          simp only [capacity, hg] at hfuel ⊢
          omega)
        exact ⟨hlast, hg'.trans hg, ht'.trans ht⟩

theorem reached_initial (g : Grammar) (tokens : List String) : Reached (initial g tokens) 0 0 := by
  let bare : Chart :=
    { grammar := g, tokens, sets := Array.replicate (tokens.length + 1) .initial }
  let predictions := (g.productionsFor g.start).map (Item.predicted · 0)
  have hbare : ∀ s, bare.setAt s = .initial := by
    intro s
    simp only [setAt, bare, Array.getD_eq_getD_getElem?, Array.getElem?_replicate]
    split <;> rfl
  have hnext : Updated bare (initial g tokens) 0 (·.predictAll predictions) :=
    updated_update bare (by simp [bare]) _
  obtain ⟨ha, _, hm, hedges, hw, he⟩ :=
    ItemSet.predictAll_spec ItemSet.aligned_initial predictions
  have hset : ∀ s, (initial g tokens).setAt s =
      if s = 0 then ItemSet.initial.predictAll predictions else .initial := fun s => by
    rw [hnext.setAt_eq, hbare]
  have hitems : ∀ s x, x ∈ ((initial g tokens).setAt s).items →
      s = 0 ∧ ∃ p ∈ g.productionsFor g.start, x = Item.predicted p 0 := by
    intro s x hx
    rw [hset] at hx
    split at hx
    · rcases (hm x).mp hx with hx | hx
      · simp [ItemSet.initial] at hx
      · obtain ⟨p, hp, rfl⟩ := List.mem_map.mp hx
        exact ⟨‹_›, p, hp, rfl⟩
    · simp [ItemSet.initial] at hx
  have hnone : ∀ s x, ((initial g tokens).setAt s).edgesTo x = [] := by
    intro s x
    rw [hset]
    split
    · exact (hedges x).trans (ItemSet.edgesTo_initial x)
    · exact ItemSet.edgesTo_initial x
  have hnotes : ∀ s, ((initial g tokens).setAt s).waiting = [] ∧
      ((initial g tokens).setAt s).empty = [] := by
    intro s
    rw [hset]
    split
    · exact ⟨hw, he⟩
    · exact ⟨rfl, rfl⟩
  have hbefore : ∀ place : Place, ¬ place.Before 0 0 := by simp [Place.Before]
  constructor
  case size_eq => simp [initial, update]
  case index_le => exact Nat.zero_le _
  case aligned =>
    intro s
    rw [hset]
    split
    · exact ha
    · exact ItemSet.aligned_initial
  case fits =>
    intro s x hx
    obtain ⟨rfl, p, hp, rfl⟩ := hitems s x hx
    exact ⟨((g.mem_productionsFor _ p).mp hp).1, Nat.le_refl _, fun _ => rfl⟩
  case edges_nodup =>
    intro s x
    rw [hnone]
    exact List.nodup_nil
  case mem_edges_iff =>
    intro s x e
    rw [hnone]
    cases e <;> simp [Edge.Before, hbefore]
  case older =>
    intro place x hx hdot
    obtain ⟨_, p, _, rfl⟩ := hitems place.set x (mem_items_of_item? hx)
    exact absurd rfl hdot
  case prompted =>
    intro place x hx _
    obtain ⟨hset, p, hp, rfl⟩ := hitems place.set x (mem_items_of_item? hx)
    exact .inl ⟨hset, ((g.mem_productionsFor _ p).mp hp).2⟩
  case start =>
    intro p hp
    rw [hset]
    exact (hm _).mpr (.inr (List.mem_map_of_mem hp))
  case predicted =>
    intro place x name hb
    exact absurd hb (hbefore place)
  case waiting_nodup =>
    intro s
    rw [(hnotes s).1]
    exact List.nodup_nil
  case mem_waiting_iff =>
    intro place name
    simp [(hnotes place.set).1, hbefore]
  case empty_nodup =>
    intro s
    rw [(hnotes s).2]
    exact List.nodup_nil
  case mem_empty_iff =>
    intro place name
    simp [(hnotes place.set).2, hbefore]

theorem reached_closeSets (g : Grammar) (tokens : List String) (count : Nat)
    (hcount : count ≤ tokens.length + 1) :
    Reached ((List.range count).foldl closeSet (initial g tokens)) count 0 ∧
      ((List.range count).foldl closeSet (initial g tokens)).grammar = g ∧
      ((List.range count).foldl closeSet (initial g tokens)).tokens = tokens := by
  induction count with
  | zero => exact ⟨reached_initial g tokens, rfl, rfl⟩
  | succ count ih =>
      obtain ⟨h, hg, ht⟩ := ih (by omega)
      rw [List.range_succ, List.foldl_append]
      obtain ⟨hnext, hg', ht'⟩ := reached_close _ _ 0 h (by rw [ht]; omega) (Nat.le_refl _)
      exact ⟨hnext, hg'.trans hg, ht'.trans ht⟩

-- In the finished chart all items were processed.
theorem reached_build (g : Grammar) (tokens : List String) :
    Reached (build g tokens) (tokens.length + 1) 0 ∧ (build g tokens).grammar = g ∧
      (build g tokens).tokens = tokens :=
  reached_closeSets g tokens _ (Nat.le_refl _)

end Chart

end ContextFree
