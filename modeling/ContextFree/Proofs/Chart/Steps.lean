import ContextFree.Chart.Build
import ContextFree.Proofs.Chart.Sets
import Mathlib.Data.List.Nodup

namespace ContextFree

-- The item at the place is processed before the one at `index` in the set `position`.
def Place.Before (place : Place) (position index : Nat) : Prop :=
  place.set < position ∨ place.set = position ∧ place.index < index

-- So are the items that the edge leads to.
def Edge.Before : Edge → Nat → Nat → Prop
  | .scan predecessor, position, index => predecessor.Before position index
  | .complete predecessor child, position, index =>
    predecessor.Before position index ∧ child.Before position index

theorem Place.before_succ_iff (place : Place) (position index : Nat) :
    place.Before position (index + 1) ↔
      place.Before position index ∨ place = { set := position, index } := by
  obtain ⟨set, i⟩ := place
  simp only [Before, Place.mk.injEq]
  omega

theorem Place.Before.mono {place : Place} {position index later last : Nat}
    (h : place.Before position index) (hle : position < later ∨ position = later ∧ index ≤ last) :
    place.Before later last := by
  unfold Before at *
  omega

theorem Edge.Before.mono {e : Edge} {position index later last : Nat}
    (h : e.Before position index) (hle : position < later ∨ position = later ∧ index ≤ last) :
    e.Before later last := by
  cases e with
  | scan predecessor => exact Place.Before.mono h hle
  | complete predecessor child => exact ⟨h.1.mono hle, h.2.mono hle⟩

theorem Place.Before.succ {place : Place} {position index : Nat}
    (h : place.Before position index) : place.Before position (index + 1) :=
  h.mono (.inr ⟨rfl, Nat.le_succ index⟩)

theorem Edge.Before.succ {e : Edge} {position index : Nat} (h : e.Before position index) :
    e.Before position (index + 1) :=
  h.mono (.inr ⟨rfl, Nat.le_succ index⟩)

theorem Place.not_before_self (position index : Nat) :
    ¬ Place.Before { set := position, index } position index := by
  simp [Before]

theorem Item.advance?_eq_some {item next : Item} (h : item.advance? = some next) :
    next.production = item.production ∧ next.origin = item.origin ∧ next.dot = item.dot + 1 := by
  unfold advance? ofDot? at h
  split at h
  · obtain rfl := Option.some.inj h
    exact ⟨rfl, rfl, rfl⟩
  · simp at h

namespace Chart

-- The edge leads to an item of a set: the dot of another item moves over the next token
-- or over the nonterminal that a complete item matches.
inductive Draws (c : Chart) : Edge → Nat → Item → Prop where
  | scan {place : Place} {item next : Item} {terminal : String}
      (found : c.item? place = some item) (symbol : item.next? = some (.terminal terminal))
      (token : c.tokens[place.set]? = some terminal) (advance : item.advance? = some next) :
      Draws c (.scan place) (place.set + 1) next
  | complete {parent child : Place} {item inner next : Item}
      (found : c.item? parent = some item)
      (symbol : item.next? = some (.nonterminal inner.production.lhs))
      (inside : c.item? child = some inner) (whole : inner.isComplete = true)
      (origin : inner.origin = parent.set) (advance : item.advance? = some next) :
      Draws c (.complete parent child) child.set next

-- One set of the chart is changed and nothing else.
structure Updated (c next : Chart) (position : Nat) (f : ItemSet → ItemSet) : Prop where
  grammar_eq : next.grammar = c.grammar
  tokens_eq : next.tokens = c.tokens
  size_eq : next.sets.size = c.sets.size
  setAt_eq : ∀ s, next.setAt s = if s = position then f (c.setAt s) else c.setAt s

theorem updated_update (c : Chart) {position : Nat} (h : position < c.sets.size)
    (f : ItemSet → ItemSet) : Updated c (c.update position f) position f := by
  refine ⟨rfl, rfl, by simp [update], fun s => ?_⟩
  simp only [setAt, update, Array.getD_eq_getD_getElem?, Array.getElem?_modify]
  by_cases hs : position = s
  · subst hs
    simp [h]
  · simp [hs, Ne.symm hs]

theorem updated_self (c : Chart) (position : Nat) {f : ItemSet → ItemSet}
    (h : f (c.setAt position) = c.setAt position) : Updated c c position f := by
  refine ⟨rfl, rfl, rfl, fun s => ?_⟩
  split
  · rename_i hs
    rw [hs, h]
  · rfl

theorem Updated.trans {c next last : Chart} {position : Nat} {f f' : ItemSet → ItemSet}
    (first : Updated c next position f) (second : Updated next last position f') :
    Updated c last position (fun s => f' (f s)) := by
  refine ⟨second.grammar_eq.trans first.grammar_eq, second.tokens_eq.trans first.tokens_eq,
    second.size_eq.trans first.size_eq, fun s => ?_⟩
  rw [second.setAt_eq, first.setAt_eq]
  split <;> rfl

theorem Updated.setAt_self {c next : Chart} {position : Nat} {f : ItemSet → ItemSet}
    (h : Updated c next position f) : next.setAt position = f (c.setAt position) := by
  simp [h.setAt_eq]

theorem Updated.extends {c next : Chart} {position : Nat} {f : ItemSet → ItemSet}
    (h : Updated c next position f) (hf : (c.setAt position).Extends (f (c.setAt position)))
    (s : Nat) : (c.setAt s).Extends (next.setAt s) := by
  rw [h.setAt_eq]
  split
  · rename_i hs
    rw [hs]
    exact hf
  · exact .refl _

-- What is known of a chart when it is the turn of one item. The edges are all those, and
-- only those, that the items processed before have drawn, each once.
structure Reached (c : Chart) (position index : Nat) : Prop where
  size_eq : c.sets.size = c.tokens.length + 1
  index_le : index ≤ (c.setAt position).size
  aligned : ∀ s, (c.setAt s).Aligned
  fits : ∀ s, ∀ x ∈ (c.setAt s).items,
    x.production ∈ c.grammar.productions ∧ x.origin ≤ s ∧ (x.dot = 0 → x.origin = s)
  edges_nodup : ∀ s x, ((c.setAt s).edgesTo x).Nodup
  mem_edges_iff : ∀ s x e,
    e ∈ (c.setAt s).edgesTo x ↔ c.Draws e s x ∧ e.Before position index
  -- an item with something in front of its dot came over an edge
  older : ∀ place x, c.item? place = some x → x.dot ≠ 0 →
    ∃ e ∈ (c.setAt place.set).edgesTo x, e.Before place.set place.index
  -- an item with nothing in front of it is for the start symbol, or another one waited for it
  prompted : ∀ place x, c.item? place = some x → x.dot = 0 →
    (place.set = 0 ∧ x.production.lhs = c.grammar.start) ∨
      ∃ other y, other.set = place.set ∧ other.Before place.set place.index ∧
        c.item? other = some y ∧ y.next? = some (.nonterminal x.production.lhs)
  start : ∀ p ∈ c.grammar.productionsFor c.grammar.start,
    Item.predicted p 0 ∈ (c.setAt 0).items
  predicted : ∀ place x name, place.Before position index → c.item? place = some x →
    x.next? = some (.nonterminal name) → ∀ p ∈ c.grammar.productionsFor name,
      Item.predicted p place.set ∈ (c.setAt place.set).items
  waiting_nodup : ∀ s, (c.setAt s).waiting.Nodup
  mem_waiting_iff : ∀ (place : Place) name, (name, place.index) ∈ (c.setAt place.set).waiting ↔
    place.Before position index ∧
      ∃ x, c.item? place = some x ∧ x.next? = some (.nonterminal name)
  empty_nodup : ∀ s, (c.setAt s).empty.Nodup
  mem_empty_iff : ∀ (place : Place) name, (name, place.index) ∈ (c.setAt place.set).empty ↔
    place.Before position index ∧ ∃ x, c.item? place = some x ∧ x.isComplete = true ∧
      x.production.lhs = name ∧ x.origin = place.set

-- The news in the set `target` are what the item adds whose turn it is.
structure Consequences (c : Chart) (position index : Nat) (item : Item) (target : Nat)
    (news : ItemSet.News) : Prop where
  target_eq : target = position ∨ target = position + 1
  arrivals_nodup : news.arrivals.Nodup
  mem_arrivals_iff : ∀ s x e, s = target ∧ (x, e) ∈ news.arrivals ↔
    c.Draws e s x ∧ e.Before position (index + 1) ∧ ¬ e.Before position index
  fresh : ∀ x ∈ news.predictions,
    x.production ∈ c.grammar.productions ∧ x.dot = 0 ∧ x.origin = target ∧
      item.next? = some (.nonterminal x.production.lhs)
  predicted : ∀ name, item.next? = some (.nonterminal name) →
    ∀ p ∈ c.grammar.productionsFor name,
      target = position ∧ Item.predicted p position ∈ news.predictions
  waiting_nodup : news.waiting.Nodup
  mem_waiting_iff : ∀ (place : Place) name,
    place.set = target ∧ (name, place.index) ∈ news.waiting ↔
      place = { set := position, index } ∧ item.next? = some (.nonterminal name)
  empty_nodup : news.empty.Nodup
  mem_empty_iff : ∀ (place : Place) name,
    place.set = target ∧ (name, place.index) ∈ news.empty ↔
      place = { set := position, index } ∧ item.isComplete = true ∧
        item.production.lhs = name ∧ item.origin = position

theorem mem_items_of_item? {c : Chart} {place : Place} {x : Item} (h : c.item? place = some x) :
    x ∈ (c.setAt place.set).items := Array.mem_of_getElem? h

theorem exists_item?_of_mem {c : Chart} {s : Nat} {x : Item} (h : x ∈ (c.setAt s).items) :
    ∃ index, c.item? { set := s, index } = some x := Array.mem_iff_getElem?.mp h

theorem Reached.fits_of_draws {c : Chart} {position index : Nat} (h : Reached c position index)
    {e : Edge} {s : Nat} {x : Item} (hd : c.Draws e s x) :
    x.production ∈ c.grammar.productions ∧ x.origin ≤ s ∧ x.dot ≠ 0 := by
  cases hd with
  | scan found symbol token advance =>
      obtain ⟨hp, ho, hdot⟩ := Item.advance?_eq_some advance
      have hfits := h.fits _ _ (mem_items_of_item? found)
      rw [hp, ho, hdot]
      exact ⟨hfits.1, Nat.le_succ_of_le hfits.2.1, Nat.succ_ne_zero _⟩
  | complete found symbol inside whole origin advance =>
      obtain ⟨hp, ho, hdot⟩ := Item.advance?_eq_some advance
      have hfits := h.fits _ _ (mem_items_of_item? found)
      have hinner := h.fits _ _ (mem_items_of_item? inside)
      rw [hp, ho, hdot]
      refine ⟨hfits.1, ?_, Nat.succ_ne_zero _⟩
      exact Nat.le_trans hfits.2.1 (origin ▸ hinner.2.1)

section Absorb

variable {c next : Chart} {position index : Nat} {item : Item} {target : Nat}
  {news : ItemSet.News} (h : Reached c position index)
  (hitem : c.item? { set := position, index } = some item)
  (hnews : Consequences c position index item target news)
  (hnext : Updated c next target (·.absorb news))

include h hnext

theorem extends_of_absorb (s : Nat) : (c.setAt s).Extends (next.setAt s) :=
  hnext.extends (ItemSet.extends_absorb (h.aligned target) news) s

theorem aligned_of_absorb (s : Nat) : (next.setAt s).Aligned := by
  rw [hnext.setAt_eq]
  split
  · exact (h.aligned s).absorb news
  · exact h.aligned s

theorem mem_items_of_absorb (s : Nat) (x : Item) :
    x ∈ (next.setAt s).items ↔ x ∈ (c.setAt s).items ∨
      (s = target ∧ (x ∈ news.predictions ∨ ∃ e, (x, e) ∈ news.arrivals)) := by
  rw [hnext.setAt_eq]
  by_cases hs : s = target
  · simp [hs, ItemSet.mem_absorb (h.aligned target), or_assoc]
  · simp [hs]

theorem edgesTo_of_absorb (s : Nat) (x : Item) :
    (next.setAt s).edgesTo x = (c.setAt s).edgesTo x ++
      if s = target then (news.arrivals.filter fun a => a.1 = x).map Prod.snd else [] := by
  rw [hnext.setAt_eq]
  by_cases hs : s = target
  · simp [hs, ItemSet.edgesTo_absorb (h.aligned target)]
  · simp [hs]

theorem waiting_of_absorb (s : Nat) :
    (next.setAt s).waiting = (c.setAt s).waiting ++ if s = target then news.waiting else [] := by
  rw [hnext.setAt_eq]
  by_cases hs : s = target
  · simp [hs, ItemSet.waiting_absorb (h.aligned target)]
  · simp [hs]

theorem empty_of_absorb (s : Nat) :
    (next.setAt s).empty = (c.setAt s).empty ++ if s = target then news.empty else [] := by
  rw [hnext.setAt_eq]
  by_cases hs : s = target
  · simp [hs, ItemSet.empty_absorb (h.aligned target)]
  · simp [hs]

include hnews

theorem mem_edgesTo_of_absorb (s : Nat) (x : Item) (e : Edge) :
    e ∈ (next.setAt s).edgesTo x ↔ e ∈ (c.setAt s).edgesTo x ∨
      (c.Draws e s x ∧ e.Before position (index + 1) ∧ ¬ e.Before position index) := by
  rw [edgesTo_of_absorb h hnext, List.mem_append, ← hnews.mem_arrivals_iff]
  by_cases hs : s = target
  · simp [hs]
  · simp [hs]

include hitem

-- What was processed before stays where it was, and the item itself does, too.
theorem item?_of_absorb (place : Place) (hplace : place.Before position (index + 1)) :
    next.item? place = c.item? place := by
  rcases hplace with hlt | ⟨hset, hlt⟩
  · have : place.set ≠ target := by
      rcases hnews.target_eq with ht | ht <;> omega
    simp [item?, hnext.setAt_eq, this]
  · have hsize : index < (c.setAt position).items.size :=
      (Array.getElem?_eq_some_iff.mp hitem).1
    have hplace : place.index < (c.setAt place.set).items.size := by
      rw [hset]
      omega
    rw [item?, item?, Array.getElem?_eq_getElem hplace]
    exact extends_of_absorb h hnext place.set _ _ (Array.getElem?_eq_getElem hplace)

theorem draws_of_absorb {e : Edge} (he : e.Before position (index + 1)) (s : Nat) (x : Item) :
    next.Draws e s x ↔ c.Draws e s x := by
  have hstays {place : Place} := item?_of_absorb h hitem hnews hnext place
  constructor
  · intro hd
    cases hd with
    | scan found symbol token advance =>
        rw [hstays he] at found
        rw [hnext.tokens_eq] at token
        exact .scan found symbol token advance
    | complete found symbol inside whole origin advance =>
        rw [hstays he.1] at found
        rw [hstays he.2] at inside
        exact .complete found symbol inside whole origin advance
  · intro hd
    cases hd with
    | scan found symbol token advance =>
        rw [← hstays he] at found
        rw [← hnext.tokens_eq] at token
        exact .scan found symbol token advance
    | complete found symbol inside whole origin advance =>
        rw [← hstays he.1] at found
        rw [← hstays he.2] at inside
        exact .complete found symbol inside whole origin advance

-- A new item stands behind all that was processed.
theorem item?_or_news (place : Place) (x : Item) (hx : next.item? place = some x) :
    c.item? place = some x ∨ (place.set = target ∧
      (x ∈ news.predictions ∨ ∃ e, (x, e) ∈ news.arrivals) ∧
        Place.Before { set := position, index } place.set place.index) := by
  by_cases hold : x ∈ (c.setAt place.set).items
  · left
    obtain ⟨i, hi⟩ := exists_item?_of_mem hold
    have hindex : i = place.index := (aligned_of_absorb h hnext place.set).index_unique
      (extends_of_absorb h hnext _ _ _ hi) hx
    rw [hindex] at hi
    exact hi
  · right
    have hsize : (c.setAt place.set).items.size ≤ place.index := by
      refine Nat.le_of_not_lt fun hlt => hold ?_
      have := extends_of_absorb h hnext place.set _ _ (Array.getElem?_eq_getElem hlt)
      rw [show (next.setAt place.set).items[place.index]? = some x from hx] at this
      rw [Option.some.inj this]
      exact Array.getElem_mem hlt
    obtain ⟨hset, hnew⟩ := ((mem_items_of_absorb h hnext _ _).mp (mem_items_of_item? hx)).resolve_left
      hold
    refine ⟨hset, hnew, ?_⟩
    have hlt : index < (c.setAt position).items.size := (Array.getElem?_eq_some_iff.mp hitem).1
    rcases hnews.target_eq with ht | ht
    · rw [hset.trans ht] at hsize
      exact .inr ⟨(hset.trans ht).symm, Nat.lt_of_lt_of_le hlt hsize⟩
    · exact .inl (by simp only; omega)

-- So the edge it came over is older.
theorem older_of_absorb (place : Place) (x : Item) (hx : next.item? place = some x)
    (hdot : x.dot ≠ 0) :
    ∃ e ∈ (next.setAt place.set).edgesTo x, e.Before place.set place.index := by
  rcases item?_or_news h hitem hnews hnext place x hx with
    hold | ⟨hset, hpredicted | ⟨e, he⟩, hbehind⟩
  · obtain ⟨e, he, hbefore⟩ := h.older place x hold hdot
    exact ⟨e, (mem_edgesTo_of_absorb h hnews hnext _ x e).mpr (.inl he), hbefore⟩
  · exact absurd (hnews.fresh x hpredicted).2.1 hdot
  · have harrival := (hnews.mem_arrivals_iff place.set x e).mp ⟨hset, he⟩
    exact ⟨e, (mem_edgesTo_of_absorb h hnews hnext _ x e).mpr (.inr harrival),
      harrival.2.1.mono hbehind⟩

-- And the item that waited for it is older.
theorem prompted_of_absorb (place : Place) (x : Item) (hx : next.item? place = some x)
    (hdot : x.dot = 0) :
    (place.set = 0 ∧ x.production.lhs = next.grammar.start) ∨
      ∃ other y, other.set = place.set ∧ other.Before place.set place.index ∧
        next.item? other = some y ∧ y.next? = some (.nonterminal x.production.lhs) := by
  rw [hnext.grammar_eq]
  rcases item?_or_news h hitem hnews hnext place x hx with
    hold | ⟨hset, hpredicted | ⟨e, he⟩, hbehind⟩
  · refine (h.prompted place x hold hdot).imp_right ?_
    rintro ⟨other, y, hother, hbefore, hy, symbol⟩
    exact ⟨other, y, hother, hbefore, extends_of_absorb h hnext _ _ _ hy, symbol⟩
  · right
    obtain ⟨mem, _, _, symbol⟩ := hnews.fresh x hpredicted
    have htarget := (hnews.predicted _ symbol x.production
      ((c.grammar.mem_productionsFor _ _).mpr ⟨mem, rfl⟩)).1
    exact ⟨{ set := position, index }, item, (hset.trans htarget).symm, hbehind,
      extends_of_absorb h hnext _ _ _ hitem, symbol⟩
  · exact absurd hdot (h.fits_of_draws ((hnews.mem_arrivals_iff _ x e).mp ⟨hset, he⟩).1).2.2

-- The notes on processed items are extended by those on the item itself.
theorem notes_of_absorb (place : Place) (P : Item → Prop) {old new : Prop}
    (hold : old ↔ place.Before position index ∧ ∃ x, c.item? place = some x ∧ P x)
    (hnew : new ↔ place = { set := position, index } ∧ P item) :
    old ∨ new ↔ place.Before position (index + 1) ∧ ∃ x, next.item? place = some x ∧ P x := by
  have hstays := item?_of_absorb h hitem hnews hnext place
  rw [hold, hnew]
  constructor
  · rintro (⟨hbefore, hx⟩ | ⟨rfl, hx⟩)
    · exact ⟨hbefore.succ, by rwa [hstays hbefore.succ]⟩
    · have hbefore := (Place.before_succ_iff { set := position, index } _ _).mpr (.inr rfl)
      exact ⟨hbefore, item, by rw [hstays hbefore, hitem], hx⟩
  · rintro ⟨hbefore, hx⟩
    rw [hstays hbefore] at hx
    rcases (place.before_succ_iff _ _).mp hbefore with hearlier | rfl
    · exact .inl ⟨hearlier, hx⟩
    · obtain ⟨x, hx, hP⟩ := hx
      obtain rfl := Option.some.inj (hitem.symm.trans hx)
      exact .inr ⟨rfl, hP⟩

omit hitem in
theorem fits_of_absorb (s : Nat) (x : Item) (hx : x ∈ (next.setAt s).items) :
    x.production ∈ next.grammar.productions ∧ x.origin ≤ s ∧ (x.dot = 0 → x.origin = s) := by
  rw [hnext.grammar_eq]
  rcases (mem_items_of_absorb h hnext s x).mp hx with hold | ⟨rfl, hpredicted | ⟨e, he⟩⟩
  · exact h.fits s x hold
  · obtain ⟨hp, hdot, ho, _⟩ := hnews.fresh x hpredicted
    exact ⟨hp, Nat.le_of_eq ho, fun _ => ho⟩
  · obtain ⟨hp, ho, hdot⟩ := h.fits_of_draws ((hnews.mem_arrivals_iff s x e).mp ⟨rfl, he⟩).1
    exact ⟨hp, ho, fun h => absurd h hdot⟩

omit hitem in
theorem nodup_edgesTo_of_absorb (s : Nat) (x : Item) : ((next.setAt s).edgesTo x).Nodup := by
  rw [edgesTo_of_absorb h hnext, List.nodup_append']
  refine ⟨h.edges_nodup s x, ?_, ?_⟩
  · split
    · refine List.Nodup.map_on ?_ (hnews.arrivals_nodup.filter _)
      rintro ⟨y, e⟩ hy ⟨z, f⟩ hz rfl
      simp only [List.mem_filter, decide_eq_true_eq] at hy hz
      rw [hy.2, hz.2]
    · exact List.nodup_nil
  · -- the old edges were drawn before, the new ones were not
    intro e hold hnew
    split at hnew
    · rename_i hs
      obtain ⟨⟨y, f⟩, hm, rfl⟩ := List.mem_map.mp hnew
      have harrival := (hnews.mem_arrivals_iff s y f).mp ⟨hs, (List.mem_filter.mp hm).1⟩
      exact harrival.2.2 ((h.mem_edges_iff s x f).mp hold).2
    · simp at hnew

theorem mem_edgesTo_iff_of_absorb (s : Nat) (x : Item) (e : Edge) :
    e ∈ (next.setAt s).edgesTo x ↔ next.Draws e s x ∧ e.Before position (index + 1) := by
  rw [mem_edgesTo_of_absorb h hnews hnext, h.mem_edges_iff]
  constructor
  · rintro (⟨hd, hbefore⟩ | ⟨hd, hbefore, _⟩)
    · exact ⟨(draws_of_absorb h hitem hnews hnext hbefore.succ s x).mpr hd, hbefore.succ⟩
    · exact ⟨(draws_of_absorb h hitem hnews hnext hbefore s x).mpr hd, hbefore⟩
  · rintro ⟨hd, hbefore⟩
    have hd := (draws_of_absorb h hitem hnews hnext hbefore s x).mp hd
    by_cases hearlier : e.Before position index
    · exact .inl ⟨hd, hearlier⟩
    · exact .inr ⟨hd, hbefore, hearlier⟩

theorem predicted_of_absorb (place : Place) (x : Item) (name : String)
    (hbefore : place.Before position (index + 1)) (hx : next.item? place = some x)
    (hsymbol : x.next? = some (.nonterminal name)) (p : Production)
    (hp : p ∈ next.grammar.productionsFor name) :
    Item.predicted p place.set ∈ (next.setAt place.set).items := by
  rw [hnext.grammar_eq] at hp
  rw [item?_of_absorb h hitem hnews hnext place hbefore] at hx
  rcases (place.before_succ_iff _ _).mp hbefore with hearlier | rfl
  · exact (extends_of_absorb h hnext _).mem (h.predicted place x name hearlier hx hsymbol p hp)
  · obtain rfl := Option.some.inj (hitem.symm.trans hx)
    obtain ⟨ht, hm⟩ := hnews.predicted name hsymbol p hp
    exact (mem_items_of_absorb h hnext _ _).mpr (.inr ⟨ht.symm, .inl hm⟩)

omit h hitem hnews hnext in
-- What is noted on the item itself was not noted before.
theorem nodup_notes {s : Nat} {old new : List (String × Nat)} (hold : old.Nodup)
    (hnew : new.Nodup)
    (hearlier : ∀ name i, (name, i) ∈ old → Place.Before { set := s, index := i } position index)
    (hself : ∀ name i, s = target ∧ (name, i) ∈ new →
      ({ set := s, index := i } : Place) = { set := position, index }) :
    (old ++ if s = target then new else []).Nodup := by
  split
  · rename_i hs
    rw [List.nodup_append']
    refine ⟨hold, hnew, ?_⟩
    rintro ⟨name, i⟩ hm hm'
    exact Place.not_before_self position index (hself name i ⟨hs, hm'⟩ ▸ hearlier name i hm)
  · rwa [List.append_nil]

-- With the consequences of one item drawn, it is the turn of the next one.
theorem Reached.absorb : Reached next position (index + 1) := by
  have hself : next.item? { set := position, index } = some item := by
    rw [item?_of_absorb h hitem hnews hnext _ ((Place.before_succ_iff _ _ _).mpr (.inr rfl)), hitem]
  constructor
  case size_eq => rw [hnext.size_eq, hnext.tokens_eq, h.size_eq]
  case index_le => exact (Array.getElem?_eq_some_iff.mp hself).1
  case aligned => exact aligned_of_absorb h hnext
  case fits => exact fits_of_absorb h hnews hnext
  case edges_nodup => exact nodup_edgesTo_of_absorb h hnews hnext
  case mem_edges_iff => exact mem_edgesTo_iff_of_absorb h hitem hnews hnext
  case older => exact older_of_absorb h hitem hnews hnext
  case prompted => exact prompted_of_absorb h hitem hnews hnext
  case start =>
    intro p hp
    rw [hnext.grammar_eq] at hp
    exact (extends_of_absorb h hnext 0).mem (h.start p hp)
  case predicted => exact predicted_of_absorb h hitem hnews hnext
  case waiting_nodup =>
    intro s
    rw [waiting_of_absorb h hnext]
    exact nodup_notes (h.waiting_nodup s) hnews.waiting_nodup
      (fun name i hm => ((h.mem_waiting_iff { set := s, index := i } name).mp hm).1)
      fun name i hm => ((hnews.mem_waiting_iff { set := s, index := i } name).mp hm).1
  case mem_waiting_iff =>
    intro place name
    rw [waiting_of_absorb h hnext, List.mem_append]
    refine notes_of_absorb h hitem hnews hnext place _ (h.mem_waiting_iff place name) ?_
    rw [← hnews.mem_waiting_iff]
    by_cases hs : place.set = target <;> simp [hs]
  case empty_nodup =>
    intro s
    rw [empty_of_absorb h hnext]
    exact nodup_notes (h.empty_nodup s) hnews.empty_nodup
      (fun name i hm => ((h.mem_empty_iff { set := s, index := i } name).mp hm).1)
      fun name i hm => ((hnews.mem_empty_iff { set := s, index := i } name).mp hm).1
  case mem_empty_iff =>
    intro place name
    rw [empty_of_absorb h hnext, List.mem_append]
    refine notes_of_absorb h hitem hnews hnext place (fun x => x.isComplete = true ∧
      x.production.lhs = name ∧ x.origin = place.set) (h.mem_empty_iff place name) ?_
    rw [show (place = { set := position, index } ∧ item.isComplete = true ∧
        item.production.lhs = name ∧ item.origin = place.set) ↔
        (place = { set := position, index } ∧ item.isComplete = true ∧
          item.production.lhs = name ∧ item.origin = position) from
      and_congr_right fun hself => by rw [hself], ← hnews.mem_empty_iff]
    by_cases hs : place.set = target <;> simp [hs]

end Absorb

end Chart

end ContextFree
