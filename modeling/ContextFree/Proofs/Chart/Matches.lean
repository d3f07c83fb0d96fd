import ContextFree.Proofs.Chart.Closure
import ContextFree.Proofs.Derivation.Paths

namespace ContextFree

-- The text is what the tokens from position `first` to position `last` spell.
structure Spans (tokens : List String) (first last : Nat) (text : List String) : Prop where
  drop_eq : tokens.drop first = text ++ tokens.drop last
  last_eq : last = first + text.length

namespace Spans

variable {tokens text others : List String} {first middle last : Nat}

theorem nil (tokens : List String) (first : Nat) : Spans tokens first first [] := ⟨rfl, rfl⟩

theorem append (left : Spans tokens first middle text) (right : Spans tokens middle last others) :
    Spans tokens first last (text ++ others) := by
  constructor
  · rw [left.drop_eq, right.drop_eq, List.append_assoc]
  · rw [right.last_eq, left.last_eq, List.length_append, Nat.add_assoc]

-- A text of two parts ends the first one somewhere.
theorem split (h : Spans tokens first last (text ++ others)) :
    Spans tokens first (first + text.length) text ∧
      Spans tokens (first + text.length) last others := by
  have hmiddle : tokens.drop (first + text.length) = others ++ tokens.drop last := by
    rw [← List.drop_drop, h.drop_eq, List.append_assoc, List.drop_left]
  refine ⟨⟨?_, rfl⟩, hmiddle, ?_⟩
  · rw [hmiddle, h.drop_eq, List.append_assoc]
  · rw [h.last_eq, List.length_append, Nat.add_assoc]

theorem singleton (token : String) :
    Spans tokens first last [token] ↔ tokens[first]? = some token ∧ last = first + 1 := by
  constructor
  · rintro ⟨hdrop, hlast⟩
    refine ⟨?_, hlast⟩
    rw [← List.head?_drop, hdrop]
    rfl
  · rintro ⟨htoken, rfl⟩
    obtain ⟨hlt, rfl⟩ := List.getElem?_eq_some_iff.mp htoken
    exact ⟨List.drop_eq_getElem_cons hlt, rfl⟩

theorem whole : Spans tokens 0 tokens.length text ↔ text = tokens := by
  constructor
  · rintro ⟨hdrop, _⟩
    simpa using hdrop.symm
  · rintro rfl
    exact ⟨by simp, by simp⟩

theorem text_eq (h : Spans tokens first last text) : text = (tokens.take last).drop first := by
  rw [h.last_eq, List.drop_take, h.drop_eq, Nat.add_sub_cancel_left, List.take_left]

theorem take_eq (h : Spans tokens first last text) :
    tokens.take last = tokens.take first ++ text := by
  rw [h.last_eq, List.take_add, h.drop_eq, List.take_left]

theorem of_take_eq (h : tokens.take last = tokens.take first ++ text) (hfirst : first ≤ last)
    (hlast : last ≤ tokens.length) : Spans tokens first last text := by
  have hlength : last = first + text.length := by
    have := congrArg List.length h
    simp only [List.length_take, List.length_append] at this
    omega
  rw [hlength, List.take_add] at h
  refine ⟨?_, hlength⟩
  calc tokens.drop first
      = (tokens.drop first).take text.length ++ (tokens.drop first).drop text.length :=
        (List.take_append_drop _ _).symm
    _ = text ++ tokens.drop last := by rw [List.append_cancel_left h, List.drop_drop, hlength]

end Spans

theorem Place.wf_before :
    WellFounded fun a b : Place => a.Before b.set b.index := by
  refine Subrelation.wf ?_ (InvImage.wf (fun place : Place => (place.set, place.index))
    (Prod.lex Nat.lt_wfRel Nat.lt_wfRel).wf)
  rintro a b (h | ⟨h, h'⟩)
  · exact .left _ _ h
  · show Prod.Lex _ _ (a.set, a.index) (b.set, b.index)
    rw [h]
    exact .right _ h'

theorem Production.eq_of_fields {p q : Production} (hlhs : p.lhs = q.lhs) (hrhs : p.rhs = q.rhs) :
    p = q := by
  obtain ⟨lhs, rhs⟩ := p
  obtain ⟨lhs', rhs'⟩ := q
  simp only at hlhs hrhs
  rw [hlhs, hrhs]

namespace Item

theorem eq_of_fields {x y : Item} (hp : x.production = y.production) (ho : x.origin = y.origin)
    (hdot : x.dot = y.dot) : x = y := by
  obtain ⟨o, d, p, _⟩ := x
  obtain ⟨o', d', p', _⟩ := y
  simp only at hp ho hdot
  subst hp ho hdot
  rfl

theorem dot_eq_length {item : Item} (h : item.isComplete = true) :
    item.dot = item.production.rhs.length := by
  simpa [isComplete] using h

end Item

namespace Chart

theorem draws_scan_iff (c : Chart) (place : Place) (s : Nat) (x : Item) :
    c.Draws (.scan place) s x ↔ ∃ y terminal, s = place.set + 1 ∧ c.item? place = some y ∧
      y.next? = some (.terminal terminal) ∧ c.tokens[place.set]? = some terminal ∧
      y.advance? = some x := by
  constructor
  · rintro ⟨found, symbol, token, advance⟩
    exact ⟨_, _, rfl, found, symbol, token, advance⟩
  · rintro ⟨y, terminal, rfl, found, symbol, token, advance⟩
    exact .scan found symbol token advance

theorem draws_complete_iff (c : Chart) (parent child : Place) (s : Nat) (x : Item) :
    c.Draws (.complete parent child) s x ↔ ∃ y inner, s = child.set ∧ c.item? parent = some y ∧
      y.next? = some (.nonterminal inner.production.lhs) ∧ c.item? child = some inner ∧
      inner.isComplete = true ∧ inner.origin = parent.set ∧ y.advance? = some x := by
  constructor
  · intro hd
    cases hd with
    | complete found symbol inside whole origin advance =>
        exact ⟨_, _, rfl, found, symbol, inside, whole, origin, advance⟩
  · rintro ⟨y, inner, rfl, found, symbol, inside, whole, origin, advance⟩
    exact .complete found symbol inside whole origin advance

-- All items of the chart were processed.
def Finished (c : Chart) : Prop := Reached c (c.tokens.length + 1) 0

theorem finished_build (g : Grammar) (tokens : List String) : (build g tokens).Finished := by
  obtain ⟨h, _, ht⟩ := reached_build g tokens
  rw [Finished, ht]
  exact h

section Finished

variable {c : Chart} (h : c.Finished)

include h

theorem set_le_of_item? {place : Place} {x : Item} (hx : c.item? place = some x) :
    place.set ≤ c.tokens.length := by
  have hsize := h.size_eq
  refine Nat.le_of_lt_succ (Nat.lt_of_not_le fun hle => ?_)
  have hnone : c.setAt place.set = .initial := by
    have : ¬ place.set < c.sets.size := by omega
    simp [setAt, this]
  simp [item?, hnone, ItemSet.initial] at hx

theorem before_of_item? {place : Place} {x : Item} (hx : c.item? place = some x) :
    place.Before (c.tokens.length + 1) 0 :=
  .inl (Nat.lt_succ_of_le (set_le_of_item? h hx))

theorem mem_edgesTo_iff (s : Nat) (x : Item) (e : Edge) :
    e ∈ (c.setAt s).edgesTo x ↔ c.Draws e s x := by
  rw [h.mem_edges_iff]
  refine and_iff_left_of_imp fun hd => ?_
  cases hd with
  | scan found _ _ _ => exact before_of_item? h found
  | complete found _ inside _ _ _ => exact ⟨before_of_item? h found, before_of_item? h inside⟩

theorem mem_edgesOf_iff {place : Place} {x : Item} (hx : c.item? place = some x) (e : Edge) :
    e ∈ c.edgesOf place ↔ c.Draws e place.set x := by
  rw [edgesOf, (h.aligned place.set).edgesOf_eq_edgesTo hx, mem_edgesTo_iff h]

theorem nodup_edgesOf {place : Place} {x : Item} (hx : c.item? place = some x) :
    (c.edgesOf place).Nodup := by
  rw [edgesOf, (h.aligned place.set).edgesOf_eq_edgesTo hx]
  exact h.edges_nodup _ _

theorem item_of_draws {e : Edge} {s : Nat} {x : Item} (hd : c.Draws e s x) :
    ∃ index, c.item? { set := s, index } = some x :=
  exists_item?_of_mem (ItemSet.mem_items_of_mem_edgesTo ((mem_edgesTo_iff h s x e).mpr hd))

-- One item is at one place of its set only.
theorem place_unique {a b : Place} {x : Item} (ha : c.item? a = some x) (hb : c.item? b = some x)
    (hset : a.set = b.set) : a = b := by
  obtain ⟨s, i⟩ := a
  obtain ⟨s', j⟩ := b
  obtain rfl : s = s' := hset
  have hindex : i = j := (h.aligned s).index_unique ha hb
  rw [hindex]

-- The dot of an item came one symbol further from an item that was processed before it.
theorem exists_predecessor {place : Place} {x : Item} (hx : c.item? place = some x)
    (hdot : x.dot ≠ 0) :
    ∃ before y, before.Before place.set place.index ∧ c.item? before = some y ∧
      x.production = y.production ∧ x.origin = y.origin := by
  obtain ⟨e, he, hbefore⟩ := h.older place x hx hdot
  have hd := (mem_edgesTo_iff h _ _ _).mp he
  cases e with
  | scan predecessor =>
      obtain ⟨y, _, _, found, _, _, advance⟩ := (draws_scan_iff c _ _ _).mp hd
      obtain ⟨hp, ho, _⟩ := Item.advance?_eq_some advance
      exact ⟨predecessor, y, hbefore, found, hp, ho⟩
  | complete predecessor child =>
      obtain ⟨y, _, _, found, _, _, _, _, advance⟩ := (draws_complete_iff c _ _ _ _).mp hd
      obtain ⟨hp, ho, _⟩ := Item.advance?_eq_some advance
      exact ⟨predecessor, y, hbefore.1, found, hp, ho⟩

-- Each item was once predicted at its origin.
theorem predicted_of_item? (place : Place) {x : Item} (hx : c.item? place = some x) :
    Item.predicted x.production x.origin ∈ (c.setAt x.origin).items := by
  induction place using Place.wf_before.induction generalizing x with
  | _ place ih =>
      by_cases hdot : x.dot = 0
      · have horigin := (h.fits _ x (mem_items_of_item? hx)).2.2 hdot
        have heq : Item.predicted x.production x.origin = x := by
          obtain ⟨o, d, p, _⟩ := x
          obtain rfl : d = 0 := hdot
          rfl
        rw [heq, horigin]
        exact mem_items_of_item? hx
      · obtain ⟨before, y, hbefore, hy, hp, ho⟩ := exists_predecessor h hx hdot
        rw [hp, ho]
        exact ih before hbefore hy

end Finished

-- The trees match the symbols in front of the dot, and the tokens up to the place.
structure Matches (c : Chart) (place : Place) (item : Item) (ts : List Tree) : Prop where
  found : c.item? place = some item
  roots : ts.map Tree.root = item.production.rhs.take item.dot
  valid : ∀ t ∈ ts, t.Valid c.grammar
  spans : Spans c.tokens item.origin place.set (Tree.yieldList ts)

-- The tree matches a complete item.
def Fits (c : Chart) (place : Place) (t : Tree) : Prop :=
  ∃ item children, t = .node item.production.lhs children ∧ item.isComplete = true ∧
    c.Matches place item children

-- What an edge adds to the trees of the item it comes from.
def Adds (c : Chart) : Edge → Place → Tree → Prop
  | .scan predecessor, before, t =>
    before = predecessor ∧ ∃ item name, c.item? predecessor = some item ∧
      item.next? = some (.terminal name) ∧ t = .leaf name
  | .complete predecessor child, before, t => before = predecessor ∧ c.Fits child t

-- The next tree of an item is added by an edge, if it stands in the tokens after the item.
theorem exists_adds {c : Chart} {before : Place} {y : Item} {t : Tree} {last : Nat}
    (hy : c.item? before = some y) (symbol : y.next? = some t.root)
    (hspan : Spans c.tokens before.set last t.yield)
    (hwhole : ∀ name, t.root = .nonterminal name → ∃ child inner, child.set = last ∧
      c.item? child = some inner ∧ inner.origin = before.set ∧ c.Fits child t) :
    ∃ e x, y.advance? = some x ∧ c.Draws e last x ∧ c.Adds e before t := by
  obtain ⟨x, advance⟩ := Item.advance?_eq_some_of_next? symbol
  cases t with
  | leaf terminal =>
      obtain ⟨token, hlast⟩ := (Spans.singleton terminal).mp hspan
      refine ⟨.scan before, x, advance, ?_, rfl, y, terminal, hy, symbol, rfl⟩
      exact (draws_scan_iff c _ _ _).mpr ⟨y, terminal, hlast, hy, symbol, token, advance⟩
  | node name children =>
      obtain ⟨child, inner, hset, inside, origin, hfits⟩ := hwhole name rfl
      refine ⟨.complete before child, x, advance, ?_, rfl, hfits⟩
      obtain ⟨z, ds, heq, whole, hz⟩ := hfits
      obtain rfl := Option.some.inj (inside.symm.trans hz.found)
      rw [Tree.root_node, (Tree.node.inj heq).1] at symbol
      exact (draws_complete_iff c _ _ _ _).mpr
        ⟨y, inner, hset.symm, hy, symbol, inside, whole, origin, advance⟩

section Finished

variable {c : Chart} (h : c.Finished)

include h

-- Over an edge that adds a tree, the trees of the item before are extended by it.
theorem matches_of_adds {e : Edge} {place before : Place} {x : Item} {t : Tree}
    (hx : c.item? place = some x) (he : e ∈ c.edgesOf place) (hadds : c.Adds e before t) :
    ∃ y, c.item? before = some y ∧ y.production = x.production ∧ y.origin = x.origin ∧
      x.dot = y.dot + 1 ∧ Spans c.tokens before.set place.set t.yield ∧
      ∀ pre, c.Matches before y pre → c.Matches place x (pre ++ [t]) := by
  have hd := (mem_edgesOf_iff h hx e).mp he
  have hstep : ∀ y : Item, y.advance? = some x → c.item? before = some y →
      y.next? = some t.root → t.Valid c.grammar → Spans c.tokens before.set place.set t.yield →
      ∀ pre, c.Matches before y pre → c.Matches place x (pre ++ [t]) := by
    intro y advance found symbol hvalid hspan pre hpre
    obtain ⟨hp, ho, hdot⟩ := Item.advance?_eq_some advance
    refine ⟨hx, ?_, ?_, ?_⟩
    · rw [hp, hdot, List.take_add_one, show y.production.rhs[y.dot]? = some t.root from symbol]
      simp [hpre.roots]
    · simp only [List.mem_append, List.mem_singleton]
      rintro u (hu | rfl)
      · exact hpre.valid u hu
      · exact hvalid
    · rw [ho, Tree.yieldList_append, Tree.yieldList_cons, Tree.yieldList_nil, List.append_nil]
      exact hpre.spans.append hspan
  cases e with
  | scan predecessor =>
      obtain ⟨y, terminal, hset, found, symbol, token, advance⟩ := (draws_scan_iff c _ _ _).mp hd
      obtain ⟨rfl, z, name, hz, hname, rfl⟩ := hadds
      obtain rfl := Option.some.inj (found.symm.trans hz)
      obtain rfl := Symbol.terminal.inj (Option.some.inj (symbol.symm.trans hname))
      obtain ⟨hp, ho, hdot⟩ := Item.advance?_eq_some advance
      have hspan := (Spans.singleton terminal).mpr ⟨token, hset⟩
      exact ⟨y, found, hp.symm, ho.symm, hdot, hspan,
        hstep y advance found symbol (.leaf terminal) hspan⟩
  | complete predecessor child =>
      obtain ⟨y, inner, hset, found, symbol, inside, whole, origin, advance⟩ :=
        (draws_complete_iff c _ _ _ _).mp hd
      obtain ⟨rfl, z, children, rfl, _, hz⟩ := hadds
      obtain rfl := Option.some.inj (inside.symm.trans hz.found)
      obtain ⟨hp, ho, hdot⟩ := Item.advance?_eq_some advance
      have hspan := hz.spans
      rw [origin, ← hset] at hspan
      refine ⟨y, found, hp.symm, ho.symm, hdot, hspan, hstep y advance found symbol ?_ hspan⟩
      refine (Tree.valid_node _ _ _).mpr ⟨?_, hz.valid⟩
      rw [hz.roots, Item.dot_eq_length whole, List.take_length]
      exact (h.fits _ _ (mem_items_of_item? inside)).1

-- Each item matches some trees. The edge it first came over leads to older items.
theorem exists_matches (place : Place) {x : Item} (hx : c.item? place = some x) :
    ∃ ts, c.Matches place x ts := by
  induction place using Place.wf_before.induction generalizing x with
  | _ place ih =>
      by_cases hdot : x.dot = 0
      · have horigin := (h.fits _ x (mem_items_of_item? hx)).2.2 hdot
        exact ⟨[], hx, by simp [hdot], by simp, by rw [horigin]; exact .nil _ _⟩
      · obtain ⟨e, he, hbefore⟩ := h.older place x hx hdot
        have hd := (mem_edgesTo_iff h _ _ _).mp he
        have hedge := (mem_edgesOf_iff h hx e).mpr hd
        have hadds : ∃ before t, before.Before place.set place.index ∧ c.Adds e before t := by
          cases e with
          | scan predecessor =>
              obtain ⟨y, name, _, found, symbol, _⟩ := (draws_scan_iff c _ _ _).mp hd
              exact ⟨predecessor, .leaf name, hbefore, rfl, y, name, found, symbol, rfl⟩
          | complete predecessor child =>
              obtain ⟨_, inner, _, _, _, inside, whole, _⟩ := (draws_complete_iff c _ _ _ _).mp hd
              obtain ⟨ts, hts⟩ := ih child hbefore.2 inside
              exact ⟨predecessor, _, hbefore.1, rfl, inner, ts, rfl, whole, hts⟩
        obtain ⟨before, t, hearlier, hadds⟩ := hadds
        obtain ⟨y, hy, _, _, _, _, hextend⟩ := matches_of_adds h hx hedge hadds
        obtain ⟨pre, hpre⟩ := ih before hearlier hy
        exact ⟨_, hextend pre hpre⟩

-- The dot of an item moves over trees that stand in the tokens after it.
theorem exists_advanced (ts : List Tree)
    (hwhole : ∀ t ∈ ts, ∀ name first last, t.root = .nonterminal name →
      (∀ p ∈ c.grammar.productionsFor name, Item.predicted p first ∈ (c.setAt first).items) →
      Spans c.tokens first last t.yield → ∃ child inner, child.set = last ∧
        c.item? child = some inner ∧ inner.origin = first ∧ c.Fits child t)
    (before : Place) (y : Item) (hy : c.item? before = some y) (rest : List Symbol)
    (hrhs : y.production.rhs.drop y.dot = ts.map Tree.root ++ rest) (last : Nat)
    (hspan : Spans c.tokens before.set last (Tree.yieldList ts)) :
    ∃ place x, place.set = last ∧ c.item? place = some x ∧ x.production = y.production ∧
      x.origin = y.origin ∧ x.dot = y.dot + ts.length := by
  induction ts generalizing before y with
  | nil =>
      have hlast := hspan.last_eq
      exact ⟨before, y, by simpa using hlast.symm, hy, rfl, rfl, rfl⟩
  | cons t ts ih =>
      have symbol : y.next? = some t.root := by
        rw [Item.next?, ← List.head?_drop, hrhs]
        rfl
      obtain ⟨hfirst, hothers⟩ := hspan.split
      obtain ⟨e, x, advance, hd, _⟩ := exists_adds hy symbol hfirst fun name hname =>
        hwhole t (by simp) name _ _ hname
          (h.predicted before y name (before_of_item? h hy) hy (hname ▸ symbol)) hfirst
      obtain ⟨index, hx⟩ := item_of_draws h hd
      obtain ⟨hp, ho, hdot⟩ := Item.advance?_eq_some advance
      obtain ⟨place, z, hset, hz, hp', ho', hdot'⟩ := ih (fun u hu => hwhole u (by simp [hu])) _ x hx
        (by rw [hp, hdot, ← List.drop_drop, hrhs]; rfl) hothers
      refine ⟨place, z, hset, hz, hp'.trans hp, ho'.trans ho, ?_⟩
      rw [hdot', hdot, List.length_cons]
      omega

-- Where a nonterminal was predicted, every tree of it that stands in the tokens is matched
-- by a complete item.
theorem exists_fits {t : Tree} (hvalid : t.Valid c.grammar) {name : String} {first last : Nat}
    (hroot : t.root = .nonterminal name)
    (hpredicted : ∀ p ∈ c.grammar.productionsFor name,
      Item.predicted p first ∈ (c.setAt first).items)
    (hspan : Spans c.tokens first last t.yield) :
    ∃ child inner, child.set = last ∧ c.item? child = some inner ∧ inner.origin = first ∧
      c.Fits child t := by
  induction t generalizing name first last with
  | leaf terminal => simp at hroot
  | node symbol children ih =>
      obtain rfl := Symbol.nonterminal.inj hroot
      obtain ⟨mem, valid⟩ := (Tree.valid_node _ _ _).mp hvalid
      have hstart := hpredicted _ ((c.grammar.mem_productionsFor _ _).mpr ⟨mem, rfl⟩)
      obtain ⟨index, hy⟩ := exists_item?_of_mem hstart
      obtain ⟨place, x, hset, hx, hp, ho, hdot⟩ := exists_advanced h children
        (fun t ht name first last hr hp hs => ih t ht (valid t ht) hr hp hs) _ _ hy []
        (by simp [Item.predicted]) last hspan
      simp only [Item.predicted, Nat.zero_add] at hp ho hdot
      refine ⟨place, x, hset, hx, ho, x, children, by rw [hp], ?_, hx, ?_, valid, ?_⟩
      · simp [Item.isComplete, hp, hdot]
      · rw [hp, hdot, ← List.length_map Tree.root, List.take_length]
      · rw [ho, hset]
        exact hspan

-- What an item with something in front of its dot matches ends with what one of its edges
-- adds, after what the item before matches.
theorem matches_iff {place : Place} {x : Item} (hx : c.item? place = some x) {dot : Nat}
    (hdot : x.dot = dot + 1) (ts : List Tree) :
    c.Matches place x ts ↔ ∃ e ∈ c.edgesOf place, ∃ before y t pre, ts = pre ++ [t] ∧
      c.Adds e before t ∧ c.Matches before y pre := by
  constructor
  · intro hm
    have hlen : ts.length = dot + 1 := by
      have := congrArg List.length hm.roots
      simp only [List.length_map, List.length_take, Nat.min_eq_left x.dot_le] at this
      omega
    obtain ⟨pre, t, rfl⟩ : ∃ pre t, ts = pre ++ [t] := by
      rcases List.eq_nil_or_concat ts with rfl | ⟨pre, t, rfl⟩
      · simp at hlen
      · exact ⟨pre, t, by simp⟩
    have hroots : x.production.rhs =
        pre.map Tree.root ++ t.root :: x.production.rhs.drop (dot + 1) := by
      have := List.take_append_drop x.dot x.production.rhs
      rw [← hm.roots, hdot] at this
      simpa using this.symm
    have hspan := hm.spans
    rw [Tree.yieldList_append] at hspan
    obtain ⟨hpre, hlast⟩ := hspan.split
    rw [Tree.yieldList_cons, Tree.yieldList_nil, List.append_nil] at hlast
    obtain ⟨index, hstart⟩ := exists_item?_of_mem (predicted_of_item? h place hx)
    obtain ⟨before, y, hset, hy, hp, ho, hydot⟩ := exists_advanced h pre
      (fun u hu name first last hr hpred hs =>
        exists_fits h (hm.valid u (by simp [hu])) hr hpred hs) _ _ hstart
      (t.root :: x.production.rhs.drop (dot + 1)) (by simpa [Item.predicted] using hroots) _ hpre
    simp only [Item.predicted, Nat.zero_add] at hp ho hydot
    rw [← hset] at hlast
    have symbol : y.next? = some t.root := by
      rw [Item.next?, hp, hydot, hroots, List.getElem?_append_right (by simp)]
      simp
    obtain ⟨e, z, advance, hd, hadds⟩ := exists_adds hy symbol hlast fun name hname =>
      exists_fits h (hm.valid t (by simp)) hname
        (h.predicted before y name (before_of_item? h hy) hy (hname ▸ symbol)) hlast
    obtain ⟨hp', ho', hdot'⟩ := Item.advance?_eq_some advance
    have hlenpre : pre.length = dot := by simpa using hlen
    obtain rfl : z = x := Item.eq_of_fields (hp'.trans hp) (ho'.trans ho) (by omega)
    refine ⟨e, (mem_edgesOf_iff h hx e).mpr hd, before, y, t, pre, rfl, hadds, hy, ?_, ?_, ?_⟩
    · rw [hp, hydot, hroots, ← List.length_map Tree.root, List.take_left]
    · exact fun u hu => hm.valid u (by simp [hu])
    · rw [ho, hset]
      exact hpre
  · rintro ⟨e, he, before, y, t, pre, rfl, hadds, hpre⟩
    obtain ⟨z, hz, _, _, _, _, hextend⟩ := matches_of_adds h hx he hadds
    obtain rfl := Option.some.inj (hz.symm.trans hpre.found)
    exact hextend pre hpre

-- A tree is a complete item of one production, so it fits at one place for each span.
theorem fits_unique {a b : Place} {x y : Item} {t : Tree} (ha : c.item? a = some x)
    (hb : c.item? b = some y) (hset : a.set = b.set) (horigin : x.origin = y.origin)
    (hfits : c.Fits a t) (hfits' : c.Fits b t) : a = b := by
  obtain ⟨u, children, rfl, whole, hu⟩ := hfits
  obtain ⟨v, ds, heq, whole', hv⟩ := hfits'
  obtain rfl := Option.some.inj (ha.symm.trans hu.found)
  obtain rfl := Option.some.inj (hb.symm.trans hv.found)
  obtain ⟨hlhs, rfl⟩ := Tree.node.inj heq
  have hrhs : x.production.rhs = y.production.rhs := by
    have h₁ := hu.roots
    have h₂ := hv.roots
    rw [Item.dot_eq_length whole, List.take_length] at h₁
    rw [Item.dot_eq_length whole', List.take_length] at h₂
    exact h₁.symm.trans h₂
  have hp := Production.eq_of_fields hlhs hrhs
  refine place_unique h ha ?_ hset
  rw [hb, Item.eq_of_fields hp horigin]
  rw [Item.dot_eq_length whole, Item.dot_eq_length whole', hrhs]

-- The edge over which a tree was added is the only one.
theorem adds_unique {place before : Place} {x : Item} {e e' : Edge} {t : Tree}
    (hx : c.item? place = some x) (he : e ∈ c.edgesOf place) (he' : e' ∈ c.edgesOf place)
    (hadds : c.Adds e before t) (hadds' : c.Adds e' before t) : e = e' := by
  have hd := (mem_edgesOf_iff h hx e).mp he
  have hd' := (mem_edgesOf_iff h hx e').mp he'
  cases e with
  | scan predecessor =>
      obtain ⟨rfl, _, _, _, _, rfl⟩ := hadds
      cases e' with
      | scan predecessor => rw [hadds'.1]
      | complete predecessor child =>
          obtain ⟨_, _, _, heq, _⟩ := hadds'
          exact absurd heq nofun
  | complete predecessor child =>
      obtain ⟨rfl, hfits⟩ := hadds
      cases e' with
      | scan predecessor =>
          obtain ⟨_, _, rfl, _⟩ := hfits
          obtain ⟨_, _, _, _, _, heq⟩ := hadds'
          simp at heq
      | complete predecessor' child' =>
          obtain ⟨rfl, hfits'⟩ := hadds'
          obtain ⟨_, inner, hset, _, _, inside, _, origin, _⟩ := (draws_complete_iff c _ _ _ _).mp hd
          obtain ⟨_, inner', hset', _, _, inside', _, origin', _⟩ :=
            (draws_complete_iff c _ _ _ _).mp hd'
          rw [fits_unique h inside inside' (hset.symm.trans hset') (origin.trans origin'.symm)
            hfits hfits']

-- So is the item before that matches the other trees.
theorem before_unique {place before before' : Place} {x y y' : Item} {e e' : Edge} {t : Tree}
    {pre : List Tree} (hx : c.item? place = some x) (he : e ∈ c.edgesOf place)
    (he' : e' ∈ c.edgesOf place) (hadds : c.Adds e before t) (hadds' : c.Adds e' before' t)
    (hm : c.Matches before y pre) (hm' : c.Matches before' y' pre) : before = before' := by
  obtain ⟨z, hz, hp, ho, hdot, _⟩ := matches_of_adds h hx he hadds
  obtain ⟨z', hz', hp', ho', hdot', _⟩ := matches_of_adds h hx he' hadds'
  obtain rfl := Option.some.inj (hz.symm.trans hm.found)
  obtain rfl := Option.some.inj (hz'.symm.trans hm'.found)
  have hsame : z = z' := Item.eq_of_fields (hp.trans hp'.symm) (ho.trans ho'.symm) (by omega)
  refine place_unique h hz (hsame ▸ hz') ?_
  rw [hm.spans.last_eq, hm'.spans.last_eq, hsame]

end Finished

end Chart

end ContextFree
