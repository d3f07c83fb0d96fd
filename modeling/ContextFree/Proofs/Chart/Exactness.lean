import ContextFree.Proofs.Chart.Matches
import ContextFree.Proofs.Derivation.Forms

namespace ContextFree

namespace Chart

section Finished

variable {c : Chart} (h : c.Finished)

include h

-- What is in front of the dot derives the tokens from the origin to the place.
theorem derives_of_item? {place : Place} {x : Item} (hx : c.item? place = some x) :
    ∃ text, Spans c.tokens x.origin place.set text ∧
      Derives c.grammar (x.production.rhs.take x.dot) (sentence text) := by
  obtain ⟨ts, hts⟩ := exists_matches h place hx
  exact ⟨_, hts.spans, hts.roots ▸ Tree.derives_all hts.valid⟩

-- The left side of an item is called for at its origin. The item that waited for it there is
-- older, and its own left side is called for where it begins.
theorem called_of_item? (place : Place) {x : Item} (hx : c.item? place = some x) :
    ∃ after, Derives c.grammar [.nonterminal c.grammar.start]
      (sentence (c.tokens.take x.origin) ++ .nonterminal x.production.lhs :: after) := by
  induction place using Place.wf_before.induction generalizing x with
  | _ place ih =>
      by_cases hdot : x.dot = 0
      · have horigin := (h.fits _ x (mem_items_of_item? hx)).2.2 hdot
        rcases h.prompted place x hx hdot with ⟨hset, hlhs⟩ | ⟨other, y, hset, hbefore, hy, symbol⟩
        · refine ⟨[], ?_⟩
          rw [horigin, hset, hlhs]
          exact .refl _
        · obtain ⟨after, hcalled⟩ := ih other hbefore hy
          obtain ⟨text, hspan, hderives⟩ := derives_of_item? h hy
          have mem := (h.fits _ y (mem_items_of_item? hy)).1
          rw [horigin, ← hset, hspan.take_eq]
          exact hcalled.called_inner mem symbol hderives
      · obtain ⟨before, y, hbefore, hy, hp, ho⟩ := exists_predecessor h hx hdot
        rw [hp, ho]
        exact ih before hbefore hy

-- What stands behind the dot of an item is predicted wherever it can come to stand.
theorem predicted_of_opens {form : List Symbol} {text : List String} {name : String}
    (hopens : Opens c.grammar form text name) (place : Place) {y : Item}
    (hy : c.item? place = some y) (hform : y.production.rhs.drop y.dot = form) {last : Nat}
    (hspan : Spans c.tokens place.set last text) :
    ∀ p ∈ c.grammar.productionsFor name, Item.predicted p last ∈ (c.setAt last).items := by
  induction hopens generalizing place y with
  | here name after =>
      have symbol : y.next? = some (.nonterminal name) := by
        rw [Item.next?, ← List.head?_drop, hform]
        rfl
      have hlast : last = place.set := by simpa using hspan.last_eq
      rw [hlast]
      exact h.predicted place y name (before_of_item? h hy) hy symbol
  | @skip form _ _ t valid _ ih =>
      obtain ⟨hfirst, hrest⟩ := hspan.split
      obtain ⟨next, x, hset, hx, hp, _, hdot⟩ := exists_advanced h [t]
        (fun u hu name first last hroot hpredicted hs =>
          exists_fits h (List.mem_singleton.mp hu ▸ valid) hroot hpredicted hs)
        place y hy form (by simpa using hform) _ (by simpa using hfirst)
      refine ih next hx ?_ (hset ▸ hrest)
      rw [hp, hdot, ← List.drop_drop, hform]
      rfl
  | @inside p _ _ mem _ after ih =>
      have symbol : y.next? = some (.nonterminal p.lhs) := by
        rw [Item.next?, ← List.head?_drop, hform]
        rfl
      obtain ⟨index, hx⟩ := exists_item?_of_mem (h.predicted place y p.lhs (before_of_item? h hy) hy
        symbol p ((c.grammar.mem_productionsFor _ _).mpr ⟨mem, rfl⟩))
      exact ih _ hx rfl hspan

theorem predicted_of_called {first : Nat} (hfirst : first ≤ c.tokens.length) {name : String}
    {after : List Symbol} (hcalled : Derives c.grammar [.nonterminal c.grammar.start]
      (sentence (c.tokens.take first) ++ .nonterminal name :: after)) :
    ∀ p ∈ c.grammar.productionsFor name, Item.predicted p first ∈ (c.setAt first).items := by
  have hspan : Spans c.tokens 0 first (c.tokens.take first) :=
    .of_take_eq (by simp) (Nat.zero_le _) hfirst
  have hopens := Opens.of_derives hcalled
  generalize hform : [Symbol.nonterminal c.grammar.start] = form at hopens
  generalize c.tokens.take first = text at hopens hspan
  cases hopens with
  | here =>
      obtain ⟨rfl, _⟩ : c.grammar.start = name ∧ _ := by simpa using hform
      obtain rfl : first = 0 := by simpa using hspan.last_eq
      exact h.start
  | skip _ opens =>
      rw [← (List.cons.inj hform).2] at opens
      nomatch opens
  | inside mem opens =>
      have hlhs := (Symbol.nonterminal.inj (List.cons.inj hform).1).symm
      obtain ⟨index, hx⟩ := exists_item?_of_mem
        (h.start _ ((c.grammar.mem_productionsFor _ _).mpr ⟨mem, hlhs⟩))
      exact predicted_of_opens h opens _ hx rfl hspan

-- An item is in a set if its left side can come to stand at its origin and what is in front
-- of its dot derives the tokens from there.
theorem mem_items_iff (last : Nat) (x : Item) :
    x ∈ (c.setAt last).items ↔ x.production ∈ c.grammar.productions ∧ x.origin ≤ last ∧
      last ≤ c.tokens.length ∧
      Derives c.grammar (x.production.rhs.take x.dot)
        (sentence ((c.tokens.take last).drop x.origin)) ∧
      ∃ after, Derives c.grammar [.nonterminal c.grammar.start]
        (sentence (c.tokens.take x.origin) ++ .nonterminal x.production.lhs :: after) := by
  constructor
  · intro hm
    obtain ⟨index, hx⟩ := exists_item?_of_mem hm
    obtain ⟨mem, horigin, _⟩ := h.fits last x hm
    obtain ⟨text, hspan, hderives⟩ := derives_of_item? h hx
    refine ⟨mem, horigin, set_le_of_item? h hx, ?_, called_of_item? h _ hx⟩
    rwa [← hspan.text_eq]
  · rintro ⟨mem, horigin, hlast, hderives, after, hcalled⟩
    obtain ⟨ts, hroots, hvalid, hyield⟩ := Tree.derives_sentence_iff.mp hderives
    have hspan : Spans c.tokens x.origin last (Tree.yieldList ts) := by
      refine .of_take_eq ?_ horigin hlast
      have hfront : (c.tokens.take last).take x.origin = c.tokens.take x.origin := by
        rw [List.take_take, Nat.min_eq_left horigin]
      rw [hyield, ← hfront, List.take_append_drop]
    obtain ⟨index, hy⟩ := exists_item?_of_mem (predicted_of_called h (Nat.le_trans horigin hlast)
      hcalled _ ((c.grammar.mem_productionsFor _ _).mpr ⟨mem, rfl⟩))
    obtain ⟨place, z, hset, hz, hp, ho, hdot⟩ := exists_advanced h ts
      (fun t ht name first last hroot hpredicted hs =>
        exists_fits h (hvalid t ht) hroot hpredicted hs) _ _ hy (x.production.rhs.drop x.dot)
      (by rw [hroots]; exact (List.take_append_drop x.dot _).symm) last hspan
    have hlength : ts.length = x.dot := by
      rw [← List.length_map Tree.root, hroots, List.length_take, Nat.min_eq_left x.dot_le]
    simp only [Item.predicted, Nat.zero_add, hlength] at hp ho hdot
    rw [← Item.eq_of_fields hp ho hdot, ← hset]
    exact mem_items_of_item? hz

end Finished

-- The chart has one set for each position, no set holds an item twice, and the items in a set
-- are those that a derivation from the start symbol can pass through there.
theorem build_exact (g : Grammar) (tokens : List String) :
    (build g tokens).sets.size = tokens.length + 1 ∧
    ∀ position, ((build g tokens).setAt position).items.toList.Nodup ∧
      ∀ item, item ∈ ((build g tokens).setAt position).items ↔
        item.production ∈ g.productions ∧ item.origin ≤ position ∧ position ≤ tokens.length ∧
        Derives g (item.production.rhs.take item.dot)
          (sentence ((tokens.take position).drop item.origin)) ∧
        ∃ after, Derives g [.nonterminal g.start]
          (sentence (tokens.take item.origin) ++ .nonterminal item.production.lhs :: after) := by
  obtain ⟨h, hg, ht⟩ := reached_build g tokens
  refine ⟨by rw [h.size_eq, ht], fun position => ⟨(h.aligned position).nodup, fun item => ?_⟩⟩
  have := mem_items_iff (finished_build g tokens) position item
  rwa [hg, ht] at this

end Chart

end ContextFree
