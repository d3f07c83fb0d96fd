import ContextFree.Chart.Trees
import ContextFree.Proofs.Chart.Matches
import Mathlib.Data.List.Forall2

namespace ContextFree

-- The list holds what has the property, each once, and nothing else.
structure Enumerates (P : α → Prop) (items : List α) : Prop where
  nodup : items.Nodup
  mem_iff : ∀ a, a ∈ items ↔ P a

namespace Enumerates

theorem congr {P Q : α → Prop} {items : List α} (h : Enumerates P items) (hiff : ∀ a, P a ↔ Q a) :
    Enumerates Q items := ⟨h.nodup, fun a => (h.mem_iff a).trans (hiff a)⟩

theorem map {P : α → Prop} {items : List α} (h : Enumerates P items) {f : α → β}
    (hf : Function.Injective f) : Enumerates (fun b => ∃ a, P a ∧ f a = b) (items.map f) :=
  ⟨h.nodup.map hf, fun b => by simp [List.mem_map, h.mem_iff]⟩

theorem reverse {P : α → Prop} {items : List α} (h : Enumerates P items) :
    Enumerates P items.reverse := ⟨List.nodup_reverse.mpr h.nodup, fun a => by simp [h.mem_iff]⟩

-- Lists that have nothing in common can be put together.
theorem flatMap {P : α → β → Prop} {sources : List α} {listOf : α → List β}
    (h : ∀ a ∈ sources, Enumerates (P a) (listOf a)) (hnodup : sources.Nodup)
    (hdisjoint : ∀ a ∈ sources, ∀ a' ∈ sources, ∀ b, P a b → P a' b → a = a') :
    Enumerates (fun b => ∃ a ∈ sources, P a b) (sources.flatMap listOf) := by
  refine ⟨List.nodup_flatMap.mpr ⟨fun a ha => (h a ha).nodup, ?_⟩, fun b => ?_⟩
  · refine hnodup.pairwise_of_forall_ne fun a ha a' ha' hne b hb hb' => hne ?_
    exact hdisjoint a ha a' ha' b (((h a ha).mem_iff b).mp hb) (((h a' ha').mem_iff b).mp hb')
  · rw [List.mem_flatMap]
    exact exists_congr fun a => and_congr_right fun ha => (h a ha).mem_iff b

end Enumerates

-- The item in which the dot was one symbol further left.
def Edge.predecessor : Edge → Place
  | .scan predecessor => predecessor
  | .complete predecessor _ => predecessor

namespace Chart

-- The child is asked for its trees on the way back from the item at the place.
inductive Asks (c : Chart) (child : Place) : Place → Prop where
  | here {place parent : Place} (edge : .complete parent child ∈ c.edgesOf place) :
      Asks c child place
  | back {place : Place} {e : Edge} (edge : e ∈ c.edgesOf place)
      (asks : Asks c child e.predecessor) : Asks c child place

-- No chain of questions for trees goes on forever below the item.
def Grounded (c : Chart) (place : Place) : Prop := Acc c.Asks place

-- What the item at the place stands for in a complete tree.
def use? (c : Chart) (place : Place) : Option Use :=
  (c.item? place).map fun x => { production := x.production, first := x.origin, last := place.set }

theorem Draws.predecessor_found {c : Chart} {e : Edge} {s : Nat} {x : Item} (hd : c.Draws e s x) :
    ∃ y, c.item? e.predecessor = some y := by
  cases hd with
  | scan found _ _ _ => exact ⟨_, found⟩
  | complete found _ _ _ _ _ => exact ⟨_, found⟩

theorem eq_predecessor_of_adds {c : Chart} {e : Edge} {before : Place} {t : Tree}
    (hadds : c.Adds e before t) : before = e.predecessor := by
  cases e <;> exact hadds.1

theorem Matches.useAt_eq {c : Chart} {place : Place} {x : Item} {children : List Tree}
    (hm : c.Matches place x children) (whole : x.isComplete = true) :
    some (Tree.useAt x.origin x.production.lhs children) = c.use? place := by
  have hroots := hm.roots
  rw [Item.dot_eq_length whole, List.take_length] at hroots
  rw [use?, hm.found, Option.map_some, Tree.useAt, hroots, hm.spans.last_eq]

section Finished

variable {c : Chart} (h : c.Finished)

include h

theorem eq_of_use?_eq {a b : Place} {x y : Item} (ha : c.item? a = some x)
    (hb : c.item? b = some y) (hx : x.isComplete = true) (hy : y.isComplete = true)
    (heq : c.use? a = c.use? b) : a = b := by
  simp only [use?, ha, hb, Option.map_some, Option.some.injEq, Use.mk.injEq] at heq
  obtain ⟨hp, ho, hset⟩ := heq
  refine place_unique h ha ?_ hset
  rw [hb, Item.eq_of_fields hp ho (by rw [Item.dot_eq_length hx, Item.dot_eq_length hy, hp])]

-- The trees of an item avoid what the trees of the asked items avoid.
theorem allAvoid_of_asks {above : List (Option Use)} (dot : Nat) {place : Place} {x : Item}
    {ts : List Tree} (hdot : x.dot = dot) (hm : c.Matches place x ts)
    (hchild : ∀ child y t, c.Asks child place → c.item? child = some y → c.Fits child t →
      t.Avoids some above y.origin) : Tree.AllAvoid some above x.origin ts := by
  induction dot generalizing place x ts with
  | zero =>
      have hroots := hm.roots
      rw [hdot, List.take_zero, List.map_eq_nil_iff] at hroots
      rw [hroots]
      trivial
  | succ dot ih =>
      obtain ⟨e, he, before, y, t, pre, rfl, hadds, hpre⟩ := (matches_iff h hm.found hdot ts).mp hm
      obtain ⟨z, hz, hp, ho, hzdot, _⟩ := matches_of_adds h hm.found he hadds
      obtain rfl := Option.some.inj (hz.symm.trans hpre.found)
      have hbefore := eq_predecessor_of_adds hadds
      rw [Tree.allAvoid_append, ← ho, ← hpre.spans.last_eq, Tree.allAvoid_cons]
      refine ⟨ih (by omega) hpre fun child u t hasks => ?_, ?_, trivial⟩
      · exact hchild child u t (.back he (hbefore ▸ hasks))
      · cases e with
        | scan predecessor =>
            obtain ⟨_, _, _, _, _, rfl⟩ := hadds
            trivial
        | complete predecessor child =>
            obtain ⟨rfl, hfits⟩ := hadds
            have hd := (mem_edgesOf_iff h hm.found _).mp he
            obtain ⟨_, inner, _, _, _, inside, _, origin, _⟩ := (draws_complete_iff c _ _ _ _).mp hd
            rw [← origin]
            exact hchild child inner t (.here he) inside hfits

-- The trees of a grounded item avoid all items that are asked about above it.
theorem Grounded.avoids {place : Place} (hg : c.Grounded place) {x : Item} {t : Tree}
    (hx : c.item? place = some x) (hfits : c.Fits place t) {above : List Place}
    (habove : ∀ a ∈ above, Relation.TransGen c.Asks place a)
    (hwhole : ∀ a ∈ above, ∃ y, c.item? a = some y ∧ y.isComplete = true) :
    t.Avoids some (above.map c.use?) x.origin := by
  induction hg generalizing x t above with
  | intro place hacc ih =>
      obtain ⟨y, children, rfl, whole, hm⟩ := hfits
      obtain rfl := Option.some.inj (hx.symm.trans hm.found)
      rw [Tree.avoids_node, hm.useAt_eq whole]
      constructor
      · intro hmem
        obtain ⟨a, ha, heq⟩ := List.mem_map.mp hmem
        obtain ⟨y, hy, hywhole⟩ := hwhole a ha
        obtain rfl := eq_of_use?_eq h hy hx hywhole whole heq
        exact not_rel_self_of_acc (Acc.transGen ⟨_, hacc⟩) (habove _ ha)
      · refine allAvoid_of_asks h _ rfl hm fun child z t hasks hz hfits => ?_
        have hstep : Relation.TransGen c.Asks child place := .single hasks
        have hasked : ∀ a ∈ place :: above, Relation.TransGen c.Asks child a := by
          simp only [List.mem_cons, forall_eq_or_imp]
          exact ⟨hstep, fun a ha => hstep.trans (habove a ha)⟩
        refine ih child hasks hz hfits hasked ?_
        simp only [List.mem_cons, forall_eq_or_imp]
        exact ⟨⟨x, hx, whole⟩, hwhole⟩

end Finished

end Chart

end ContextFree
