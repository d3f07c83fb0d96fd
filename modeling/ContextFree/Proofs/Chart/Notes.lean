import ContextFree.Proofs.Chart.Termination

namespace ContextFree

namespace ItemSet

-- The notes of the set at a position when `count` of its items are processed: for each nonterminal
-- the indices of those that wait for it and of those that matched it with nothing, in increasing
-- order and once each.
structure Noted (s : ItemSet) (position count : Nat) : Prop where
  waitingFor_sorted : ∀ name, (s.waitingFor name).Pairwise (· < ·)
  mem_waitingFor_iff : ∀ name i, i ∈ s.waitingFor name ↔ i < count ∧
    ∃ x, s.items[i]? = some x ∧ x.isComplete = false ∧ x.next? = some (.nonterminal name)
  emptyOf_sorted : ∀ name, (s.emptyOf name).Pairwise (· < ·)
  mem_emptyOf_iff : ∀ name i, i ∈ s.emptyOf name ↔ i < count ∧
    ∃ x, s.items[i]? = some x ∧ x.isComplete = true ∧ x.production.lhs = name ∧
      x.origin = position

-- The later of two notes is on a later item.
def Sorted (notes : List (String × Nat)) : Prop := notes.Pairwise fun a b => a.2 < b.2

theorem Sorted.noted {notes : List (String × Nat)} (h : Sorted notes) (name : String) :
    (notes.filterMap fun (other, index) => if other = name then some index else none).Pairwise
      (· < ·) := by
  refine h.filterMap _ ?_
  rintro ⟨a, i⟩ ⟨b, j⟩ hlt index hi other hj
  simp only [Option.ite_none_right_eq_some, Option.some.injEq] at hi hj
  rw [← hi.2, ← hj.2]
  exact hlt

end ItemSet

namespace Chart

-- The notes of all sets are in order.
def Sorted (c : Chart) : Prop :=
  ∀ s, ItemSet.Sorted (c.setAt s).waiting ∧ ItemSet.Sorted (c.setAt s).empty

theorem sorted_initial (g : Grammar) (tokens : List String) : (initial g tokens).Sorted := by
  have h := reached_initial g tokens
  intro s
  -- no item was processed, so there are no notes
  have hnotes {notes : List (String × Nat)}
      (hbefore : ∀ name i, (name, i) ∈ notes → Place.Before { set := s, index := i } 0 0) :
      ItemSet.Sorted notes := by
    have hnil : notes = [] := List.eq_nil_iff_forall_not_mem.mpr fun note hm => by
      simpa [Place.Before] using hbefore note.1 note.2 hm
    rw [hnil]
    exact .nil
  exact ⟨hnotes fun name i hm => ((h.mem_waiting_iff { set := s, index := i } name).mp hm).1,
    hnotes fun name i hm => ((h.mem_empty_iff { set := s, index := i } name).mp hm).1⟩

section Processing

variable {c next : Chart} {position index target : Nat} {item : Item} {news : ItemSet.News}

-- An item adds one note at most, which is on itself.
theorem sorted_notes {s : Nat} {old new : List (String × Nat)} (name : String)
    (hold : ItemSet.Sorted old) (hnew : new.Nodup)
    (hearlier : ∀ name i, (name, i) ∈ old → Place.Before { set := s, index := i } position index)
    (hself : ∀ other i, s = target ∧ (other, i) ∈ new →
      ({ set := s, index := i } : Place) = { set := position, index } ∧ other = name) :
    ItemSet.Sorted (old ++ if s = target then new else []) := by
  split
  · rename_i hs
    have hnote : ∀ note ∈ new, s = position ∧ note = (name, index) := by
      rintro ⟨other, i⟩ hm
      obtain ⟨hplace, rfl⟩ := hself other i ⟨hs, hm⟩
      obtain ⟨hset, rfl⟩ := Place.mk.inj hplace
      exact ⟨hset, rfl⟩
    refine List.pairwise_append.mpr ⟨hold, ?_, fun a ha b hb => ?_⟩
    · exact hnew.imp_of_mem fun ha hb hne =>
        absurd ((hnote _ ha).2.trans (hnote _ hb).2.symm) hne
    · obtain ⟨rfl, rfl⟩ := hnote b hb
      have hbefore := hearlier a.1 a.2 ha
      simp only [Place.Before] at hbefore ⊢
      omega
  · rwa [List.append_nil]

theorem Sorted.absorb (hsorted : c.Sorted) (h : Reached c position index)
    (hnews : Consequences c position index item target news)
    (hnext : Updated c next target (·.absorb news)) : next.Sorted := by
  intro s
  constructor
  · rw [waiting_of_absorb h hnext]
    refine sorted_notes ((item.next?.map Symbol.name).getD "") (hsorted s).1 hnews.waiting_nodup
      (fun name i hm => ((h.mem_waiting_iff { set := s, index := i } name).mp hm).1) ?_
    intro other i hm
    obtain ⟨hplace, hsymbol⟩ := (hnews.mem_waiting_iff { set := s, index := i } other).mp hm
    exact ⟨hplace, by simp [hsymbol, Symbol.name]⟩
  · rw [empty_of_absorb h hnext]
    refine sorted_notes item.production.lhs (hsorted s).2 hnews.empty_nodup
      (fun name i hm => ((h.mem_empty_iff { set := s, index := i } name).mp hm).1) ?_
    intro other i hm
    obtain ⟨hplace, _, hlhs, _⟩ := (hnews.mem_empty_iff { set := s, index := i } other).mp hm
    exact ⟨hplace, hlhs.symm⟩

end Processing

section Sweeping

variable {g : Grammar} {tokens : List String}

-- A turn adds one note at most, behind the others.
theorem sorted_of_turns {w : Sweep}
    (h : Relation.ReflTransGen Sweep.Turns (.opening g tokens) w) : w.chart.Sorted := by
  induction h with
  | refl => exact sorted_initial g tokens
  | @tail w next hturns hturn ih =>
      obtain ⟨hreached, _, _⟩ := reached_of_turns hturns
      obtain ⟨hpos, ⟨item, hitem, hchart, _⟩ | ⟨_, hchart, _⟩⟩ := cases_of_turns hturn
      · have hsize := hreached.size_eq
        obtain ⟨target, news, hnext, hnews⟩ := exists_consequences hreached hitem (by omega)
        rw [hchart]
        exact ih.absorb hreached hnews hnext
      · rw [hchart]
        exact ih

-- In front of `count` are the items of the set that were processed.
theorem noted_of_reached {c : Chart} {position index : Nat} (h : Reached c position index)
    (hsorted : c.Sorted) {s count : Nat}
    (hcount : ∀ i < (c.setAt s).size,
      Place.Before { set := s, index := i } position index ↔ i < count) :
    (c.setAt s).Noted s count := by
  have hbefore {i : Nat} {x : Item} (hx : (c.setAt s).items[i]? = some x) :=
    hcount i (Array.getElem?_eq_some_iff.mp hx).1
  constructor
  case waitingFor_sorted => exact (hsorted s).1.noted
  case mem_waitingFor_iff =>
    intro name i
    refine (ItemSet.mem_noted _ name i).trans ?_
    rw [h.mem_waiting_iff { set := s, index := i } name]
    constructor
    · rintro ⟨hb, x, hx, symbol⟩
      exact ⟨(hbefore hx).mp hb, x, hx,
        by simpa using Item.isComplete_eq_false_of_next? symbol, symbol⟩
    · rintro ⟨hlt, x, hx, _, symbol⟩
      exact ⟨(hbefore hx).mpr hlt, x, hx, symbol⟩
  case emptyOf_sorted => exact (hsorted s).2.noted
  case mem_emptyOf_iff =>
    intro name i
    refine (ItemSet.mem_noted _ name i).trans ?_
    rw [h.mem_empty_iff { set := s, index := i } name]
    constructor
    · rintro ⟨hb, x, hx, hmatched⟩
      exact ⟨(hbefore hx).mp hb, x, hx, hmatched⟩
    · rintro ⟨hlt, x, hx, hmatched⟩
      exact ⟨(hbefore hx).mpr hlt, x, hx, hmatched⟩

end Sweeping

end Chart

-- How many items of a set were processed: all in the sets before the one whose turn it is, and none
-- behind it.
def Sweep.processed (w : Sweep) (s : Nat) : Nat :=
  if s < w.position then (w.chart.setAt s).size else if s = w.position then w.index else 0

namespace Chart

-- In the whole chart the notes of each set are on all of its items, and between any two turns of
-- the loop they are on those that were processed so far.
theorem notes_exact (g : Grammar) (tokens : List String) :
    (build g tokens).sets.size = tokens.length + 1 ∧
    (∀ (s : Nat) set, (build g tokens).sets[s]? = some set → set.Noted s set.size) ∧
    ∀ w, Relation.ReflTransGen Sweep.Turns (.opening g tokens) w →
      ∀ s, (w.chart.setAt s).Noted s (w.processed s) := by
  obtain ⟨h, _, ht⟩ := reached_build g tokens
  have hsize : (build g tokens).sets.size = tokens.length + 1 := by rw [h.size_eq, ht]
  refine ⟨hsize, fun s set hset => ?_, fun w hw s => ?_⟩
  · obtain ⟨last, hturns, _, hlast⟩ := turns_build g tokens
    have hs : s < (build g tokens).sets.size := (Array.getElem?_eq_some_iff.mp hset).1
    have hsetAt : (build g tokens).setAt s = set := by
      simp [setAt, Array.getD_eq_getD_getElem?, hset]
    rw [← hsetAt]
    refine noted_of_reached h (hlast ▸ sorted_of_turns hturns) fun i hi => ?_
    simp only [Place.Before]
    omega
  · refine noted_of_reached (reached_of_turns hw).1 (sorted_of_turns hw) fun i hi => ?_
    simp only [Place.Before, Sweep.processed]
    split
    · omega
    · split <;> omega

end Chart

end ContextFree
