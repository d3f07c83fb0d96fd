import ContextFree.Backtracking.Attempt
import ContextFree.Proofs.Backtracking.Frames
import Mathlib.Data.List.Flatten
import Mathlib.Data.List.Forall2

namespace ContextFree

namespace Attempt

mutual

-- The slot of an expansion stands for the whole tree. Children are newer.
def Stands (expansions : Array Expansion) (index : Nat) : Slot → Tree → Prop
  | .terminal name, .leaf terminal => name = terminal
  | .expanded name child, .node symbol children =>
    name = symbol ∧ index < child ∧
      ∃ e, expansions[child]? = some e ∧ AllStand expansions child e.slots children
  | _, _ => False

def AllStand (expansions : Array Expansion) (index : Nat) : List Slot → List Tree → Prop
  | [], [] => True
  | slot :: slots, t :: ts => Stands expansions index slot t ∧ AllStand expansions index slots ts
  | _, _ => False

end

theorem allStand_iff (expansions : Array Expansion) (index : Nat) (slots : List Slot)
    (ts : List Tree) :
    AllStand expansions index slots ts ↔ List.Forall₂ (Stands expansions index) slots ts := by
  induction slots generalizing ts with
  | nil => cases ts <;> simp [AllStand]
  | cons slot slots ih => cases ts <;> simp [AllStand, ih]

theorem stands_leaf_iff (expansions : Array Expansion) (index : Nat) (slot : Slot)
    (terminal : String) :
    Stands expansions index slot (.leaf terminal) ↔ slot = .terminal terminal := by
  cases slot <;> simp [Stands]

theorem stands_node_iff (expansions : Array Expansion) (index : Nat) (slot : Slot)
    (symbol : String) (children : List Tree) :
    Stands expansions index slot (.node symbol children) ↔
      ∃ child e, slot = .expanded symbol child ∧ index < child ∧ expansions[child]? = some e ∧
        List.Forall₂ (Stands expansions child) e.slots children := by
  cases slot with
  | terminal name => simp [Stands]
  | unexpanded name => simp [Stands]
  | expanded name child =>
      simp only [Stands, allStand_iff, Slot.expanded.injEq]
      constructor
      · rintro ⟨rfl, hlt, e, he, hall⟩
        exact ⟨child, e, ⟨rfl, rfl⟩, hlt, he, hall⟩
      · rintro ⟨_, e, ⟨rfl, rfl⟩, hlt, he, hall⟩
        exact ⟨rfl, hlt, e, he, hall⟩

-- The first of the slots stand for the trees of a frame.
structure Shows (expansions : Array Expansion) (index : Nat) (f : Frame) (inner : List Slot)
    (owner : Option Spot) : Prop where
  exists_closed : ∃ closed, expansions[index]? = some
      { slots := closed ++ inner ++ f.rest.map Slot.ofSymbol, owner, origin := f.origin } ∧
    List.Forall₂ (Stands expansions index) closed f.done

-- The expansions from one outwards show the frames. Owners are older, and point at the slot
-- that was expanded.
inductive Chain (expansions : Array Expansion) : Nat → List Slot → List Frame → Prop where
  | root {inner : List Slot} {f : Frame} (label : f.label = none)
      (shows : Shows expansions 0 f inner none) : Chain expansions 0 inner [f]
  | inside {index : Nat} {inner : List Slot} {f around : Frame} {outer : List Frame}
      {name : String} {owner : Spot} (label : f.label = some name)
      (shows : Shows expansions index f inner (some owner)) (older : owner.expansion < index)
      (slot : owner.slot = around.done.length)
      (chain : Chain expansions owner.expansion [.expanded name index] (around :: outer)) :
      Chain expansions index inner (f :: around :: outer)

theorem not_mem_of_forall₂ {expansions : Array Expansion} {index : Nat} {slots : List Slot}
    {ts : List Tree} (h : List.Forall₂ (Stands expansions index) slots ts) (name : String) :
    .unexpanded name ∉ slots := by
  induction h with
  | nil => simp
  | @cons _ t _ _ first _ ih =>
      rw [List.mem_cons, not_or]
      refine ⟨?_, ih⟩
      rintro rfl
      cases t <;> simp [Stands] at first

-- What has no slot left to expand is not changed.
def Keeps (expansions others : Array Expansion) : Prop :=
  ∀ (index : Nat) (e : Expansion), expansions[index]? = some e →
    (∀ name, .unexpanded name ∉ e.slots) → others[index]? = some e

theorem forall₂_imp_of_mem {r s : α → β → Prop} {as : List α} {bs : List β}
    (h : List.Forall₂ r as bs) (himp : ∀ b ∈ bs, ∀ a, r a b → s a b) : List.Forall₂ s as bs := by
  induction h with
  | nil => exact .nil
  | cons first _ ih =>
      exact .cons (himp _ (by simp) _ first) (ih fun b hb => himp b (by simp [hb]))

theorem Keeps.stands {expansions others : Array Expansion} (hkeeps : Keeps expansions others)
    {t : Tree} {index : Nat} {slot : Slot} (h : Stands expansions index slot t) :
    Stands others index slot t := by
  induction t generalizing index slot with
  | leaf terminal => rwa [stands_leaf_iff] at h ⊢
  | node symbol children ih =>
      rw [stands_node_iff] at h ⊢
      obtain ⟨child, e, rfl, hlt, he, hall⟩ := h
      exact ⟨child, e, rfl, hlt, hkeeps child e he (not_mem_of_forall₂ hall),
        forall₂_imp_of_mem hall fun t ht _ => ih t ht⟩

theorem Keeps.forall₂ {expansions others : Array Expansion} (hkeeps : Keeps expansions others)
    {index : Nat} {slots : List Slot} {ts : List Tree}
    (h : List.Forall₂ (Stands expansions index) slots ts) :
    List.Forall₂ (Stands others index) slots ts :=
  h.imp fun _ _ => hkeeps.stands

-- Changes in newer expansions, and in none that are finished, do not touch a chain.
theorem Keeps.chain {expansions others : Array Expansion} (hkeeps : Keeps expansions others)
    {index : Nat} {inner : List Slot} {frames : List Frame}
    (h : Chain expansions index inner frames)
    (hsame : ∀ i, i ≤ index → others[i]? = expansions[i]?) : Chain others index inner frames := by
  induction h with
  | root label shows =>
      obtain ⟨closed, he, hall⟩ := shows.exists_closed
      exact .root label ⟨closed, by rw [hsame 0 (Nat.le_refl 0), he], hkeeps.forall₂ hall⟩
  | @inside index _ _ _ _ _ owner label shows older slot _ ih =>
      obtain ⟨closed, he, hall⟩ := shows.exists_closed
      refine .inside label ⟨closed, by rw [hsame index (Nat.le_refl index), he],
        hkeeps.forall₂ hall⟩ older slot (ih fun i hi => hsame i ?_)
      exact Nat.le_of_lt (Nat.lt_of_le_of_lt hi older)

theorem Chain.lt_size {expansions : Array Expansion} {index : Nat} {inner : List Slot}
    {frames : List Frame} (h : Chain expansions index inner frames) : index < expansions.size := by
  cases h with
  | root _ shows =>
      obtain ⟨_, he, _⟩ := shows.exists_closed
      exact (Array.getElem?_eq_some_iff.mp he).1
  | inside _ shows _ _ _ =>
      obtain ⟨_, he, _⟩ := shows.exists_closed
      exact (Array.getElem?_eq_some_iff.mp he).1

-- The slot under the cursor is that of the first symbol that remains.
theorem Chain.shows {expansions : Array Expansion} {index : Nat} {inner : List Slot} {f : Frame}
    {outer : List Frame} (h : Chain expansions index inner (f :: outer)) :
    ∃ owner, Shows expansions index f inner owner := by
  cases h with
  | root _ shows => exact ⟨none, shows⟩
  | @inside _ _ _ _ _ _ owner _ shows _ _ _ => exact ⟨some owner, shows⟩

-- The innermost frame can be shown by other slots of the same expansion.
theorem Chain.replace {expansions others : Array Expansion} {index : Nat} {inner inner' : List Slot}
    {f f' : Frame} {outer : List Frame} (h : Chain expansions index inner (f :: outer))
    (hkeeps : Keeps expansions others)
    (hsame : ∀ i, i < index → others[i]? = expansions[i]?) (hlabel : f'.label = f.label)
    (hshows : ∀ owner, Shows expansions index f inner owner → Shows others index f' inner' owner) :
    Chain others index inner' (f' :: outer) := by
  cases h with
  | root label shows => exact .root (hlabel.trans label) (hshows none shows)
  | inside label shows older slot chain =>
      refine .inside (hlabel.trans label) (hshows _ shows) older slot (hkeeps.chain chain ?_)
      exact fun i hi => hsame i (Nat.lt_of_le_of_lt hi older)

theorem Shows.getElem?_slots {expansions : Array Expansion} {index : Nat} {f : Frame}
    {inner : List Slot} {owner : Option Spot} (h : Shows expansions index f inner owner) :
    ∃ e, expansions[index]? = some e ∧ e.owner = owner ∧ e.origin = f.origin ∧
      e.slots.length = f.done.length + inner.length + f.rest.length ∧
      e.slots[f.done.length]? = (inner ++ f.rest.map Slot.ofSymbol)[0]? := by
  obtain ⟨closed, he, hall⟩ := h.exists_closed
  have hlen := hall.length_eq
  refine ⟨_, he, rfl, rfl, by simp [hlen, Nat.add_assoc], ?_⟩
  rw [List.append_assoc, List.getElem?_append_right (by omega), hlen, Nat.sub_self]

-- The frames as they are when the cursor is not past the end of an expansion.
structure Displays (a : Attempt) (frames : List Frame) : Prop where
  exists_chain : ∃ index f outer, frames = f :: outer ∧ Chain a.expansions index [] frames ∧
    (f.rest = [] → outer = []) ∧
    a.cursor = if f.rest = [] then none else some { expansion := index, slot := f.done.length }

-- A finished expansion stands for the tree of its frame.
theorem Chain.leave {expansions : Array Expansion} {index : Nat} {f around : Frame}
    {outer : List Frame} {name : String} {owner : Spot} (label : f.label = some name)
    (shows : Shows expansions index f [] (some owner)) (older : owner.expansion < index)
    (chain : Chain expansions owner.expansion [.expanded name index] (around :: outer))
    (hrest : f.rest = []) : Chain expansions owner.expansion [] (around.add f.tree :: outer) := by
  refine chain.replace (fun _ _ he _ => he) (fun _ _ => rfl) rfl fun top htop => ?_
  obtain ⟨closed, he, hall⟩ := shows.exists_closed
  obtain ⟨before, htop, hbefore⟩ := htop.exists_closed
  have hstands : Stands expansions owner.expansion (.expanded name index) f.tree := by
    rw [Frame.tree, label, stands_node_iff]
    exact ⟨index, _, rfl, older, he, by simpa [hrest] using hall⟩
  exact ⟨before ++ [.expanded name index], by simpa [Frame.add] using htop,
    List.rel_append hbefore (.cons hstands .nil)⟩

theorem climb_of_chain {a : Attempt} (climbs : Nat) {index : Nat} {f : Frame} {outer : List Frame}
    (h : Chain a.expansions index [] (f :: outer)) (hclimbs : index < climbs) :
    ∃ cursor, a.climb climbs { expansion := index, slot := f.done.length } = .ok cursor ∧
      Displays { a with cursor } (Frame.close f outer) := by
  induction outer generalizing climbs index f with
  | nil =>
      cases h with
      | root label shows =>
          obtain ⟨climbs, rfl⟩ := Nat.exists_eq_succ_of_ne_zero (by omega : climbs ≠ 0)
          obtain ⟨e, he, howner, _, hlen, _⟩ := shows.getElem?_slots
          by_cases hrest : f.rest = []
          · have hend : ¬ f.done.length < e.slots.length := by simp [hlen, hrest]
            refine ⟨none, by simp [climb, expansionAt, he, hend, howner], ⟨0, f, [], rfl,
              .root label shows, fun _ => rfl, by simp [hrest]⟩⟩
          · have hlt : f.done.length < e.slots.length := by
              have := List.length_pos_iff.mpr hrest
              simp only [hlen, List.length_nil]
              omega
            exact ⟨some { expansion := 0, slot := f.done.length }, by
              simp [climb, expansionAt, he, hlt], ⟨0, f, [], rfl, .root label shows, fun _ => rfl, by
              simp [hrest]⟩⟩
  | cons around outer ih =>
      cases h with
      | @inside _ _ _ _ _ name owner label shows older slot chain =>
          obtain ⟨climbs, rfl⟩ := Nat.exists_eq_succ_of_ne_zero (by omega : climbs ≠ 0)
          obtain ⟨e, he, howner, _, hlen, _⟩ := shows.getElem?_slots
          by_cases hrest : f.rest = []
          · have hend : ¬ f.done.length < e.slots.length := by simp [hlen, hrest]
            obtain ⟨cursor, hcursor, hdisplays⟩ := ih climbs
              (Chain.leave label shows older chain hrest) (by omega)
            have hslot : (around.add f.tree).done.length = owner.slot + 1 := by
              simp [Frame.add, slot]
            rw [hslot] at hcursor
            refine ⟨cursor, by simpa [climb, expansionAt, he, hend, howner] using hcursor, ?_⟩
            rw [Frame.close, if_pos hrest]
            exact hdisplays
          · have hlt : f.done.length < e.slots.length := by
              have := List.length_pos_iff.mpr hrest
              simp only [hlen, List.length_nil]
              omega
            refine ⟨some { expansion := index, slot := f.done.length }, by
              simp [climb, expansionAt, he, hlt], ?_⟩
            rw [Frame.close, if_neg hrest]
            exact ⟨index, f, around :: outer, rfl, .inside label shows older slot chain,
              fun hnil => absurd hnil hrest, by simp [hrest]⟩

-- Leaving what is finished closes the frames.
theorem leaveFinished_of_chain {a : Attempt} {index : Nat} {f : Frame} {outer : List Frame}
    (h : Chain a.expansions index [] (f :: outer))
    (hcursor : a.cursor = some { expansion := index, slot := f.done.length }) :
    ∃ next, a.leaveFinished = .ok next ∧ next.Displays (Frame.close f outer) ∧
      next.expansions = a.expansions ∧ next.owed = a.owed := by
  obtain ⟨cursor, hclimb, hdisplays⟩ := climb_of_chain (index + 1) h (Nat.lt_succ_self index)
  exact ⟨{ a with cursor }, by simp [leaveFinished, hcursor, hclimb], hdisplays, rfl, rfl⟩

theorem Displays.exists_spot {a : Attempt} {f : Frame} {outer : List Frame} {s : Symbol}
    {rest : List Symbol} (h : a.Displays (f :: outer)) (hrest : f.rest = s :: rest) :
    ∃ index, Chain a.expansions index [] (f :: outer) ∧
      a.cursor = some { expansion := index, slot := f.done.length } ∧
      a.slotAt { expansion := index, slot := f.done.length } = .ok (.ofSymbol s) := by
  obtain ⟨index, _, _, hframes, hchain, _, hcursor⟩ := h.exists_chain
  obtain ⟨rfl, rfl⟩ := List.cons.inj hframes
  obtain ⟨owner, hshows⟩ := hchain.shows
  obtain ⟨e, he, _, _, _, hslot⟩ := hshows.getElem?_slots
  refine ⟨index, hchain, by simpa [hrest] using hcursor, ?_⟩
  simp only [hrest, List.map_cons, List.nil_append, List.getElem?_cons_zero] at hslot
  simp [slotAt, expansionAt, he, hslot]

-- A terminal under the cursor becomes a leaf.
theorem exists_consume {a : Attempt} {index : Nat} {f : Frame} {outer : List Frame} {name : String}
    {rest : List Symbol} (h : Chain a.expansions index [] (f :: outer))
    (hrest : f.rest = .terminal name :: rest) :
    ∃ next, a.consume { expansion := index, slot := f.done.length } = .ok next ∧
      next.Displays (Frame.close (Frame.add { f with rest } (.leaf name)) outer) ∧
      next.owed = a.owed.payOne := by
  have hchain : Chain a.expansions index [] (Frame.add { f with rest } (.leaf name) :: outer) := by
    refine h.replace (fun _ _ he _ => he) (fun _ _ => rfl) rfl fun owner hshows => ?_
    obtain ⟨closed, he, hall⟩ := hshows.exists_closed
    have hstands := (stands_leaf_iff a.expansions index (.terminal name) name).mpr rfl
    refine ⟨closed ++ [.terminal name], ?_, List.rel_append hall (.cons hstands .nil)⟩
    simpa [Frame.add, hrest, Slot.ofSymbol] using he
  obtain ⟨next, hnext, hdisplays, _, howed⟩ := leaveFinished_of_chain (a := { a with
    cursor := some { expansion := index, slot := f.done.length + 1 }
    owed := a.owed.payOne }) hchain (by simp [Frame.add])
  exact ⟨next, hnext, hdisplays, howed⟩

-- The expansions after the slot at the end of the trees of a frame was expanded.
def opened (expansions : Array Expansion) (spot : Spot) (name : String) (p : Production)
    (position : Nat) : Array Expansion :=
  (expansions.modify spot.expansion fun e =>
      { e with slots := e.slots.set spot.slot (.expanded name expansions.size) }).push
    { slots := p.rhs.map Slot.ofSymbol, owner := some spot, origin := position }

theorem getElem?_opened_of_ne {expansions : Array Expansion} {spot : Spot} {index : Nat}
    (hlt : index < expansions.size) (hne : index ≠ spot.expansion) (name : String) (p : Production)
    (position : Nat) :
    (opened expansions spot name p position)[index]? = expansions[index]? := by
  rw [opened, Array.getElem?_push, Array.size_modify, if_neg (by omega), Array.getElem?_modify,
    if_neg (Ne.symm hne)]

theorem getElem?_opened_size (expansions : Array Expansion) (spot : Spot) (name : String)
    (p : Production) (position : Nat) :
    (opened expansions spot name p position)[expansions.size]? =
      some { slots := p.rhs.map Slot.ofSymbol, owner := some spot, origin := position } := by
  rw [opened, Array.getElem?_push, if_pos (by simp)]

theorem chain_opened {expansions : Array Expansion} {index : Nat} {f : Frame} {outer : List Frame}
    {p : Production} {rest : List Symbol} (h : Chain expansions index [] (f :: outer))
    (hrest : f.rest = .nonterminal p.lhs :: rest) (position : Nat) :
    Chain (opened expansions { expansion := index, slot := f.done.length } p.lhs p position)
      expansions.size []
      ({ label := some p.lhs, origin := position, done := [], rest := p.rhs } ::
        { f with rest } :: outer) := by
  have hlt := h.lt_size
  -- the expansion around has a slot that was not expanded, so it is not kept, but the rest is
  have hkeeps : Keeps expansions (opened expansions { expansion := index, slot := f.done.length }
      p.lhs p position) := by
    intro i e he hclosed
    have hi := (Array.getElem?_eq_some_iff.mp he).1
    by_cases hne : i = index
    · subst hne
      obtain ⟨owner, hshows⟩ := h.shows
      obtain ⟨closed, he', _⟩ := hshows.exists_closed
      obtain rfl := Option.some.inj (he.symm.trans he')
      exact absurd (by simp [hrest, Slot.ofSymbol]) (hclosed p.lhs)
    · rw [getElem?_opened_of_ne hi hne, he]
  have hnew := getElem?_opened_size expansions { expansion := index, slot := f.done.length } p.lhs p
    position
  refine .inside rfl ⟨[], by simpa using hnew, .nil⟩ hlt rfl ?_
  refine h.replace hkeeps (fun i hi => ?_) rfl fun owner hshows => ?_
  · exact getElem?_opened_of_ne (Nat.lt_trans hi hlt) (Nat.ne_of_lt hi) _ _ _
  · obtain ⟨closed, he, hall⟩ := hshows.exists_closed
    refine ⟨closed, ?_, hkeeps.forall₂ hall⟩
    have hlen := hall.length_eq
    rw [opened, Array.getElem?_push, Array.size_modify, if_neg (by omega), Array.getElem?_modify,
      if_pos rfl, he]
    simp [hrest, ← hlen, Slot.ofSymbol]

theorem label?_of_chain {a : Attempt} {index : Nat} {inner : List Slot} {f : Frame}
    {outer : List Frame} (h : Chain a.expansions index inner (f :: outer)) :
    a.label? index = .ok f.label := by
  cases h with
  | root label shows =>
      obtain ⟨e, he, howner, _⟩ := shows.getElem?_slots
      simp [label?, expansionAt, he, howner, label]
  | @inside _ _ _ _ _ name owner label shows _ slot chain =>
      obtain ⟨e, he, howner, _⟩ := shows.getElem?_slots
      obtain ⟨_, hshows⟩ := chain.shows
      obtain ⟨e', he', _, _, _, hslot⟩ := hshows.getElem?_slots
      rw [← slot] at hslot
      simp [label?, slotAt, expansionAt, he, he', howner, hslot, label]

-- What is counted outwards are the frames with one key.
theorem countOutwards_of_chain {a : Attempt} {index : Nat} {inner : List Slot}
    {frames : List Frame} (h : Chain a.expansions index inner frames) (name : String)
    (origin climbs place : Nat) (hclimbs : index < climbs) :
    a.countOutwards (some name) origin climbs (some { expansion := index, slot := place }) =
      .ok ((Frame.keys frames).count (name, origin)) := by
  induction h generalizing climbs place with
  | root label shows =>
      obtain ⟨climbs, rfl⟩ := Nat.exists_eq_succ_of_ne_zero (by omega : climbs ≠ 0)
      obtain ⟨e, he, howner, _⟩ := shows.getElem?_slots
      have hlabel := label?_of_chain (.root label shows)
      cases climbs <;>
        simp [countOutwards, expansionAt, he, hlabel, howner, label, Frame.keys, bind, Except.bind,
          pure, Except.pure]
  | @inside index inner f around outer other owner label shows older slot chain ih =>
      obtain ⟨climbs, rfl⟩ := Nat.exists_eq_succ_of_ne_zero (by omega : climbs ≠ 0)
      obtain ⟨e, he, howner, horigin, _⟩ := shows.getElem?_slots
      have hlabel := label?_of_chain (.inside label shows older slot chain)
      have hfurther := ih climbs owner.slot (by omega)
      simp only [countOutwards, expansionAt, he, hlabel, howner, hfurther, horigin, label,
        Frame.keys, List.count_cons, Option.some.injEq, beq_iff_eq, Prod.mk.injEq,
        and_comm (a := f.origin = origin), bind, Except.bind, pure, Except.pure]

theorem nesting_of_chain {a : Attempt} {index : Nat} {inner : List Slot} {f around : Frame}
    {outer : List Frame} (h : Chain a.expansions index inner (f :: around :: outer)) {name : String}
    (hname : f.label = some name) :
    a.nesting index = .ok ((Frame.keys (around :: outer)).count (name, f.origin)) := by
  have hlabel := label?_of_chain h
  cases h with
  | @inside _ _ _ _ _ _ owner _ shows older _ chain =>
      obtain ⟨e, he, howner, horigin, _⟩ := shows.getElem?_slots
      have hcount := countOutwards_of_chain chain name f.origin index owner.slot older
      simp [nesting, expansionAt, he, hlabel, hname, howner, horigin, hcount, bind, Except.bind]

-- A nonterminal under the cursor becomes a frame.
theorem exists_expand {a : Attempt} {lengths : String → Option Int} {index : Nat} {f : Frame}
    {outer : List Frame} {p : Production} {rest : List Symbol} {owed : Debt}
    (h : Chain a.expansions index [] (f :: outer)) (hrest : f.rest = .nonterminal p.lhs :: rest)
    (howed : a.owed.replace? lengths p.lhs p.rhs = some owed) (position : Nat) :
    ∃ next, a.expand lengths { expansion := index, slot := f.done.length } p.lhs p position =
        .ok next ∧
      next.Displays (Frame.close
        { label := some p.lhs, origin := position, done := [], rest := p.rhs }
        ({ f with rest } :: outer)) ∧
      next.owed = owed ∧ next.nesting (next.expansions.size - 1) =
        .ok ((Frame.keys (f :: outer)).count (p.lhs, position)) := by
  have hchain := chain_opened h hrest position
  obtain ⟨next, hnext, hdisplays, hexpansions, howed'⟩ := leaveFinished_of_chain (a := {
    expansions := opened a.expansions { expansion := index, slot := f.done.length } p.lhs p position
    cursor := some { expansion := a.expansions.size, slot := 0 }
    owed }) hchain rfl
  refine ⟨next, ?_, hdisplays, howed', ?_⟩
  · rw [expand, howed]
    exact hnext
  · have hsize : next.expansions.size - 1 = a.expansions.size := by simp [hexpansions, opened]
    rw [show opened a.expansions _ p.lhs p position = next.expansions from hexpansions.symm]
      at hchain
    rw [hsize, nesting_of_chain hchain rfl]
    rfl

theorem displays_initial (g : Grammar) (lengths : String → Option Int) :
    (initial g lengths).Displays
      [{ label := none, origin := 0, done := [], rest := [.nonterminal g.start] }] := by
  refine ⟨0, _, [], rfl, .root rfl ⟨[], ?_, .nil⟩, by simp, by simp [initial]⟩
  simp [initial, Slot.ofSymbol]

theorem isComplete_of_displays {a : Attempt} {f : Frame} {outer : List Frame}
    (h : a.Displays (f :: outer)) : a.isComplete = true ↔ f.rest = [] := by
  obtain ⟨index, _, _, hframes, _, _, hcursor⟩ := h.exists_chain
  obtain ⟨rfl, rfl⟩ := List.cons.inj hframes
  by_cases hrest : f.rest = [] <;> simp [isComplete, hcursor, hrest]

theorem mapM_of_forall₂ {related : α → β → Prop} {work : α → Except ε β}
    (hwork : ∀ a b, related a b → work a = .ok b) {as : List α} {bs : List β}
    (h : List.Forall₂ related as bs) : as.mapM work = .ok bs := by
  induction h with
  | nil => rfl
  | cons first _ ih =>
      rw [List.mapM_cons, hwork _ _ first, ih]
      rfl

-- The trees that the slots stand for are found if there are enough levels.
theorem treesAt_of_forall₂ {a : Attempt} (levels : Nat) {index : Nat} {e : Expansion}
    {ts : List Tree} (he : a.expansions[index]? = some e)
    (hall : List.Forall₂ (Stands a.expansions index) e.slots ts)
    (hlevels : a.expansions.size ≤ levels + index) : a.treesAt levels index = .ok ts := by
  induction levels generalizing index e ts with
  | zero =>
      have hlt := (Array.getElem?_eq_some_iff.mp he).1
      omega
  | succ levels ih =>
      simp only [treesAt, expansionAt, he, bind, Except.bind]
      refine mapM_of_forall₂ (fun slot t hslot => ?_) hall
      cases t with
      | leaf terminal =>
          rw [stands_leaf_iff] at hslot
          rw [hslot]
      | node symbol children =>
          rw [stands_node_iff] at hslot
          obtain ⟨child, e, rfl, hlt, he, hall⟩ := hslot
          simp [ih he hall (by omega), Except.map]

theorem tree_of_displays {a : Attempt} {f : Frame} {symbol : String} {children : List Tree}
    (h : a.Displays [f]) (hrest : f.rest = []) (hdone : f.done = [.node symbol children]) :
    a.tree = .ok (.node symbol children) := by
  have hcomplete := (isComplete_of_displays h).mpr hrest
  obtain ⟨index, _, _, hframes, hchain, _, _⟩ := h.exists_chain
  obtain ⟨rfl, rfl⟩ := List.cons.inj hframes
  cases hchain with
  | root _ shows =>
      obtain ⟨closed, he, hall⟩ := shows.exists_closed
      have htrees := treesAt_of_forall₂ a.expansions.size he (by simpa [hrest] using hall)
        (Nat.le_add_right _ _)
      simp [tree, hcomplete, htrees, hdone]

-- Each symbol that remains has a slot of its own.
theorem Chain.length_remaining_le {expansions : Array Expansion} {index : Nat} {inner : List Slot}
    {frames : List Frame} (h : Chain expansions index inner frames) :
    (Frame.remaining frames).length ≤
      ((expansions.toList.take (index + 1)).flatMap (·.slots)).length := by
  have hlast {index : Nat} {f : Frame} {inner : List Slot} {owner : Option Spot}
      (shows : Shows expansions index f inner owner) :
      ((expansions.toList.take index).flatMap (·.slots)).length + f.rest.length ≤
        ((expansions.toList.take (index + 1)).flatMap (·.slots)).length := by
    obtain ⟨e, he, _, _, hlen, _⟩ := shows.getElem?_slots
    have htoList : expansions.toList[index]? = some e := by simpa using he
    rw [List.take_add_one, htoList, List.flatMap_append, List.length_append]
    simp only [Option.toList, List.flatMap_singleton]
    omega
  induction h with
  | root label shows => simpa [Frame.remaining] using hlast shows
  | inside label shows older slot chain ih =>
      have := hlast shows
      have := ((List.take_sublist_take_left (l := expansions.toList) older).flatMap
        (·.slots)).length_le
      rw [Frame.remaining, List.length_append]
      simp only [Nat.succ_eq_add_one] at this
      omega

theorem Displays.length_remaining_le {a : Attempt} {frames : List Frame} (h : a.Displays frames) :
    (Frame.remaining frames).length ≤ (a.expansions.toList.flatMap (·.slots)).length := by
  obtain ⟨index, f, outer, rfl, hchain, _, _⟩ := h.exists_chain
  exact Nat.le_trans hchain.length_remaining_le
    ((List.take_sublist (index + 1) a.expansions.toList).flatMap (·.slots)).length_le

end Attempt

end ContextFree
