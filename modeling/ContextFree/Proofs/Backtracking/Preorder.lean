import ContextFree.Proofs.Backtracking.Reachable
import Mathlib.Data.List.Nodup
import Mathlib.Logic.Relation

namespace ContextFree

namespace Slot

-- The name, if the slot is for a terminal.
def terminal? : Slot → Option String
  | .terminal name => some name
  | _ => none

-- The expansion that the slot was expanded into.
def child? : Slot → Option Nat
  | .expanded _ child => some child
  | _ => none

theorem child?_eq_some_iff {slot : Slot} {child : Nat} :
    slot.child? = some child ↔ ∃ name, slot = .expanded name child := by
  cases slot <;> simp [child?]

theorem child?_ofSymbol (s : Symbol) : (ofSymbol s).child? = none := by
  cases s <;> rfl

end Slot

namespace Attempt

-- These slots of an expansion, the first of which has this index. Each is followed by what
-- lies below the expansion that it was expanded into.
def slotsFrom (below : Nat → List (Spot × Slot)) (index start : Nat) (slots : List Slot) :
    List (Spot × Slot) :=
  (slots.zipIdx start).flatMap fun x =>
    ({ expansion := index, slot := x.2 }, x.1) :: (x.1.child?.map below).getD []

-- The slots of an expansion and of those inside it, in preorder.
def preorderAt (expansions : Array Expansion) : (levels : Nat) → Nat → List (Spot × Slot)
  | 0, _ => []
  | levels + 1, index =>
    match expansions[index]? with
    | none => []
    | some e => slotsFrom (preorderAt expansions levels) index 0 e.slots

-- Children are newer, so there are no more levels than expansions.
def preorderFrom (expansions : Array Expansion) (index : Nat) : List (Spot × Slot) :=
  preorderAt expansions expansions.size index

-- All slots of an attempt, each behind the one that its expansion comes from.
def preorder (a : Attempt) : List (Spot × Slot) := preorderFrom a.expansions 0

section Slots

variable {below below' : Nat → List (Spot × Slot)} {index start : Nat} {slots others : List Slot}

@[simp] theorem slotsFrom_nil : slotsFrom below index start [] = [] := rfl

theorem slotsFrom_cons (slot : Slot) :
    slotsFrom below index start (slot :: slots) =
      ({ expansion := index, slot := start }, slot) ::
        ((slot.child?.map below).getD [] ++ slotsFrom below index (start + 1) slots) := rfl

theorem slotsFrom_append :
    slotsFrom below index start (slots ++ others) =
      slotsFrom below index start slots ++
        slotsFrom below index (start + slots.length) others := by
  rw [slotsFrom, List.zipIdx_append, List.flatMap_append]
  rfl

theorem slotsFrom_congr
    (h : ∀ (k : Nat) (name : String) (child : Nat), slots[k]? = some (.expanded name child) →
      below child = below' child) :
    slotsFrom below index start slots = slotsFrom below' index start slots := by
  refine List.flatMap_congr fun x hx => ?_
  obtain ⟨_, hx⟩ := List.mem_zipIdx_iff_le_and_getElem?_sub.mp hx
  cases hchild : x.1.child? with
  | none => rfl
  | some child =>
      obtain ⟨name, hname⟩ := Slot.child?_eq_some_iff.mp hchild
      rw [hname] at hx
      rw [Option.map_some, Option.map_some, h _ name child hx]

theorem mem_slotsFrom_iff (x : Spot × Slot) :
    x ∈ slotsFrom below index 0 slots ↔ ∃ k slot, slots[k]? = some slot ∧
      (x = ({ expansion := index, slot := k }, slot) ∨
        ∃ name child, slot = .expanded name child ∧ x ∈ below child) := by
  simp only [slotsFrom, List.mem_flatMap, List.mem_zipIdx_iff_getElem?, Prod.exists,
    List.mem_cons]
  constructor
  · rintro ⟨slot, k, hslot, hx⟩
    refine ⟨k, slot, hslot, hx.imp_right fun hx => ?_⟩
    cases hchild : slot.child? with
    | none => simp [hchild] at hx
    | some child =>
        obtain ⟨name, hname⟩ := Slot.child?_eq_some_iff.mp hchild
        exact ⟨name, child, hname, by simpa [hchild] using hx⟩
  · rintro ⟨k, slot, hslot, hx⟩
    refine ⟨slot, k, hslot, hx.imp_right ?_⟩
    rintro ⟨name, child, rfl, hbelow⟩
    simpa [Slot.child?] using hbelow

-- Symbols that are still to be worked on have nothing below them.
theorem map_snd_slotsFrom_ofSymbol (symbols : List Symbol) :
    (slotsFrom below index start (symbols.map Slot.ofSymbol)).map Prod.snd =
      symbols.map Slot.ofSymbol := by
  induction symbols generalizing start with
  | nil => rfl
  | cons s symbols ih =>
      rw [List.map_cons, slotsFrom_cons, Slot.child?_ofSymbol]
      simpa using ih

end Slots

-- One expansion is owned by a slot of the other.
def OwnedBy (expansions : Array Expansion) (index other : Nat) : Prop :=
  ∃ e owner, expansions[index]? = some e ∧ e.owner = some owner ∧ owner.expansion = other

section Linked

variable {g : Grammar} {expansions : Array Expansion} (h : Linked g expansions) {index : Nat}

theorem OwnedBy.eq {other other' : Nat} (ho : OwnedBy expansions index other)
    (ho' : OwnedBy expansions index other') : other = other' := by
  obtain ⟨e, owner, he, howner, rfl⟩ := ho
  obtain ⟨e', owner', he', howner', rfl⟩ := ho'
  obtain rfl := Option.some.inj (he.symm.trans he')
  rw [Option.some.inj (howner.symm.trans howner')]

theorem slot?_of_getElem? {e : Expansion} (he : expansions[index]? = some e) (k : Nat) :
    slot? expansions { expansion := index, slot := k } = e.slots[k]? := by
  rw [slot?, he, Option.bind_some]

include h

-- The number of levels does not matter if there are as many as there are newer expansions.
theorem preorderAt_eq (levels levels' : Nat) (hlevels : expansions.size ≤ levels + index)
    (hlevels' : expansions.size ≤ levels' + index) :
    preorderAt expansions levels index = preorderAt expansions levels' index := by
  induction levels generalizing levels' index with
  | zero =>
      have hnone : expansions[index]? = none := by simpa using hlevels
      cases levels' with
      | zero => rfl
      | succ levels' => rw [preorderAt, preorderAt, hnone]
  | succ levels ih =>
      cases he : expansions[index]? with
      | none => cases levels' <;> simp [preorderAt, he]
      | some e =>
          have hlt := (Array.getElem?_eq_some_iff.mp he).1
          obtain ⟨levels', rfl⟩ := Nat.exists_eq_succ_of_ne_zero (by omega : levels' ≠ 0)
          simp only [preorderAt, he]
          refine slotsFrom_congr fun k name child hslot => ?_
          have hless := h.lt_child ((slot?_of_getElem? he k).trans hslot)
          simp only at hless
          exact ih _ (by omega) (by omega)

theorem preorderFrom_eq {e : Expansion} (he : expansions[index]? = some e) :
    preorderFrom expansions index = slotsFrom (preorderFrom expansions) index 0 e.slots := by
  have hlt := (Array.getElem?_eq_some_iff.mp he).1
  rw [preorderFrom, preorderAt_eq h _ (expansions.size + 1) (by omega) (by omega), preorderAt, he]
  rfl

theorem ownedBy_of_slot? {spot : Spot} {name : String} {child : Nat}
    (hslot : slot? expansions spot = some (.expanded name child)) :
    OwnedBy expansions child spot.expansion := by
  obtain ⟨e, he, howner⟩ := h.child spot name child hslot
  exact ⟨e, spot, he, howner, rfl⟩

-- The owner of an expansion was expanded into it.
theorem OwnedBy.exists_slot {other : Nat} (ho : OwnedBy expansions index other) :
    ∃ k name, slot? expansions { expansion := other, slot := k } = some (.expanded name index) := by
  obtain ⟨e, owner, he, howner, rfl⟩ := ho
  have hpos : 0 < index := by
    refine Nat.pos_of_ne_zero fun hzero => ?_
    obtain ⟨root, hroot, hnone, _⟩ := h.root
    rw [hzero] at he
    obtain rfl := Option.some.inj (he.symm.trans hroot)
    simp [hnone] at howner
  obtain ⟨owner', name, howner', _, hslot, _⟩ := h.owned index e he hpos
  obtain rfl := Option.some.inj (howner.symm.trans howner')
  exact ⟨owner.slot, name, hslot⟩

theorem le_of_owned {other : Nat} (ho : Relation.ReflTransGen (OwnedBy expansions) index other) :
    other ≤ index := by
  induction ho with
  | refl => exact Nat.le_refl _
  | tail _ hstep ih =>
      obtain ⟨k, name, hslot⟩ := OwnedBy.exists_slot h hstep
      have hless := h.lt_child hslot
      simp only at hless
      omega

-- From owner to owner, every expansion leads to the first one.
theorem owned_by_root (hindex : index < expansions.size) :
    Relation.ReflTransGen (OwnedBy expansions) index 0 := by
  induction index using Nat.strongRecOn with
  | _ index ih =>
      rcases Nat.eq_zero_or_pos index with rfl | hpos
      · exact .refl
      · have he := Array.getElem?_eq_getElem hindex
        obtain ⟨owner, _, howner, hless, _⟩ := h.owned index _ he hpos
        exact .head ⟨_, owner, he, howner, rfl⟩ (ih _ hless (by omega))

-- What is listed below an expansion are the slots of those that lead to it.
theorem mem_preorderFrom_iff (hindex : index < expansions.size) (spot : Spot) (slot : Slot) :
    (spot, slot) ∈ preorderFrom expansions index ↔ slot? expansions spot = some slot ∧
      Relation.ReflTransGen (OwnedBy expansions) spot.expansion index := by
  have hself {index : Nat} (hindex : index < expansions.size) :=
    preorderFrom_eq h (Array.getElem?_eq_getElem hindex)
  constructor
  · intro hm
    -- children are newer, so the induction is on how many newer expansions there are
    induction hn : expansions.size - index using Nat.strongRecOn generalizing index with
    | _ n ih =>
        rw [hself hindex, mem_slotsFrom_iff] at hm
        obtain ⟨k, other, hslot, heq | ⟨name, child, rfl, hm⟩⟩ := hm
        · obtain ⟨rfl, rfl⟩ := Prod.mk.inj heq
          exact ⟨(slot?_of_getElem? (Array.getElem?_eq_getElem hindex) k).trans hslot, .refl⟩
        · have hslot' := (slot?_of_getElem? (Array.getElem?_eq_getElem hindex) k).trans hslot
          have hless := h.lt_child hslot'
          obtain ⟨e, he, _⟩ := h.child _ _ _ hslot'
          have hchild := (Array.getElem?_eq_some_iff.mp he).1
          simp only at hless
          obtain ⟨hspot, hpath⟩ := ih _ (by omega) hchild hm rfl
          exact ⟨hspot, hpath.tail (ownedBy_of_slot? h hslot')⟩
  · rintro ⟨hslot, hpath⟩
    obtain ⟨e, he, hk⟩ := Option.bind_eq_some_iff.mp hslot
    induction hpath with
    | refl =>
        rw [preorderFrom_eq h he, mem_slotsFrom_iff]
        exact ⟨spot.slot, slot, hk, .inl rfl⟩
    | @tail child other hpath hstep ih =>
        obtain ⟨k, name, hexpanded⟩ := OwnedBy.exists_slot h hstep
        obtain ⟨e', he', hk'⟩ := Option.bind_eq_some_iff.mp hexpanded
        obtain ⟨_, _, hchild, _⟩ := hstep
        rw [preorderFrom_eq h he', mem_slotsFrom_iff]
        exact ⟨k, _, hk', .inr ⟨name, child, rfl, ih (Array.getElem?_eq_some_iff.mp hchild).1⟩⟩

-- Two children of one expansion have nothing below them in common.
theorem eq_of_owned {child child' : Nat} (other : Nat) (ho : OwnedBy expansions child other)
    (ho' : OwnedBy expansions child' other)
    (hpath : Relation.ReflTransGen (OwnedBy expansions) index child)
    (hpath' : Relation.ReflTransGen (OwnedBy expansions) index child') : child = child' := by
  have haux {a b : Nat} (ha : OwnedBy expansions a other) (hb : OwnedBy expansions b other)
      (hab : Relation.ReflTransGen (OwnedBy expansions) a b) : a = b := by
    rcases Relation.ReflTransGen.cases_head hab with heq | ⟨m, hm, hmb⟩
    · exact heq
    · obtain rfl := hm.eq ha
      obtain ⟨k, name, hslot⟩ := OwnedBy.exists_slot h hb
      have hless := h.lt_child hslot
      have hle := le_of_owned h hmb
      simp only at hless
      omega
  have hunique : Relator.RightUnique (OwnedBy expansions) := fun _ _ _ => OwnedBy.eq
  rcases Relation.ReflTransGen.total_of_right_unique hunique hpath hpath' with hab | hba
  · exact haux ho ho' hab
  · exact (haux ho' ho hba).symm

-- Two slots of one expansion have nothing in common with what lies below them.
theorem disjoint_below {k k' : Nat} (hne : k ≠ k')
    {slot slot' : Slot} (hslot : slot? expansions { expansion := index, slot := k } = some slot)
    (hslot' : slot? expansions { expansion := index, slot := k' } = some slot') :
    List.Disjoint
      (({ expansion := index, slot := k }, slot) ::
        (slot.child?.map (preorderFrom expansions)).getD [])
      (({ expansion := index, slot := k' }, slot') ::
        (slot'.child?.map (preorderFrom expansions)).getD []) := by
  -- below a slot there are the slots of newer expansions, which its child leads to
  have hbelow {k : Nat} {slot : Slot}
      (hslot : slot? expansions { expansion := index, slot := k } = some slot)
      {x : Spot × Slot} (hx : x ∈ (slot.child?.map (preorderFrom expansions)).getD []) :
      ∃ name child, slot = .expanded name child ∧ index < child ∧
        Relation.ReflTransGen (OwnedBy expansions) x.1.expansion child := by
    cases hchild : slot.child? with
    | none => simp [hchild] at hx
    | some child =>
        obtain ⟨name, rfl⟩ := Slot.child?_eq_some_iff.mp hchild
        obtain ⟨e, he, _⟩ := h.child _ _ _ hslot
        have hx : x ∈ preorderFrom expansions child := by simpa [hchild] using hx
        obtain ⟨_, hpath⟩ := (mem_preorderFrom_iff h (Array.getElem?_eq_some_iff.mp he).1
          x.1 x.2).mp hx
        exact ⟨name, child, rfl, h.lt_child hslot, hpath⟩
  intro x hx hx'
  rcases List.mem_cons.mp hx with rfl | hx <;> rcases List.mem_cons.mp hx' with heq | hx'
  · exact hne (by simpa using congrArg (fun x => x.1.slot) heq)
  · obtain ⟨_, _, _, hless, hpath⟩ := hbelow hslot' hx'
    have hle := le_of_owned h hpath
    simp only at hle
    omega
  · obtain ⟨_, _, _, hless, hpath⟩ := hbelow hslot hx
    have hle := le_of_owned h hpath
    simp only [heq] at hle
    omega
  · obtain ⟨name, child, rfl, _, hpath⟩ := hbelow hslot hx
    obtain ⟨name', child', rfl, _, hpath'⟩ := hbelow hslot' hx'
    obtain rfl := eq_of_owned h index (ownedBy_of_slot? h hslot)
      (ownedBy_of_slot? h hslot') hpath hpath'
    obtain ⟨e, he, howner⟩ := h.child _ _ _ hslot
    obtain ⟨e', he', howner'⟩ := h.child _ _ _ hslot'
    obtain rfl := Option.some.inj (he.symm.trans he')
    have heq := Option.some.inj (howner.symm.trans howner')
    exact hne (congrArg Spot.slot heq)

theorem nodup_preorderFrom (hindex : index < expansions.size) :
    (preorderFrom expansions index).Nodup := by
  induction hn : expansions.size - index using Nat.strongRecOn generalizing index with
  | _ n ih =>
      have he := Array.getElem?_eq_getElem hindex
      have hslot (x : Slot × Nat) (hx : x ∈ expansions[index].slots.zipIdx) :
          slot? expansions { expansion := index, slot := x.2 } = some x.1 :=
        (slot?_of_getElem? he x.2).trans (List.mem_zipIdx_iff_getElem?.mp hx)
      rw [preorderFrom_eq h he, slotsFrom, List.nodup_flatMap]
      constructor
      · rintro ⟨slot, k⟩ hx
        rw [List.nodup_cons]
        cases hchild : slot.child? with
        | none => simp
        | some child =>
            obtain ⟨name, rfl⟩ := Slot.child?_eq_some_iff.mp hchild
            obtain ⟨e, hinner, _⟩ := h.child _ _ _ (hslot _ hx)
            have hless := h.lt_child (hslot _ hx)
            have hbound := (Array.getElem?_eq_some_iff.mp hinner).1
            simp only at hless
            refine ⟨fun hm => ?_, ih _ (by omega) hbound rfl⟩
            have hle := le_of_owned h ((mem_preorderFrom_iff h hbound _ _).mp hm).2
            simp only at hle
            omega
      · have hnodup : expansions[index].slots.zipIdx.Nodup :=
          List.Nodup.of_map Prod.snd (by rw [List.zipIdx_map_snd]; exact List.nodup_range')
        refine hnodup.pairwise_of_forall_ne fun x hx y hy hne => ?_
        refine disjoint_below h (fun heq => hne ?_) (hslot x hx) (hslot y hy)
        have hx' := hslot x hx
        rw [heq, hslot y hy] at hx'
        exact Prod.ext (Option.some.inj hx').symm heq

end Linked

-- The slots are done, and their terminals spell the text.
structure Spells (slots : List (Spot × Slot)) (text : List String) : Prop where
  done : ∀ x ∈ slots, ∀ name, x.2 ≠ .unexpanded name
  text_eq : slots.filterMap (·.2.terminal?) = text

-- The slots are still to be worked on.
def Undone (slots : List (Spot × Slot)) : Prop :=
  ∀ x ∈ slots, ∀ name child, x.2 ≠ .expanded name child

theorem Spells.nil : Spells [] [] := ⟨by simp, rfl⟩

theorem Spells.append {slots others : List (Spot × Slot)} {text text' : List String}
    (left : Spells slots text) (right : Spells others text') :
    Spells (slots ++ others) (text ++ text') := by
  refine ⟨fun x hx => ?_, ?_⟩
  · rcases List.mem_append.mp hx with hx | hx
    · exact left.done x hx
    · exact right.done x hx
  · rw [List.filterMap_append, left.text_eq, right.text_eq]

theorem Spells.expanded {slots : List (Spot × Slot)} {text : List String} (hs : Spells slots text)
    (spot : Spot) (name : String) (child : Nat) :
    Spells ((spot, .expanded name child) :: slots) text := by
  refine ⟨fun x hx => ?_, ?_⟩
  · rcases List.mem_cons.mp hx with rfl | hx
    · simp
    · exact hs.done x hx
  · rw [List.filterMap_cons]
    exact hs.text_eq

theorem undone_of_map_snd {slots : List (Spot × Slot)} {symbols : List Symbol}
    (h : slots.map Prod.snd = symbols.map Slot.ofSymbol) : Undone slots := by
  intro x hx name child heq
  have hm : x.2 ∈ symbols.map Slot.ofSymbol := h ▸ List.mem_map_of_mem hx
  obtain ⟨s, _, hs⟩ := List.mem_map.mp hm
  exact Slot.ofSymbol_ne_expanded s name child (hs.trans heq)

section Chain

variable {g : Grammar} {expansions : Array Expansion} (h : Linked g expansions)

theorem spells_of_forall₂ {index : Nat} {slots : List Slot} {ts : List Tree} (start : Nat)
    (hall : List.Forall₂ (Stands expansions index) slots ts)
    (heach : ∀ t ∈ ts, ∀ slot, Stands expansions index slot t → ∀ start,
      Spells (slotsFrom (preorderFrom expansions) index start [slot]) t.yield) :
    Spells (slotsFrom (preorderFrom expansions) index start slots) (Tree.yieldList ts) := by
  induction hall generalizing start with
  | nil => exact .nil
  | @cons slot t slots ts hfirst _ ih =>
      rw [← List.singleton_append, slotsFrom_append, Tree.yieldList_cons]
      exact (heach t (by simp) slot hfirst start).append
        (ih _ fun u hu => heach u (by simp [hu]))

include h

-- A slot that stands for a tree is done with all that lies below it, and spells what the tree
-- spells.
theorem spells_of_stands {t : Tree} {index : Nat} {slot : Slot}
    (hs : Stands expansions index slot t) (start : Nat) :
    Spells (slotsFrom (preorderFrom expansions) index start [slot]) t.yield := by
  induction t generalizing index slot start with
  | leaf terminal =>
      rw [stands_leaf_iff] at hs
      subst hs
      exact ⟨by simp [slotsFrom, Slot.child?], by simp [slotsFrom, Slot.child?, Slot.terminal?]⟩
  | node symbol children ih =>
      obtain ⟨child, e, rfl, _, he, hall⟩ := (stands_node_iff _ _ _ _ _).mp hs
      rw [slotsFrom_cons, slotsFrom_nil, List.append_nil]
      refine Spells.expanded ?_ _ _ _
      rw [Slot.child?, Option.map_some, Option.getD_some, preorderFrom_eq h he, Tree.yield_node]
      exact spells_of_forall₂ 0 hall fun t ht slot hslot => ih t ht hslot

-- The slots of the innermost expansion stand between those that are done and those that are
-- still to be worked on.
theorem Chain.exists_preorder {index : Nat} {inner : List Slot} {f : Frame} {outer : List Frame}
    (hc : Chain expansions index inner (f :: outer)) :
    ∃ before after, preorderFrom expansions 0 = before ++
        slotsFrom (preorderFrom expansions) index f.done.length
          (inner ++ f.rest.map Slot.ofSymbol) ++ after ∧
      Spells before (Frame.spelled (f :: outer)) ∧
      after.map Prod.snd = (Frame.remaining outer).map Slot.ofSymbol := by
  -- the slots of one expansion, those in front of the inner ones being done
  have hsplit {index : Nat} {inner : List Slot} {f : Frame} {owner : Option Spot}
      (shows : Shows expansions index f inner owner) :
      ∃ closed, preorderFrom expansions index = closed ++
          slotsFrom (preorderFrom expansions) index f.done.length
            (inner ++ f.rest.map Slot.ofSymbol) ∧
        Spells closed (Tree.yieldList f.done) := by
    obtain ⟨closed, he, hall⟩ := shows.exists_closed
    refine ⟨_, ?_, spells_of_forall₂ 0 hall fun t _ slot hs => spells_of_stands h hs⟩
    rw [preorderFrom_eq h he, List.append_assoc, slotsFrom_append, Nat.zero_add, hall.length_eq]
  generalize hframes : f :: outer = frames at hc
  induction hc generalizing f outer with
  | root label shows =>
      obtain ⟨rfl, rfl⟩ := List.cons.inj hframes
      obtain ⟨closed, hpreorder, hclosed⟩ := hsplit shows
      exact ⟨closed, [], by rw [hpreorder, List.append_nil], hclosed, rfl⟩
  | @inside index inner f around outer name owner label shows older slot chain ih =>
      obtain ⟨rfl, rfl⟩ := List.cons.inj hframes
      obtain ⟨before, after, hpreorder, hbefore, hafter⟩ := ih rfl
      obtain ⟨closed, hinner, hclosed⟩ := hsplit shows
      rw [List.singleton_append, slotsFrom_cons, Slot.child?, Option.map_some, Option.getD_some,
        hinner] at hpreorder
      refine ⟨_, slotsFrom (preorderFrom expansions) owner.expansion (around.done.length + 1)
        (around.rest.map Slot.ofSymbol) ++ after, ?_,
        hbefore.append (hclosed.expanded ⟨owner.expansion, around.done.length⟩ name index), ?_⟩
      · rw [hpreorder]
        simp
      · rw [List.map_append, map_snd_slotsFrom_ofSymbol, hafter, Frame.remaining, List.map_append]

end Chain

-- The symbol that was expanded is the one that the slots are a right-hand side of.
theorem Linked.exists_label? {g : Grammar} {a : Attempt} (h : Linked g a.expansions) {index : Nat}
    {e : Expansion} (he : a.expansions[index]? = some e) (hpos : 0 < index) :
    ∃ owner name, e.owner = some owner ∧ owner.expansion < index ∧
      a.slotAt owner = .ok (.expanded name index) ∧ a.label? index = .ok (some name) ∧
      { lhs := name, rhs := e.slots.map Slot.symbol } ∈ g.productions := by
  obtain ⟨owner, name, howner, hless, hslot, mem⟩ := h.owned index e he hpos
  have hslotAt := (slotAt_eq_ok_iff a _ _).mpr hslot
  refine ⟨owner, name, howner, hless, hslotAt, ?_, mem⟩
  simp [label?, expansionAt, he, howner, hslotAt]

-- The expansions of the attempt form a tree that the first one is the root of. Each of them is
-- owned by the slot of an older one that was expanded into it, and its slots are those of a
-- production of the nonterminal in that slot.
structure Rooted (g : Grammar) (a : Attempt) : Prop where
  root : ∃ e, a.expansions[0]? = some e ∧ e.owner = none ∧ a.label? 0 = .ok none ∧
    e.slots.map Slot.symbol = [.nonterminal g.start]
  owned : ∀ index e, a.expansions[index]? = some e → 0 < index → ∃ owner name,
    e.owner = some owner ∧ owner.expansion < index ∧
    a.slotAt owner = .ok (.expanded name index) ∧ a.label? index = .ok (some name) ∧
    { lhs := name, rhs := e.slots.map Slot.symbol } ∈ g.productions
  child : ∀ spot name child, a.slotAt spot = .ok (.expanded name child) →
    ∃ e, a.expansions[child]? = some e ∧ e.owner = some spot
  connected : ∀ index < a.expansions.size,
    Relation.ReflTransGen (OwnedBy a.expansions) index 0

theorem Linked.rooted {g : Grammar} {a : Attempt} (h : Linked g a.expansions) : a.Rooted g := by
  constructor
  case root =>
    obtain ⟨e, he, hnone, hsymbols⟩ := h.root
    exact ⟨e, he, hnone, by simp [label?, expansionAt, he, hnone], hsymbols⟩
  case owned => exact fun index e he hpos => h.exists_label? he hpos
  case child => exact fun spot name child hslot => h.child _ _ _ ((slotAt_eq_ok_iff _ _ _).mp hslot)
  case connected => exact fun index hindex => owned_by_root h hindex

-- The slots of the attempt, in preorder and each once, are done up to the cursor, and still to
-- be worked on from there. The terminals that are done spell what was consumed.
structure Traversed (a : Attempt) (consumed : List String) : Prop where
  nodup : (a.preorder.map Prod.fst).Nodup
  mem_iff : ∀ spot slot, (spot, slot) ∈ a.preorder ↔ a.slotAt spot = .ok slot
  split : ∃ before after, a.preorder = before ++ after ∧ a.cursor = after.head?.map Prod.fst ∧
    Spells before consumed ∧ Undone after

theorem Linked.mem_preorder_iff {g : Grammar} {a : Attempt} (h : Linked g a.expansions)
    (spot : Spot) (slot : Slot) : (spot, slot) ∈ a.preorder ↔ a.slotAt spot = .ok slot := by
  obtain ⟨root, hroot, _⟩ := h.root
  rw [slotAt_eq_ok_iff, preorder, mem_preorderFrom_iff h (Array.getElem?_eq_some_iff.mp hroot).1]
  refine and_iff_left_of_imp fun hslot => ?_
  obtain ⟨e, he, _⟩ := Option.bind_eq_some_iff.mp hslot
  exact owned_by_root h (Array.getElem?_eq_some_iff.mp he).1

-- The slots from the cursor on are those of the symbols that remain in the frames.
theorem Displays.exists_split {g : Grammar} {a : Attempt} {frames : List Frame}
    (h : a.Displays frames) (hl : Linked g a.expansions) :
    ∃ before after, a.preorder = before ++ after ∧ a.cursor = after.head?.map Prod.fst ∧
      Spells before (Frame.spelled frames) ∧
      after.map Prod.snd = (Frame.remaining frames).map Slot.ofSymbol := by
  obtain ⟨index, f, outer, rfl, hchain, hlast, hcursor⟩ := h.exists_chain
  obtain ⟨before, after, hpreorder, hbefore, hafter⟩ := hchain.exists_preorder hl
  rw [List.nil_append, List.append_assoc] at hpreorder
  refine ⟨before, _, hpreorder, ?_, hbefore, ?_⟩
  · rw [hcursor]
    cases hrest : f.rest with
    | nil =>
        rw [hlast hrest, Frame.remaining, List.map_nil, List.map_eq_nil_iff] at hafter
        rw [hafter]
        rfl
    | cons s rest => rfl
  · rw [List.map_append, map_snd_slotsFrom_ofSymbol, hafter, Frame.remaining, List.map_append]

theorem Unfolds.traversed {g : Grammar} {a : Attempt} {consumed : List String}
    {frames : List Frame} (h : Unfolds g a consumed frames) (hl : Linked g a.expansions) :
    a.Traversed consumed := by
  constructor
  case nodup =>
    obtain ⟨root, hroot, _⟩ := hl.root
    refine (nodup_preorderFrom hl (Array.getElem?_eq_some_iff.mp hroot).1).map_on ?_
    rintro ⟨spot, slot⟩ hx ⟨_, slot'⟩ hy rfl
    have hslot := (hl.mem_preorder_iff spot slot).mp hx
    have hslot' := (hl.mem_preorder_iff spot slot').mp hy
    rw [Except.ok.inj (hslot.symm.trans hslot')]
  case mem_iff => exact hl.mem_preorder_iff
  case split =>
    obtain ⟨before, after, hpreorder, hcursor, hbefore, hafter⟩ := h.displays.exists_split hl
    exact ⟨before, after, hpreorder, hcursor, h.spelled ▸ hbefore, undone_of_map_snd hafter⟩

-- Whatever steps were taken, the expansions of an attempt form a tree, and the cursor parts its
-- slots into those that are done and those that are not. When no slot is left there is a
-- derivation tree of what was consumed.
theorem reachable_exact {g : Grammar} {lengths : String → Option Int} {a : Attempt}
    {consumed : List String} (h : Reachable g lengths a consumed) :
    a.Rooted g ∧ a.Traversed consumed ∧
      (a.cursor = none → ∃ t, a.tree = .ok t ∧ t.Derivation g g.start consumed) := by
  obtain ⟨frames, hunfolds⟩ := h.exists_unfolds
  exact ⟨h.linked.rooted, hunfolds.traversed h.linked, hunfolds.exists_tree⟩

-- Any number of one token.
def repeats : Grammar where
  nonterminals := ["S"]
  terminals := ["a"]
  productions := [{ lhs := "S", rhs := [.terminal "a", .nonterminal "S"] },
                  { lhs := "S", rhs := [] }]
  start := "S"
  problems_eq := by decide +kernel

-- One token was read, and then the last nonterminal vanished.
def finished : Attempt where
  expansions := #[
    { slots := [.expanded "S" 1], owner := none, origin := 0 },
    { slots := [.terminal "a", .expanded "S" 2], owner := some ⟨0, 0⟩, origin := 0 },
    { slots := [], owner := some ⟨1, 1⟩, origin := 1 }]
  cursor := none
  owed := .finite 0

theorem reachable_exact_finished :
    Reachable repeats (fun _ => some 0) finished ["a"] ∧ finished.Rooted repeats ∧
      finished.Traversed ["a"] ∧
      ∃ t, finished.tree = .ok t ∧ t.Derivation repeats "S" ["a"] := by
  have hreachable : Reachable repeats (fun _ => some 0) finished ["a"] := by
    have hopened := @Reachable.step repeats (fun _ => some 0) _ _ _ (some "a") 0 _ .initial rfl
      List.mem_cons_self
    have hread := @Reachable.step _ _ _ _ _ (some "a") 0 _ hopened rfl List.mem_cons_self
    exact @Reachable.step _ _ _ _ _ none 1 _ hread rfl
      (List.mem_cons_of_mem _ List.mem_cons_self)
  obtain ⟨hrooted, htraversed, htree⟩ := reachable_exact hreachable
  exact ⟨hreachable, hrooted, htraversed, htree rfl⟩

end Attempt

end ContextFree
