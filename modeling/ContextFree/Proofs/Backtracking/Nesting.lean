import ContextFree.Proofs.Backtracking.Preorder
import Mathlib.Data.Set.Card

namespace ContextFree

namespace Attempt

-- The position of the input at which an expansion was made.
def origin? (a : Attempt) (index : Nat) : Option Nat := a.expansions[index]?.map (·.origin)

-- The expansions around one that are of the same nonterminal and of the same position.
def alikeAround (a : Attempt) (index : Nat) : Set Nat :=
  {other | Relation.TransGen (OwnedBy a.expansions) index other ∧
    a.label? other = a.label? index ∧ a.origin? other = a.origin? index}

-- Those from an owner outwards that are of this nonterminal and of this position.
def alikeFrom (a : Attempt) (label : Option String) (origin : Nat) (owner : Option Spot) :
    Set Nat :=
  {other | (∃ spot, owner = some spot ∧
      Relation.ReflTransGen (OwnedBy a.expansions) spot.expansion other) ∧
    a.label? other = .ok label ∧ a.origin? other = some origin}

section Owners

variable {expansions : Array Expansion} {index other : Nat} {e : Expansion}
  (he : expansions[index]? = some e)

include he

theorem ownedBy_iff :
    OwnedBy expansions index other ↔ ∃ spot, e.owner = some spot ∧ spot.expansion = other := by
  constructor
  · rintro ⟨e', spot, he', hspot, hother⟩
    obtain rfl := Option.some.inj (he'.symm.trans he)
    exact ⟨spot, hspot, hother⟩
  · rintro ⟨spot, hspot, hother⟩
    exact ⟨e, spot, he, hspot, hother⟩

-- Every way outwards goes on from the owner.
theorem owned_iff :
    Relation.TransGen (OwnedBy expansions) index other ↔
      ∃ spot, e.owner = some spot ∧
        Relation.ReflTransGen (OwnedBy expansions) spot.expansion other := by
  rw [Relation.TransGen.head'_iff]
  simp only [ownedBy_iff he]
  constructor
  · rintro ⟨_, ⟨spot, hspot, rfl⟩, hpath⟩
    exact ⟨spot, hspot, hpath⟩
  · rintro ⟨spot, hspot, hpath⟩
    exact ⟨_, ⟨spot, hspot, rfl⟩, hpath⟩

end Owners

section Linked

variable {g : Grammar} {a : Attempt} (h : Linked g a.expansions)

include h

theorem Linked.owner_lt {index : Nat} {e : Expansion} (he : a.expansions[index]? = some e)
    {owner : Spot} (howner : e.owner = some owner) : owner.expansion < index := by
  cases index with
  | zero =>
      obtain ⟨root, hroot, hnone, _⟩ := h.root
      obtain rfl := Option.some.inj (he.symm.trans hroot)
      simp [hnone] at howner
  | succ index =>
      obtain ⟨other, _, hother, hless, _⟩ := h.owned (index + 1) e he (Nat.succ_pos index)
      obtain rfl := Option.some.inj (howner.symm.trans hother)
      exact hless

theorem Linked.exists_label {index : Nat} (hindex : index < a.expansions.size) :
    ∃ label, a.label? index = .ok label := by
  cases index with
  | zero =>
      obtain ⟨_, _, _, hlabel, _⟩ := h.rooted.root
      exact ⟨_, hlabel⟩
  | succ index =>
      obtain ⟨_, _, _, _, _, hlabel, _⟩ :=
        h.rooted.owned (index + 1) _ (Array.getElem?_eq_getElem hindex) (Nat.succ_pos index)
      exact ⟨_, hlabel⟩

-- The owner's expansion comes on top of those that are further out, if it is alike itself.
theorem Linked.ncard_alikeFrom {spot : Spot} {e : Expansion} {other : Option String}
    (he : a.expansions[spot.expansion]? = some e) (hother : a.label? spot.expansion = .ok other)
    (label : Option String) (origin : Nat) :
    (a.alikeFrom label origin (some spot)).ncard =
      (a.alikeFrom label origin e.owner).ncard +
        if e.origin = origin ∧ other = label then 1 else 0 := by
  have hmem (index : Nat) : index ∈ a.alikeFrom label origin (some spot) ↔
      (index = spot.expansion ∧ e.origin = origin ∧ other = label) ∨
        index ∈ a.alikeFrom label origin e.owner := by
    simp only [alikeFrom, Set.mem_ofPred_eq, Option.some.injEq, exists_eq_left',
      Relation.reflTransGen_iff_eq_or_transGen, owned_iff he, or_and_right]
    refine or_congr_left (and_congr_right ?_)
    rintro rfl
    rw [hother, origin?, he, Option.map_some, Except.ok.injEq, Option.some.injEq, and_comm]
  have hless {index : Nat} (hm : index ∈ a.alikeFrom label origin e.owner) :
      index < spot.expansion := by
    obtain ⟨⟨owner, howner, hpath⟩, _⟩ := hm
    exact Nat.lt_of_le_of_lt (le_of_owned h hpath) (h.owner_lt he howner)
  split
  · rename_i halike
    have hinsert : a.alikeFrom label origin (some spot) =
        insert spot.expansion (a.alikeFrom label origin e.owner) := by
      ext index
      rw [hmem, Set.mem_insert_iff, and_iff_left halike]
    have hfinite : (a.alikeFrom label origin e.owner).Finite :=
      (Set.finite_lt_nat spot.expansion).subset fun _ => hless
    rw [hinsert, Set.ncard_insert_of_notMem (fun hm => Nat.lt_irrefl _ (hless hm)) hfinite]
  · rename_i halike
    congr 1
    ext index
    rw [hmem, or_iff_right fun hself => halike hself.2]

-- The way outwards goes from owner to owner, all of which are there.
theorem Linked.countOutwards_eq (label : Option String) (origin climbs : Nat)
    (owner : Option Spot)
    (howner : ∀ spot, owner = some spot →
      spot.expansion < climbs ∧ spot.expansion < a.expansions.size) :
    a.countOutwards label origin climbs owner = .ok (a.alikeFrom label origin owner).ncard := by
  induction climbs generalizing owner with
  | zero =>
      have hnone : owner = none :=
        Option.eq_none_iff_forall_ne_some.mpr fun spot hspot =>
          Nat.not_lt_zero _ (howner spot hspot).1
      simp [hnone, countOutwards, alikeFrom]
  | succ climbs ih =>
      cases owner with
      | none => simp [countOutwards, alikeFrom]
      | some spot =>
          obtain ⟨hclimbs, hspot⟩ := howner spot rfl
          have he := Array.getElem?_eq_getElem hspot
          obtain ⟨other, hother⟩ := h.exists_label hspot
          have hfurther := ih a.expansions[spot.expansion].owner fun next hnext => by
            have := h.owner_lt he hnext
            omega
          simp only [countOutwards, expansionAt, he, hother, hfurther, bind, Except.bind, pure,
            Except.pure, h.ncard_alikeFrom he hother]

-- What is counted are the expansions around that are alike.
theorem Linked.nesting_eq {index : Nat} (hindex : index < a.expansions.size) :
    a.nesting index = .ok (a.alikeAround index).ncard := by
  have he := Array.getElem?_eq_getElem hindex
  obtain ⟨label, hlabel⟩ := h.exists_label hindex
  have hcount := h.countOutwards_eq label a.expansions[index].origin index
    a.expansions[index].owner fun owner howner => by
      have := h.owner_lt he howner
      omega
  have halike : a.alikeFrom label a.expansions[index].origin a.expansions[index].owner =
      a.alikeAround index := by
    ext other
    simp only [alikeFrom, alikeAround, Set.mem_ofPred_eq, owned_iff he, hlabel]
    simp only [origin?, he, Option.map_some]
  rw [← halike]
  simp [nesting, expansionAt, he, hlabel, hcount, bind, Except.bind]

end Linked

end Attempt

end ContextFree
