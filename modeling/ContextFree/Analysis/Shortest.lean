import ContextFree.Debt
import ContextFree.Grammar

namespace ContextFree

-- For each nonterminal the length of a shortest sentence found for it.
abbrev Lengths := Family (Option Nat)

namespace Lengths

-- None for a nonterminal without a sentence.
def of (lengths : Lengths) (name : String) : Option Nat := (lengths.value? name).join

-- The same as an integer.
def toInt (lengths : Lengths) (name : String) : Option Int := (lengths.of name).map Int.ofNat

-- The smaller of the two lengths.
def shorter (length : Nat) : Option Nat → Option Nat
  | none => some length
  | some old => some (min length old)

-- Lets one production shorten the length of its left side. None if the debt of
-- its right side has no value.
def improve? (lengths : Lengths) (p : Production) : Option Lengths :=
  (Debt.ofSequence? lengths.toInt p.rhs).map fun
    | .finite length => lengths.change p.lhs (shorter length.toNat)
    | _ => lengths

def round? (g : Grammar) (lengths : Lengths) : Option Lengths :=
  g.productions.foldlM improve? lengths

-- How many nonterminals have no length yet.
def missing : Lengths → Nat
  | [] => 0
  | (_, none) :: rest => missing rest + 1
  | (_, some _) :: rest => missing rest

-- The sum of the lengths.
def total : Lengths → Nat
  | [] => 0
  | (_, none) :: rest => total rest
  | (_, some length) :: rest => length + total rest

-- One family is ahead of another if fewer lengths are missing in it or, with
-- as many missing, their sum is smaller.
def Ahead (a b : Lengths) : Prop :=
  missing a < missing b ∨ (missing a = missing b ∧ total a < total b)

theorem Ahead.trans {a b c : Lengths} (h : Ahead a b) (h' : Ahead b c) : Ahead a c := by
  unfold Ahead at *
  omega

-- Shortening one name changes nothing or gets ahead.
theorem change_eq_or_ahead (lengths : Lengths) (name : String) (length : Nat) :
    lengths.change name (shorter length) = lengths ∨
      Ahead (lengths.change name (shorter length)) lengths := by
  induction lengths with
  | nil => exact .inl rfl
  | cons entry rest ih =>
    obtain ⟨other, old⟩ := entry
    simp only [Family.change]
    unfold Ahead at *
    by_cases h : other = name
    · rw [if_pos h]
      cases old with
      | none => right; simp only [shorter, missing]; omega
      | some old =>
        simp only [shorter, missing, total]
        by_cases hl : length < old
        · exact .inr (.inr ⟨trivial, by omega⟩)
        · left; rw [Nat.min_eq_right (by omega)]
    · rw [if_neg h]
      rcases ih with ih | ih
      · rw [ih]; exact .inl rfl
      · right
        cases old with
        | none => simp only [missing, total]; omega
        | some old => simp only [missing, total]; omega

theorem improve?_eq_or_ahead {lengths next : Lengths} {p : Production}
    (h : lengths.improve? p = some next) : next = lengths ∨ Ahead next lengths := by
  obtain ⟨debt, _, rfl⟩ := Option.map_eq_some_iff.mp h
  cases debt with
  | finite length => exact change_eq_or_ahead lengths p.lhs _
  | _ => exact .inl rfl

theorem round?_eq_or_ahead {productions : List Production} {lengths next : Lengths}
    (h : productions.foldlM improve? lengths = some next) :
    next = lengths ∨ Ahead next lengths := by
  induction productions generalizing lengths with
  | nil => exact .inl (Option.some.inj h).symm
  | cons p rest ih =>
    rw [List.foldlM_cons] at h
    obtain ⟨middle, hp, hr⟩ := Option.bind_eq_some_iff.mp h
    rcases improve?_eq_or_ahead hp with he | ha
    · exact he ▸ ih hr
    · rcases ih hr with he' | ha'
      · exact .inr (he' ▸ ha)
      · exact .inr (ha'.trans ha)

-- Rounds are made until one changes nothing.
def settled? (g : Grammar) (lengths : Lengths) : Option Lengths :=
  match _ : lengths.round? g with
  | none => none
  | some next => if next = lengths then some lengths else settled? g next
termination_by (lengths.missing, lengths.total)
decreasing_by
  rcases round?_eq_or_ahead ‹_ = some next› with h | h | ⟨he, h⟩
  · contradiction
  · exact Prod.Lex.left _ _ h
  · exact he ▸ Prod.Lex.right _ h

def initial (g : Grammar) : Lengths := g.sortedNonterminals.map (·, none)

-- The length of the shortest sentence of each nonterminal. None if on the way the
-- debt of some right side has no value.
def shortest? (g : Grammar) : Option Lengths := settled? g (initial g)

-- The nonterminals that have a sentence, with the length of the shortest.
def found (lengths : Lengths) : List (String × Nat) :=
  lengths.filterMap fun (name, length) => length.map (name, ·)

end Lengths

end ContextFree
