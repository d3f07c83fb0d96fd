import ContextFree.Proofs.Analysis.Overflow
import ContextFree.Proofs.Declared
import ContextFree.Proofs.Derivation.Sentences
import Mathlib.Order.Bounds.Basic

namespace ContextFree

namespace Grammar

-- How many tokens the sentences have that the form derives.
def sentenceLengths (g : Grammar) (form : List Symbol) : Set Nat :=
  {n | ∃ tokens, Derives g form (sentence tokens) ∧ tokens.length = n}

-- A symbol without a sentence meets symbols with too long a sentence: those in front of it taken
-- together, or a single one behind it.
def Overflows (g : Grammar) (symbols : List Symbol) : Prop :=
  ∃ before s after, symbols = before ++ s :: after ∧ g.sentenceLengths [s] = ∅ ∧
    ((∃ n, IsLeast (g.sentenceLengths before) n ∧ Debt.limit ≤ n) ∨
      ∃ t ∈ after, ∃ n, IsLeast (g.sentenceLengths [t]) n ∧ Debt.limit ≤ n)

end Grammar

namespace Lengths

section Attained

variable {g : Grammar} {lengths : Lengths}

-- Each length is that of some sentence.
def Attained (g : Grammar) (lengths : Lengths) : Prop :=
  ∀ name n, lengths.of name = some n → n ∈ g.sentenceLengths [.nonterminal name]

theorem Attained.size? (h : Attained g lengths) {s : Symbol} {n : Nat}
    (hn : lengths.size? s = some n) : n ∈ g.sentenceLengths [s] := by
  cases s with
  | terminal name =>
      obtain rfl := Option.some.inj hn
      exact ⟨[name], .refl _, rfl⟩
  | nonterminal name => exact h name n hn

-- Sentences of the symbols, one after the other, are a sentence of the sequence.
theorem Attained.sum? (h : Attained g lengths) {symbols : List Symbol} {n : Nat}
    (hn : lengths.sum? symbols = some n) : n ∈ g.sentenceLengths symbols := by
  induction symbols generalizing n with
  | nil =>
      obtain rfl := Option.some.inj hn
      exact ⟨[], .refl _, rfl⟩
  | cons s rest ih =>
      obtain ⟨a, b, ha, hb, rfl⟩ := sum?_cons_eq_some.mp hn
      obtain ⟨first, hfirst, rfl⟩ := h.size? ha
      obtain ⟨others, hothers, rfl⟩ := ih hb
      refine ⟨first ++ others, ?_, List.length_append⟩
      rw [sentence_append]
      exact hfirst.concat hothers

theorem attained_initial (g : Grammar) : Attained g (initial g) := by
  intro name n hn
  simp [of_initial] at hn

-- The new length is the old one or that of the right side.
theorem of_change_cases {name other : String} {length n : Nat}
    (h : of (lengths.change name (shorter length)) other = some n) :
    lengths.of other = some n ∨ other = name ∧ n = length := by
  by_cases heq : other = name
  · subst heq
    rw [of, Family.value?_change_self] at h
    cases hvalue : lengths.value? other with
    | none => simp [hvalue] at h
    | some old =>
        cases old with
        | none => exact .inr ⟨rfl, by simpa [hvalue, shorter, eq_comm] using h⟩
        | some old =>
            obtain rfl : min length old = n := by simpa [hvalue, shorter] using h
            rcases Nat.le_total length old with hle | hle
            · exact .inr ⟨rfl, Nat.min_eq_left hle⟩
            · exact .inl (by simp [of, hvalue, Nat.min_eq_right hle])
  · rw [of, Family.value?_change_of_ne _ _ _ _ heq] at h
    exact .inl h

theorem Attained.improve? (h : Attained g lengths) {p : Production} (mem : p ∈ g.productions)
    {next : Lengths} (hnext : lengths.improve? p = some next) : Attained g next := by
  obtain ⟨debt, hdebt, rfl⟩ := Option.map_eq_some_iff.mp hnext
  cases hsum : lengths.sum? p.rhs with
  | none =>
      obtain rfl := ofSequence?_of_sum?_none hsum hdebt
      exact h
  | some m =>
      obtain rfl := Option.some.inj ((ofSequence?_of_sum? hsum).symm.trans hdebt)
      intro name n hn
      rcases of_change_cases hn with hold | ⟨rfl, rfl⟩
      · exact h name n hold
      · obtain ⟨tokens, htokens, hlength⟩ := h.sum? hsum
        exact ⟨tokens, (Derives.of_production mem).trans htokens, hlength⟩

theorem attained_shortest? (h : shortest? g = some lengths) : Attained g lengths := by
  rcases settled?_cases (fun p mem before next hbefore => hbefore.improve? mem)
    (attained_initial g) with ⟨final, hfinal, hattained, _⟩ | ⟨hnone, _⟩
  · obtain rfl := Option.some.inj (hfinal.symm.trans h)
    exact hattained
  · simp [shortest?, hnone] at h

end Attained

theorem sum?_singleton (lengths : Lengths) (s : Symbol) : lengths.sum? [s] = lengths.size? s := by
  cases h : lengths.size? s <;> simp [sum?, h]

section Exact

variable {g : Grammar} {lengths : Lengths} (h : shortest? g = some lengths)

include h

-- No sentence of the form has fewer tokens than the lengths of its symbols come to.
theorem exists_sum?_le {form : List Symbol} {n : Nat} (hn : n ∈ g.sentenceLengths form) :
    ∃ m, lengths.sum? form = some m ∧ m ≤ n := by
  obtain ⟨tokens, htokens, rfl⟩ := hn
  obtain ⟨ts, rfl, hvalid, rfl⟩ := Tree.derives_sentence_iff.mp htokens
  exact Settled.sum?_le ts (fun t _ => (settled_shortest? h).size?_le) hvalid

theorem sum?_eq_some_iff {form : List Symbol} {n : Nat} :
    lengths.sum? form = some n ↔ IsLeast (g.sentenceLengths form) n := by
  constructor
  · intro hn
    refine ⟨(attained_shortest? h).sum? hn, fun k hk => ?_⟩
    obtain ⟨m, hm, hle⟩ := exists_sum?_le h hk
    obtain rfl := Option.some.inj (hn.symm.trans hm)
    exact hle
  · rintro ⟨hmem, hleast⟩
    obtain ⟨m, hm, hle⟩ := exists_sum?_le h hmem
    have hge := hleast ((attained_shortest? h).sum? hm)
    rw [hm, Nat.le_antisymm hle hge]

theorem sum?_eq_none_iff {form : List Symbol} :
    lengths.sum? form = none ↔ g.sentenceLengths form = ∅ := by
  constructor
  · intro hnone
    refine Set.eq_empty_of_forall_notMem fun n hn => ?_
    obtain ⟨m, hm, _⟩ := exists_sum?_le h hn
    simp [hnone] at hm
  · intro hempty
    cases hm : lengths.sum? form with
    | none => rfl
    | some m => exact absurd ((attained_shortest? h).sum? hm) (by simp [hempty])

theorem size?_eq_none_iff {s : Symbol} :
    lengths.size? s = none ↔ g.sentenceLengths [s] = ∅ := by
  rw [← sum?_eq_none_iff h, sum?_singleton]

theorem of_eq_some_iff {name : String} {n : Nat} :
    lengths.of name = some n ↔ IsLeast (g.sentenceLengths [.nonterminal name]) n := by
  rw [← sum?_eq_some_iff h, sum?_singleton, size?]

theorem of_eq_none_iff {name : String} :
    lengths.of name = none ↔ g.sentenceLengths [.nonterminal name] = ∅ := by
  rw [← sum?_eq_none_iff h, sum?_singleton, size?]

end Exact

section Overflow

variable {lengths : Lengths}

theorem foldlM_add_infinite_of_limit_le {symbols : List Symbol} {t : Symbol} (ht : t ∈ symbols)
    {n : Nat} (hn : lengths.size? t = some n) (hle : Debt.limit ≤ n) :
    symbols.foldlM (fun owed s => Debt.add? owed (Debt.ofSymbol lengths.toInt s)) .infinite =
      none := by
  induction symbols with
  | nil => simp at ht
  | cons s rest ih =>
      rw [List.foldlM_cons]
      rcases List.mem_cons.mp ht with rfl | ht
      · rw [ofSymbol_of_size? hn, Debt.add?_infinite_finite,
          if_neg (Debt.not_fits_of_limit_le hle)]
        rfl
      · cases hs : lengths.size? s with
        | none =>
            rw [ofSymbol_of_size?_none hs]
            exact ih ht
        | some m =>
            rw [ofSymbol_of_size? hs, Debt.add?_infinite_finite]
            split
            · exact ih ht
            · rfl

-- A symbol without a length makes the debt infinite, and what meets an infinite debt has to fit.
theorem ofSequence?_eq_none {before after : List Symbol} {s : Symbol}
    (hs : lengths.size? s = none)
    (hlong : (∃ n, lengths.sum? before = some n ∧ Debt.limit ≤ n) ∨
      ∃ t ∈ after, ∃ n, lengths.size? t = some n ∧ Debt.limit ≤ n) :
    Debt.ofSequence? lengths.toInt (before ++ s :: after) = none := by
  rw [Debt.ofSequence?, List.foldlM_append, ← Debt.ofSequence?]
  cases hdebt : Debt.ofSequence? lengths.toInt before with
  | none => rfl
  | some debt =>
      rw [Option.bind_eq_bind, Option.bind_some, List.foldlM_cons, ofSymbol_of_size?_none hs,
        Option.bind_eq_bind, Option.bind_eq_none_iff]
      intro middle hmiddle
      cases hsum : lengths.sum? before with
      | none =>
          obtain rfl := ofSequence?_of_sum?_none hsum hdebt
          obtain rfl := Option.some.inj hmiddle
          rcases hlong with ⟨n, hn, _⟩ | ⟨t, ht, n, hn, hle⟩
          · simp [hsum] at hn
          · exact foldlM_add_infinite_of_limit_le ht hn hle
      | some m =>
          obtain rfl := Option.some.inj ((ofSequence?_of_sum? hsum).symm.trans hdebt)
          rw [Debt.add?_finite_infinite, Option.ite_none_right_eq_some] at hmiddle
          obtain ⟨hfits, hmiddle⟩ := hmiddle
          obtain rfl := Option.some.inj hmiddle
          rcases hlong with ⟨n, hn, hle⟩ | ⟨t, ht, n, hn, hle⟩
          · obtain rfl := Option.some.inj (hsum.symm.trans hn)
            exact absurd hfits (Debt.not_fits_of_limit_le hle)
          · exact foldlM_add_infinite_of_limit_le ht hn hle

end Overflow

-- The lengths cannot be found if those of one right side cannot be added up.
theorem shortest?_of_overflows {g : Grammar} {p : Production} (mem : p ∈ g.productions)
    (h : g.Overflows p.rhs) : shortest? g = none := by
  obtain ⟨before, s, after, hrhs, hs, hlong⟩ := h
  cases hlengths : shortest? g with
  | none => rfl
  | some lengths =>
      obtain ⟨debt, hdebt⟩ := (settled_shortest? hlengths).exists_debt mem
      rw [← size?_eq_none_iff hlengths] at hs
      simp only [← sum?_eq_some_iff hlengths, sum?_singleton] at hlong
      rw [hrhs, ofSequence?_eq_none hs hlong] at hdebt
      contradiction

section Found

variable {g : Grammar} {lengths : Lengths}

-- A name is listed with the length that it has.
theorem mem_found_iff (hnodup : lengths.names.Nodup) (name : String) (n : Nat) :
    (name, n) ∈ lengths.found ↔ lengths.of name = some n := by
  rw [of, Option.join_eq_some_iff, Family.value?_eq_some_iff hnodup, found, List.mem_filterMap]
  constructor
  · rintro ⟨⟨other, length⟩, hm, heq⟩
    obtain ⟨m, rfl, hpair⟩ := Option.map_eq_some_iff.mp heq
    obtain ⟨rfl, rfl⟩ := Prod.mk.inj hpair
    exact hm
  · exact fun hm => ⟨_, hm, rfl⟩

theorem nodup_found (hnodup : lengths.names.Nodup) : (lengths.found.map Prod.fst).Nodup := by
  refine hnodup.sublist ?_
  clear hnodup
  induction lengths with
  | nil => exact .slnil
  | cons entry rest ih =>
      obtain ⟨name, length⟩ := entry
      cases length with
      | none => exact ih.cons name
      | some n => exact ih.cons_cons name

theorem nodup_names_shortest? (h : shortest? g = some lengths) : lengths.names.Nodup := by
  rw [(settled_shortest? h).names_eq]
  exact Names.nodup_sortedSet _

end Found

-- The lengths that are found are those of the shortest sentences, and the nonterminals that have
-- none are those without a sentence, however long the sentences are. But lengths that meet a symbol
-- without a sentence have to fit: where they do not, none are found. That takes a grammar in which
-- a tree can be so large.
theorem shortest?_exact (g : Grammar) :
    (∀ lengths, shortest? g = some lengths →
      (lengths.found.map Prod.fst).Nodup ∧
      (∀ name n, (name, n) ∈ lengths.found ↔ IsLeast (g.sentenceLengths [.nonterminal name]) n) ∧
      ∀ name, (∀ n, (name, n) ∉ lengths.found) ↔ g.sentenceLengths [.nonterminal name] = ∅) ∧
    (∀ p ∈ g.productions, g.Overflows p.rhs → shortest? g = none) ∧
    ∀ base, 0 < base → (∀ p ∈ g.productions, p.rhs.length ≤ base) →
      Nat.pow base g.sortedNonterminals.length < Debt.limit → shortest? g ≠ none := by
  refine ⟨fun lengths h => ?_, fun p mem => shortest?_of_overflows mem,
    fun base hpos hbase hlt hnone => ?_⟩
  · have hnodup := nodup_names_shortest? h
    refine ⟨nodup_found hnodup, fun name n => ?_, fun name => ?_⟩
    · rw [mem_found_iff hnodup, of_eq_some_iff h]
    · simp only [mem_found_iff hnodup, ← of_eq_none_iff h, Option.eq_none_iff_forall_ne_some]
  · have := limit_le_of_shortest? hpos hbase hnone
    omega

-- The nonterminal of a storey of a tower.
def storey (k : Nat) : String := String.ofList (List.replicate k 'A')

theorem storey_inj {j k : Nat} (h : storey j = storey k) : j = k := by
  simpa using congrArg List.length (String.ofList_injective h)

theorem ne_storey {name : String} {c : Char} (hc : c ∈ name.toList) (hne : c ≠ 'A') (k : Nat) :
    name ≠ storey k := by
  rintro rfl
  rw [storey, String.toList_ofList] at hc
  exact hne (List.eq_of_mem_replicate hc)

-- Each storey is four times as long as the one below, and `U` has no sentence.
def towerDeclaration (height : Nat) : Declaration where
  nonterminals := "U" :: (List.range (height + 1)).map storey
  terminals := ["a"]
  productions :=
    { lhs := "U", rhs := [.nonterminal (storey height), .nonterminal "U"] } ::
    { lhs := storey 0, rhs := [.terminal "a"] } ::
    (List.range height).map fun k =>
      { lhs := storey (k + 1), rhs := List.replicate 4 (.nonterminal (storey k)) }
  start := storey 0

theorem mem_productions_tower {height : Nat} {p : Production} :
    p ∈ (towerDeclaration height).productions ↔
      p = { lhs := "U", rhs := [.nonterminal (storey height), .nonterminal "U"] } ∨
      p = { lhs := storey 0, rhs := [.terminal "a"] } ∨
      ∃ k < height, p = { lhs := storey (k + 1),
                          rhs := List.replicate 4 (.nonterminal (storey k)) } := by
  simp only [towerDeclaration, List.mem_cons, List.mem_map, List.mem_range, eq_comm]

theorem problems_towerDeclaration (height : Nat) : (towerDeclaration height).problems = [] := by
  have hmem (k : Nat) (hk : k ≤ height) : storey k ∈ (towerDeclaration height).nonterminals :=
    List.mem_cons_of_mem _ (List.mem_map_of_mem (List.mem_range.mpr (by omega)))
  have hnot (name : String) (c : Char) (hc : c ∈ name.toList) (hne : c ≠ 'A') (hU : name ≠ "U") :
      name ∉ (towerDeclaration height).nonterminals := by
    simp only [towerDeclaration, List.mem_cons, List.mem_map, not_or, not_exists, not_and]
    exact ⟨hU, fun k _ heq => ne_storey hc hne k heq.symm⟩
  have hU : "U" ∈ (towerDeclaration height).nonterminals := List.mem_cons_self
  have ha : "a" ∈ (towerDeclaration height).terminals := List.mem_cons_self
  refine Declaration.problems_eq_nil_iff.mpr ⟨⟨?_, ?_⟩, ?_, hmem 0 (Nat.zero_le _), ?_⟩
  · exact hnot endMarker '$' (by decide) (by decide) (by decide)
  · simp [towerDeclaration, endMarker]
  · rintro name hm ht
    rw [List.mem_singleton.mp ht] at hm
    exact hnot "a" 'a' (by decide) (by decide) (by decide) hm
  · intro p hp
    rcases mem_productions_tower.mp hp with rfl | rfl | ⟨k, hk, rfl⟩
    · simp [Declaration.Declares, hmem height (Nat.le_refl _), hU]
    · simp [Declaration.Declares, hmem 0 (Nat.zero_le _), ha]
    · simp [Declaration.Declares, hmem k (Nat.le_of_lt hk), hmem (k + 1) hk]

def tower (height : Nat) : Grammar where
  toDeclaration := towerDeclaration height
  problems_eq := problems_towerDeclaration height

-- `U` derives no tokens, and a storey only as many as it is long.
theorem length_of_generates {height : Nat} {name : String} {tokens : List String}
    (h : (tower height).Generates name tokens) :
    name ≠ "U" ∧ ∀ k, name = storey k → tokens.length = Nat.pow 4 k := by
  refine h.induct (motive := fun name tokens =>
    name ≠ "U" ∧ ∀ k, name = storey k → tokens.length = Nat.pow 4 k) fun p mem tokens hp => ?_
  have hU : ∀ k, "U" ≠ storey k := ne_storey (c := 'U') (by decide) (by decide)
  rcases mem_productions_tower.mp mem with rfl | rfl | ⟨j, _, rfl⟩
  · obtain ⟨_, _, _, _, _, _, _, ⟨hno, _⟩, _⟩ := hp
    exact absurd rfl hno
  · obtain ⟨_, rfl, rfl⟩ := hp
    refine ⟨(hU 0).symm, fun k hk => ?_⟩
    obtain rfl := storey_inj hk
    rfl
  · refine ⟨(hU _).symm, fun k hk => ?_⟩
    obtain rfl := storey_inj hk
    simp only [List.replicate, spelled_nonterminal, spelled_nil] at hp
    obtain ⟨t, _, rfl, ht, u, _, rfl, hu, v, _, rfl, hv, w, _, rfl, hw, rfl⟩ := hp
    simp only [List.length_append, ht.2 j rfl, hu.2 j rfl, hv.2 j rfl, hw.2 j rfl,
      List.length_nil]
    have hpow : Nat.pow 4 (j + 1) = Nat.pow 4 j * 4 := rfl
    omega

theorem exists_generates_storey {height : Nat} (k : Nat) (hk : k ≤ height) :
    ∃ tokens, (tower height).Generates (storey k) tokens := by
  induction k with
  | zero => exact ⟨["a"], generates_iff.mpr ⟨_, mem_productions_tower.mpr (.inr (.inl rfl)), rfl,
      [], rfl, rfl⟩⟩
  | succ k ih =>
      obtain ⟨t, ht⟩ := ih (by omega)
      refine ⟨t ++ (t ++ (t ++ (t ++ []))), generates_iff.mpr ⟨_,
        mem_productions_tower.mpr (.inr (.inr ⟨k, hk, rfl⟩)), rfl, ?_⟩⟩
      exact ⟨t, _, rfl, ht, t, _, rfl, ht, t, _, rfl, ht, t, _, rfl, ht, rfl⟩

theorem isLeast_storey {height : Nat} (k : Nat) (hk : k ≤ height) :
    IsLeast ((tower height).sentenceLengths [.nonterminal (storey k)]) (Nat.pow 4 k) := by
  obtain ⟨tokens, htokens⟩ := exists_generates_storey k hk
  refine ⟨⟨tokens, htokens, (length_of_generates htokens).2 k rfl⟩, ?_⟩
  rintro n ⟨others, hothers, rfl⟩
  exact Nat.le_of_eq ((length_of_generates hothers).2 k rfl).symm

-- The start symbol has a sentence of one token, and no lengths are found.
theorem tower_overflows :
    shortest? (tower 512) = none ∧
      IsLeast ((tower 512).sentenceLengths [.nonterminal (tower 512).start]) 1 := by
  refine ⟨shortest?_of_overflows (mem_productions_tower.mpr (.inl rfl)) ?_,
    isLeast_storey 0 (Nat.zero_le _)⟩
  refine ⟨[.nonterminal (storey 512)], .nonterminal "U", [], rfl, ?_, .inl ⟨_,
    isLeast_storey 512 (Nat.le_refl _), by decide +kernel⟩⟩
  refine Set.eq_empty_of_forall_notMem ?_
  rintro n ⟨tokens, htokens, _⟩
  exact (length_of_generates htokens).1 rfl

end Lengths

end ContextFree
