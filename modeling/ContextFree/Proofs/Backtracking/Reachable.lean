import ContextFree.Proofs.Backtracking.Arena

namespace ContextFree

theorem exists_of_mem_mapM {work : α → Except ε β} {xs : List α} {ys : List β}
    (h : xs.mapM work = .ok ys) {y : β} (hm : y ∈ ys) : ∃ x ∈ xs, work x = .ok y := by
  induction xs generalizing ys with
  | nil =>
      obtain rfl := Except.ok.inj h
      simp at hm
  | cons x xs ih =>
      rw [List.mapM_cons] at h
      cases hfirst : work x with
      | error fault => simp [hfirst, bind, Except.bind] at h
      | ok z =>
          cases hrest : xs.mapM work with
          | error fault => simp [hfirst, hrest, bind, Except.bind] at h
          | ok zs =>
              simp only [hfirst, hrest, bind, Except.bind, pure, Except.pure, Except.ok.injEq] at h
              subst h
              rcases List.mem_cons.mp hm with rfl | hm
              · exact ⟨x, by simp, hfirst⟩
              · obtain ⟨w, hw, hwork⟩ := ih hrest hm
                exact ⟨w, by simp [hw], hwork⟩

namespace Slot

-- The symbol on the right-hand side that the slot is for.
def symbol : Slot → Symbol
  | .terminal name => .terminal name
  | .unexpanded name => .nonterminal name
  | .expanded name _ => .nonterminal name

@[simp] theorem symbol_ofSymbol (s : Symbol) : (ofSymbol s).symbol = s := by
  cases s <;> rfl

theorem ofSymbol_ne_expanded (s : Symbol) (name : String) (child : Nat) :
    ofSymbol s ≠ .expanded name child := by
  cases s <;> simp [ofSymbol]

theorem map_symbol_ofSymbol (symbols : List Symbol) :
    (symbols.map ofSymbol).map symbol = symbols := by
  simp [Function.comp_def]

end Slot

namespace Attempt

-- An attempt that some steps lead to, each with any token at any position, and the tokens
-- that were consumed on the way.
inductive Reachable (g : Grammar) (lengths : String → Option Int) :
    Attempt → List String → Prop where
  | initial : Reachable g lengths (.initial g lengths) []
  | step {a next : Attempt} {consumed : List String} {token : Option String} {position : Nat}
      {move : Move} (reached : Reachable g lengths a consumed)
      (steps : a.step g lengths token position = .ok move) (mem : next ∈ move.successors) :
      Reachable g lengths next (consumed ++ token.toList.take move.consumed)

-- The slot at the spot, if there is one.
def slot? (expansions : Array Expansion) (spot : Spot) : Option Slot :=
  expansions[spot.expansion]?.bind (·.slots[spot.slot]?)

theorem slotAt_eq_ok_iff (a : Attempt) (spot : Spot) (slot : Slot) :
    a.slotAt spot = .ok slot ↔ slot? a.expansions spot = some slot := by
  unfold slotAt expansionAt slot?
  cases a.expansions[spot.expansion]? with
  | none => simp
  | some e => cases hslot : e.slots[spot.slot]? <;> simp [hslot]

-- A step matches the terminal under the cursor, which has to be the token, or expands the
-- nonterminal under the cursor by one of its productions.
theorem step_cases {a next : Attempt} {g : Grammar} {lengths : String → Option Int}
    {token : Option String} {position : Nat} {move : Move}
    (h : a.step g lengths token position = .ok move) (hm : next ∈ move.successors) :
    (∃ spot name, a.cursor = some spot ∧ a.slotAt spot = .ok (.terminal name) ∧
      token = some name ∧ move.consumed = 1 ∧ a.consume spot = .ok next) ∨
    ∃ spot p, a.cursor = some spot ∧ a.slotAt spot = .ok (.unexpanded p.lhs) ∧
      p ∈ g.productions ∧ move.consumed = 0 ∧
      a.expand lengths spot p.lhs p position = .ok next := by
  unfold step at h
  split at h
  · simp at h
  · rename_i spot hcursor
    split at h
    · simp at h
    · rename_i name hslot
      split at h
      · rename_i htoken
        cases hnext : a.consume spot with
        | error fault => simp [hnext, Except.map] at h
        | ok other =>
            simp only [hnext, Except.map, Except.ok.injEq] at h
            subst h
            obtain rfl := List.mem_singleton.mp hm
            exact .inl ⟨spot, name, hcursor, hslot, htoken, rfl, hnext⟩
      · obtain rfl := Except.ok.inj h
        simp at hm
    · rename_i name hslot
      cases hall : (g.productionsFor name).mapM fun p => a.expand lengths spot name p position with
      | error fault => simp [hall, Except.map] at h
      | ok successors =>
          simp only [hall, Except.map, Except.ok.injEq] at h
          subst h
          obtain ⟨p, hp, hnext⟩ := exists_of_mem_mapM hall hm
          obtain ⟨mem, rfl⟩ := (g.mem_productionsFor name p).mp hp
          exact .inr ⟨spot, p, hcursor, hslot, mem, rfl, hnext⟩
    · simp at h

theorem expansions_of_leaveFinished {a next : Attempt} (h : a.leaveFinished = .ok next) :
    next.expansions = a.expansions := by
  unfold leaveFinished at h
  split at h
  · rw [← Except.ok.inj h]
  · split at h
    · simp at h
    · rw [← Except.ok.inj h]

theorem expansions_of_consume {a next : Attempt} {spot : Spot} (h : a.consume spot = .ok next) :
    next.expansions = a.expansions :=
  expansions_of_leaveFinished (a := { a with
    cursor := some { spot with slot := spot.slot + 1 }
    owed := a.owed.payOne }) h

theorem exists_of_expand {a next : Attempt} {lengths : String → Option Int} {spot : Spot}
    {name : String} {p : Production} {position : Nat}
    (h : a.expand lengths spot name p position = .ok next) :
    (∃ owed, a.owed.replace? lengths name p.rhs = some owed) ∧
      next.expansions = opened a.expansions spot name p position := by
  unfold expand at h
  split at h
  · simp at h
  · rename_i owed howed
    exact ⟨⟨owed, howed⟩, expansions_of_leaveFinished h⟩

section Opened

variable {expansions : Array Expansion} {spot : Spot} {name : String} (p : Production)
  (position : Nat)

theorem getElem?_opened (index : Nat) :
    (opened expansions spot name p position)[index]? =
      if index = expansions.size then
        some { slots := p.rhs.map Slot.ofSymbol, owner := some spot, origin := position }
      else expansions[index]?.map fun e =>
        if index = spot.expansion then
          { e with slots := e.slots.set spot.slot (.expanded name expansions.size) }
        else e := by
  rw [opened, Array.getElem?_push, Array.size_modify]
  by_cases hlast : index = expansions.size
  · rw [if_pos hlast, if_pos hlast]
  · rw [if_neg hlast, if_neg hlast, Array.getElem?_modify]
    by_cases hspot : spot.expansion = index
    · simp [hspot]
    · simp [hspot, Ne.symm hspot]

-- The slot at the spot is expanded into the new expansion, and no other slot is changed.
theorem slot?_opened (hspot : slot? expansions spot = some (.unexpanded name)) (other : Spot) :
    slot? (opened expansions spot name p position) other =
      if other.expansion = expansions.size then (p.rhs.map Slot.ofSymbol)[other.slot]?
      else if other = spot then some (.expanded name expansions.size)
      else slot? expansions other := by
  obtain ⟨e, he, hslot⟩ := Option.bind_eq_some_iff.mp hspot
  rw [slot?, getElem?_opened]
  by_cases hlast : other.expansion = expansions.size
  · simp [hlast]
  · rw [if_neg hlast, if_neg hlast]
    by_cases hexpansion : other.expansion = spot.expansion
    · have hlt := (List.getElem?_eq_some_iff.mp hslot).1
      by_cases hindex : other.slot = spot.slot
      · have hother : other = spot := by
          obtain ⟨i, k⟩ := other
          simp only at hexpansion hindex
          rw [hexpansion, hindex]
        simp [hother, he, hlt]
      · have hother : other ≠ spot := fun heq => hindex (heq ▸ rfl)
        simp [slot?, hother, hexpansion, he, List.getElem?_set_ne (Ne.symm hindex)]
    · have hother : other ≠ spot := fun heq => hexpansion (heq ▸ rfl)
      simp [slot?, hother, hexpansion]

-- What is changed in the older expansions are neither their owners nor their symbols.
theorem map_symbol_set {slots : List Slot} {index : Nat}
    (h : slots[index]? = some (.unexpanded name)) (child : Nat) :
    (slots.set index (.expanded name child)).map Slot.symbol = slots.map Slot.symbol := by
  obtain ⟨hlt, heq⟩ := List.getElem?_eq_some_iff.mp h
  have hlt' : index < (slots.map Slot.symbol).length := by simpa using hlt
  have hself : (slots.map Slot.symbol)[index] = (Slot.expanded name child).symbol := by
    simp [heq, Slot.symbol]
  rw [List.map_set, ← hself, List.set_getElem_self]

theorem exists_opened (hspot : slot? expansions spot = some (.unexpanded name)) {index : Nat}
    {e : Expansion} (he : expansions[index]? = some e) :
    ∃ e', (opened expansions spot name p position)[index]? = some e' ∧ e'.owner = e.owner ∧
      e'.slots.map Slot.symbol = e.slots.map Slot.symbol := by
  have hlt := (Array.getElem?_eq_some_iff.mp he).1
  refine ⟨_, by rw [getElem?_opened, if_neg (Nat.ne_of_lt hlt), he, Option.map_some], ?_⟩
  split
  · rename_i hindex
    rw [slot?, ← hindex, he] at hspot
    exact ⟨rfl, map_symbol_set hspot _⟩
  · exact ⟨rfl, rfl⟩

end Opened

-- The expansions form a tree: each but the first is owned by the slot of an older one that was
-- expanded into it, and its slots are the right-hand side of a production. The first holds the
-- start symbol and is not owned.
structure Linked (g : Grammar) (expansions : Array Expansion) : Prop where
  root : ∃ e, expansions[0]? = some e ∧ e.owner = none ∧
    e.slots.map Slot.symbol = [.nonterminal g.start]
  owned : ∀ index e, expansions[index]? = some e → 0 < index → ∃ owner name,
    e.owner = some owner ∧ owner.expansion < index ∧
    slot? expansions owner = some (.expanded name index) ∧
    { lhs := name, rhs := e.slots.map Slot.symbol } ∈ g.productions
  child : ∀ spot name child, slot? expansions spot = some (.expanded name child) →
    ∃ e, expansions[child]? = some e ∧ e.owner = some spot

namespace Linked

variable {g : Grammar} {expansions : Array Expansion}

theorem initial (g : Grammar) (lengths : String → Option Int) :
    Linked g (Attempt.initial g lengths).expansions := by
  constructor
  case root => exact ⟨_, rfl, rfl, rfl⟩
  case owned =>
    intro index e he hpos
    simp only [Attempt.initial, List.getElem?_toArray, List.getElem?_singleton] at he
    rw [if_neg (Nat.ne_of_gt hpos)] at he
    contradiction
  case child =>
    rintro ⟨index, k⟩ name child h
    obtain ⟨e, he, hslot⟩ := Option.bind_eq_some_iff.mp h
    simp only [Attempt.initial, List.getElem?_toArray, List.getElem?_singleton,
      Option.ite_none_right_eq_some, Option.some.injEq] at he
    obtain ⟨_, rfl⟩ := he
    simp only [List.getElem?_singleton, Option.ite_none_right_eq_some, Option.some.injEq] at hslot
    exact absurd hslot.2 (by simp)

-- An expansion is newer than the one that its owner lies in.
theorem lt_child (h : Linked g expansions) {spot : Spot} {name : String} {child : Nat}
    (hslot : slot? expansions spot = some (.expanded name child)) : spot.expansion < child := by
  obtain ⟨e, he, howner⟩ := h.child spot name child hslot
  cases child with
  | zero =>
      obtain ⟨root, hroot, hnone, _⟩ := h.root
      obtain rfl := Option.some.inj (he.symm.trans hroot)
      rw [hnone] at howner
      contradiction
  | succ child =>
      obtain ⟨owner, _, howner', hlt, _⟩ := h.owned (child + 1) e he (Nat.succ_pos child)
      obtain rfl := Option.some.inj (howner.symm.trans howner')
      exact hlt

-- One more expansion keeps the tree.
theorem opened (h : Linked g expansions) {spot : Spot} {p : Production} (mem : p ∈ g.productions)
    (hspot : slot? expansions spot = some (.unexpanded p.lhs)) (position : Nat) :
    Linked g (opened expansions spot p.lhs p position) := by
  have hlt : spot.expansion < expansions.size := by
    obtain ⟨e, he, _⟩ := Option.bind_eq_some_iff.mp hspot
    exact (Array.getElem?_eq_some_iff.mp he).1
  have hlast := getElem?_opened_size expansions spot p.lhs p position
  have hslot := slot?_opened p position hspot
  constructor
  case root =>
    obtain ⟨e, he, howner, hsymbols⟩ := h.root
    obtain ⟨e', he', howner', hsymbols'⟩ := exists_opened p position hspot he
    exact ⟨e', he', howner'.trans howner, hsymbols'.trans hsymbols⟩
  case owned =>
    intro index e' he' hpos
    by_cases hindex : index = expansions.size
    · rw [hindex, hlast] at he'
      obtain rfl := Option.some.inj he'
      refine ⟨spot, p.lhs, rfl, hindex ▸ hlt, ?_, ?_⟩
      · rw [hslot, if_neg (Nat.ne_of_lt hlt), if_pos rfl, hindex]
      · rw [Slot.map_symbol_ofSymbol]
        exact mem
    · have hbound := (Array.getElem?_eq_some_iff.mp he').1
      simp only [Attempt.opened, Array.size_push, Array.size_modify] at hbound
      have hold : expansions[index]? = some expansions[index] :=
        Array.getElem?_eq_getElem (by omega)
      obtain ⟨e'', he'', howner'', hsymbols''⟩ :=
        exists_opened p position hspot hold
      obtain rfl := Option.some.inj (he''.symm.trans he')
      obtain ⟨owner, name, howner, hless, hexpanded, hproduction⟩ := h.owned index _ hold hpos
      refine ⟨owner, name, howner''.trans howner, hless, ?_, hsymbols'' ▸ hproduction⟩
      rw [hslot, if_neg (by omega), if_neg, hexpanded]
      rintro rfl
      simp [hspot] at hexpanded
  case child =>
    intro other name child hother
    rw [hslot] at hother
    split at hother
    · rw [List.getElem?_map] at hother
      obtain ⟨s, _, hs⟩ := Option.map_eq_some_iff.mp hother
      exact absurd hs (Slot.ofSymbol_ne_expanded _ _ _)
    · split at hother
      · rename_i heq
        obtain ⟨_, rfl⟩ := Slot.expanded.inj (Option.some.inj hother)
        exact ⟨_, hlast, by rw [heq]⟩
      · obtain ⟨e, he, howner⟩ := h.child other name child hother
        obtain ⟨e', he', howner', _⟩ := exists_opened p position hspot he
        exact ⟨e', he', howner'.trans howner⟩

end Linked

theorem Reachable.linked {g : Grammar} {lengths : String → Option Int} {a : Attempt}
    {consumed : List String} (h : Reachable g lengths a consumed) : Linked g a.expansions := by
  induction h with
  | initial => exact .initial g lengths
  | step _ steps mem ih =>
      rcases step_cases steps mem with
        ⟨_, _, _, _, _, _, hnext⟩ | ⟨spot, p, _, hslot, hp, _, hnext⟩
      · rw [expansions_of_consume hnext]
        exact ih
      · rw [(exists_of_expand hnext).2]
        exact ih.opened hp ((slotAt_eq_ok_iff _ _ _).mp hslot) _

end Attempt

namespace Frame

-- What the trees in all frames spell, from the outermost to the innermost.
def spelled : List Frame → List String
  | [] => []
  | f :: outer => spelled outer ++ Tree.yieldList f.done

@[simp] theorem spelled_close (f : Frame) (outer : List Frame) :
    spelled (close f outer) = spelled (f :: outer) := by
  induction outer generalizing f with
  | nil => rfl
  | cons next outer ih =>
      rw [close]
      split
      · rw [ih]
        simp [spelled, add, tree]
      · rfl

-- The trees in all frames are valid.
def AllValid (g : Grammar) (frames : List Frame) : Prop :=
  ∀ f ∈ frames, ∀ t ∈ f.done, t.Valid g

theorem AllValid.add {g : Grammar} {f : Frame} {outer : List Frame} (h : AllValid g (f :: outer))
    {t : Tree} (ht : t.Valid g) (rest : List Symbol) :
    AllValid g (Frame.add { f with rest } t :: outer) := by
  intro other hm u hu
  rcases List.mem_cons.mp hm with rfl | hm
  · rcases List.mem_append.mp hu with hu | hu
    · exact h f (by simp) u hu
    · exact List.mem_singleton.mp hu ▸ ht
  · exact h other (by simp [hm]) u hu

theorem AllValid.expand {g : Grammar} {f inner : Frame} {outer : List Frame}
    (h : AllValid g (f :: outer)) (hnew : inner.done = []) (rest : List Symbol) :
    AllValid g (inner :: { f with rest } :: outer) := by
  intro other hm
  rcases List.mem_cons.mp hm with rfl | hm
  · simp [hnew]
  · rcases List.mem_cons.mp hm with rfl | hm
    · exact h f (by simp)
    · exact h other (by simp [hm])

-- The tree of a finished frame is valid: its children are a whole right-hand side.
theorem AllValid.close {g : Grammar} {f : Frame} {outer : List Frame}
    (h : AllValid g (f :: outer)) (proper : Proper g [] (f :: outer)) :
    AllValid g (Frame.close f outer) := by
  induction outer generalizing f with
  | nil => exact h
  | cons next outer ih =>
      rw [Frame.close]
      split
      · rename_i hrest
        cases proper with
        | inside mem around =>
            refine ih (AllValid.add (fun other hm => h other (by simp [hm])) ?_ next.rest)
              around.add
            simp only at hrest
            rw [hrest, List.append_nil, List.append_nil] at mem
            exact .node _ _ mem (h _ (by simp))
      · exact h

end Frame

namespace Attempt

-- What the frames of an attempt tell of it: they come from the grammar, and their trees are
-- valid and spell what was consumed.
structure Unfolds (g : Grammar) (a : Attempt) (consumed : List String) (frames : List Frame) :
    Prop where
  displays : a.Displays frames
  proper : Frame.Proper g [] frames
  valid : Frame.AllValid g frames
  spelled : Frame.spelled frames = consumed

theorem unfolds_initial (g : Grammar) (lengths : String → Option Int) :
    Unfolds g (initial g lengths) []
      [{ label := none, origin := 0, done := [], rest := [.nonterminal g.start] }] :=
  ⟨displays_initial g lengths, .root rfl, by simp [Frame.AllValid], rfl⟩

section Unfolding

variable {g : Grammar} {a next : Attempt} {consumed : List String} {frames : List Frame}
  {spot : Spot}

-- The slot under the cursor is for the symbol that is next in the innermost frame.
theorem Unfolds.exists_rest (h : Unfolds g a consumed frames) (hcursor : a.cursor = some spot) :
    ∃ index f outer s rest, frames = f :: outer ∧ f.rest = s :: rest ∧
      Chain a.expansions index [] (f :: outer) ∧
      spot = { expansion := index, slot := f.done.length } ∧ a.slotAt spot = .ok (.ofSymbol s) := by
  obtain ⟨_, f, outer, rfl, _, _, hspot⟩ := h.displays.exists_chain
  by_cases hrest : f.rest = []
  · simp [hrest, hcursor] at hspot
  · obtain ⟨s, rest, hrest⟩ := List.exists_cons_of_ne_nil hrest
    obtain ⟨index, hchain, hspot, hslot⟩ := h.displays.exists_spot hrest
    obtain rfl := Option.some.inj (hcursor.symm.trans hspot)
    exact ⟨index, f, outer, s, rest, rfl, hrest, hchain, rfl, hslot⟩

theorem Unfolds.consume (h : Unfolds g a consumed frames) (hcursor : a.cursor = some spot)
    {name : String} (hslot : a.slotAt spot = .ok (.terminal name))
    (hnext : a.consume spot = .ok next) :
    ∃ others, Unfolds g next (consumed ++ [name]) others := by
  obtain ⟨index, f, outer, s, rest, rfl, hrest, hchain, rfl, hslot'⟩ := h.exists_rest hcursor
  obtain rfl : s = .terminal name := by
    have := congrArg Slot.symbol (Except.ok.inj (hslot'.symm.trans hslot))
    rwa [Slot.symbol_ofSymbol] at this
  obtain ⟨next', hnext', hdisplays, _⟩ := exists_consume hchain hrest
  obtain rfl := Except.ok.inj (hnext'.symm.trans hnext)
  have hproper := (h.proper.descend hrest).add (t := .leaf name)
  refine ⟨_, hdisplays, hproper.closed, (h.valid.add (.leaf name) rest).close hproper, ?_⟩
  rw [Frame.spelled_close, ← h.spelled]
  simp [Frame.spelled, Frame.add]

theorem Unfolds.expand (h : Unfolds g a consumed frames) (hcursor : a.cursor = some spot)
    {p : Production} (hslot : a.slotAt spot = .ok (.unexpanded p.lhs)) (mem : p ∈ g.productions)
    {lengths : String → Option Int} {position : Nat}
    (hnext : a.expand lengths spot p.lhs p position = .ok next) :
    ∃ others, Unfolds g next consumed others := by
  obtain ⟨index, f, outer, s, rest, rfl, hrest, hchain, rfl, hslot'⟩ := h.exists_rest hcursor
  obtain rfl : s = .nonterminal p.lhs := by
    have := congrArg Slot.symbol (Except.ok.inj (hslot'.symm.trans hslot))
    rwa [Slot.symbol_ofSymbol] at this
  obtain ⟨⟨owed, howed⟩, _⟩ := exists_of_expand hnext
  obtain ⟨next', hnext', hdisplays, _⟩ := exists_expand hchain hrest howed position
  obtain rfl := Except.ok.inj (hnext'.symm.trans hnext)
  have hproper := (h.proper.descend hrest).expand mem position
  refine ⟨_, hdisplays, hproper.closed, (h.valid.expand rfl rest).close hproper, ?_⟩
  rw [Frame.spelled_close, ← h.spelled]
  simp [Frame.spelled]

end Unfolding

theorem Reachable.exists_unfolds {g : Grammar} {lengths : String → Option Int} {a : Attempt}
    {consumed : List String} (h : Reachable g lengths a consumed) :
    ∃ frames, Unfolds g a consumed frames := by
  induction h with
  | initial => exact ⟨_, unfolds_initial g lengths⟩
  | step _ steps mem ih =>
      obtain ⟨frames, h⟩ := ih
      rcases step_cases steps mem with
        ⟨_, name, hcursor, hslot, htoken, hone, hnext⟩ | ⟨_, p, hcursor, hslot, hp, hzero, hnext⟩
      · rw [htoken, hone]
        exact h.consume hcursor hslot hnext
      · rw [hzero, List.take_zero, List.append_nil]
        exact h.expand hcursor hslot hp hnext

-- When nothing remains, there is one frame, and its only tree is the tree of the attempt.
theorem Unfolds.exists_tree {g : Grammar} {a : Attempt} {consumed : List String}
    {frames : List Frame} (h : Unfolds g a consumed frames) (hcomplete : a.cursor = none) :
    ∃ t, a.tree = .ok t ∧ t.Derivation g g.start consumed := by
  obtain ⟨_, f, outer, rfl, _, hlast, hcursor⟩ := h.displays.exists_chain
  have hrest : f.rest = [] := by
    by_cases hrest : f.rest = []
    · exact hrest
    · simp [hrest, hcomplete] at hcursor
  obtain rfl := hlast hrest
  have hroots : f.done.map Tree.root = [.nonterminal g.start] := by
    cases h.proper with
    | root roots =>
        simp only at hrest
        rw [hrest, List.append_nil, List.append_nil] at roots
        exact roots
    | inside _ around => exact absurd rfl around.ne_nil
  obtain ⟨t, hdone, hroot⟩ := List.map_eq_singleton_iff.mp hroots
  obtain ⟨children, rfl⟩ := Tree.exists_node_of_root hroot
  refine ⟨_, tree_of_displays h.displays hrest hdone, hroot, h.valid f (by simp) _ ?_, ?_⟩
  · simp [hdone]
  · have := h.spelled
    simpa [Frame.spelled, hdone] using this

end Attempt

end ContextFree
