import ContextFree.Proofs.Chart.Sessions
import Mathlib.Logic.Relation

namespace ContextFree

-- What the loop over the sets has come to: the chart so far, and the place whose turn it is.
structure Sweep where
  chart : Chart
  position : Nat
  index : Nat

namespace Sweep

def opening (g : Grammar) (tokens : List String) : Sweep :=
  { chart := .initial g tokens, position := 0, index := 0 }

-- An item is processed, or the set has no more items and the next one is begun. How many items
-- there are is seen anew in each turn.
def next? (w : Sweep) : Option Sweep :=
  if w.position < w.chart.sets.size then
    let place : Place := { set := w.position, index := w.index }
    match w.chart.item? place with
    | some item => some { w with chart := w.chart.process place item, index := w.index + 1 }
    | none => some { w with position := w.position + 1, index := 0 }
  else none

def Turns (w next : Sweep) : Prop := w.next? = some next

end Sweep

-- What is to be done for an item whose trees are asked for.
structure Call where
  place : Place
  lhs : String
  -- how often something had been cut when it was asked for
  cuts : Nat
  found : List (List Tree)
  -- the ways back that are still to be followed, the next one first
  ways : List (Place × List Tree)

-- A call that waits for the trees of the child of an edge, and has these edges left.
structure Pending where
  call : Call
  predecessor : Place
  after : List Tree
  edges : List Edge

-- What the collection of trees has come to. The innermost of the calls that wait comes first.
inductive Gathering where
  | asking (place : Place) (waiting : List Pending) (memo : TreeMemo)
  | walking (call : Call) (waiting : List Pending) (memo : TreeMemo)
  | following (call : Call) (after : List Tree) (edges : List Edge) (waiting : List Pending)
      (memo : TreeMemo)
  | answering (trees : List Tree) (waiting : List Pending) (memo : TreeMemo)

inductive Gathered where
  | next (s : Gathering)
  | stop (result : Except ChartFault (List Tree × TreeMemo))

namespace Chart

-- One step of the collection. Nothing bounds how many calls wait for each other, or how far
-- back a way leads.
def gather (c : Chart) : Gathering → Gathered
  | .asking place waiting memo =>
    match memo.known? place with
    | some trees => .next (.answering trees waiting memo)
    | none =>
      if place ∈ memo.active then
        .next (.answering [] waiting { memo with cuts := memo.cuts + 1 })
      else
        match c.item? place with
        | none => .stop (.error .noItem)
        | some item =>
          if item.isComplete then
            .next (.walking
              { place, lhs := item.production.lhs, cuts := memo.cuts, found := [],
                ways := [(place, [])] }
              waiting { memo with active := place :: memo.active })
          else .stop (.error .incompleteItem)
  | .walking call waiting memo =>
    match call.ways with
    | [] =>
      let trees := call.found.map (Tree.node call.lhs)
      .next (.answering trees waiting
        { memo with
          active := memo.active.erase call.place
          known := if memo.cuts = call.cuts then (call.place, trees) :: memo.known
            else memo.known })
    | (place, after) :: ways =>
      match c.edgesOf place with
      | [] => .next (.walking { call with ways, found := call.found ++ [after] } waiting memo)
      | edges => .next (.following { call with ways } after edges waiting memo)
  | .following call _ [] waiting memo => .next (.walking call waiting memo)
  | .following call after (.scan predecessor :: edges) waiting memo =>
    match (c.item? predecessor).bind Item.next? with
    | some (.terminal name) =>
      .next (.following { call with ways := (predecessor, .leaf name :: after) :: call.ways }
        after edges waiting memo)
    | _ => .stop (.error .strayEdge)
  | .following call after (.complete predecessor child :: edges) waiting memo =>
    .next (.asking child ({ call, predecessor, after, edges } :: waiting) memo)
  | .answering trees [] memo => .stop (.ok (trees, memo))
  | .answering trees (pending :: waiting) memo =>
    let ways := (trees.map fun tree => (pending.predecessor, tree :: pending.after)).reverse
    .next (.following { pending.call with ways := ways ++ pending.call.ways } pending.after
      pending.edges waiting memo)

def Gathers (c : Chart) (s next : Gathering) : Prop := c.gather s = .next next

section Sweeping

variable {c : Chart} {position index : Nat}

theorem turns_item {item : Item} (hpos : position < c.sets.size)
    (hitem : c.item? { set := position, index } = some item) :
    Sweep.Turns { chart := c, position, index }
      { chart := c.process { set := position, index } item, position, index := index + 1 } := by
  simp only [Sweep.Turns, Sweep.next?, if_pos hpos, hitem]

theorem turns_set (hpos : position < c.sets.size)
    (hnone : c.item? { set := position, index } = none) :
    Sweep.Turns { chart := c, position, index }
      { chart := c, position := position + 1, index := 0 } := by
  simp only [Sweep.Turns, Sweep.next?, if_pos hpos, hnone]

-- The loop does not leave out a turn that the bounded one makes, and needs no bound.
theorem turns_close (fuel : Nat) (h : Reached c position index)
    (hpos : position ≤ c.tokens.length) (hfuel : c.capacity position ≤ fuel + index) :
    Relation.ReflTransGen Sweep.Turns { chart := c, position, index }
      { chart := close position fuel index c, position := position + 1, index := 0 } := by
  have hsize : position < c.sets.size := by
    rw [h.size_eq]
    omega
  induction fuel generalizing c index with
  | zero =>
      have hlt := h.size_lt_capacity position
      have hle := h.index_le
      omega
  | succ fuel ih =>
      rw [close]
      split
      · rename_i hnone
        exact .single (turns_set hsize hnone)
      · rename_i item hitem
        obtain ⟨hnext, hg, ht⟩ := reached_process h hitem hpos
        refine .head (turns_item hsize hitem) (ih hnext (by rw [ht]; exact hpos) ?_ ?_)
        · simp only [capacity, hg] at hfuel ⊢
          omega
        · rw [hnext.size_eq, ht]
          omega

theorem turns_closeSets (g : Grammar) (tokens : List String) (count : Nat)
    (hcount : count ≤ tokens.length + 1) :
    Relation.ReflTransGen Sweep.Turns (.opening g tokens)
      { chart := (List.range count).foldl closeSet (initial g tokens), position := count,
        index := 0 } := by
  induction count with
  | zero => exact .refl
  | succ count ih =>
      obtain ⟨h, _, ht⟩ := reached_closeSets g tokens count (by omega)
      rw [List.range_succ, List.foldl_append]
      exact (ih (by omega)).trans (turns_close _ h (by rw [ht]; omega) (Nat.le_refl _))

-- Behind the last set it stops.
theorem turns_build (g : Grammar) (tokens : List String) :
    ∃ last, Relation.ReflTransGen Sweep.Turns (.opening g tokens) last ∧ last.next? = none ∧
      last.chart = build g tokens := by
  obtain ⟨h, _, ht⟩ := reached_build g tokens
  refine ⟨_, turns_closeSets g tokens _ (Nat.le_refl _), ?_, rfl⟩
  have hsize : (build g tokens).sets.size = tokens.length + 1 := by rw [h.size_eq, ht]
  exact if_neg (Nat.not_lt.mpr (Nat.le_of_eq hsize))

end Sweeping

-- In a turn an item is processed, or there is none and the next set is begun.
theorem cases_of_turns {w next : Sweep} (h : w.Turns next) :
    w.position < w.chart.sets.size ∧
      ((∃ item, w.chart.item? { set := w.position, index := w.index } = some item ∧
        next.chart = w.chart.process { set := w.position, index := w.index } item ∧
        next.position = w.position ∧ next.index = w.index + 1) ∨
      (w.chart.item? { set := w.position, index := w.index } = none ∧
        next.chart = w.chart ∧ next.position = w.position + 1 ∧ next.index = 0)) := by
  simp only [Sweep.Turns, Sweep.next?] at h
  split at h
  · rename_i hpos
    refine ⟨hpos, ?_⟩
    split at h
    · rename_i item hitem
      obtain rfl := Option.some.inj h
      exact .inl ⟨item, hitem, rfl, rfl, rfl⟩
    · rename_i hnone
      obtain rfl := Option.some.inj h
      exact .inr ⟨hnone, rfl, rfl, rfl⟩
  · simp at h

-- What is known of the chart holds in each turn.
theorem reached_of_turns {g : Grammar} {tokens : List String} {w : Sweep}
    (h : Relation.ReflTransGen Sweep.Turns (.opening g tokens) w) :
    Reached w.chart w.position w.index ∧ w.chart.grammar = g ∧ w.chart.tokens = tokens := by
  induction h with
  | refl => exact ⟨reached_initial g tokens, rfl, rfl⟩
  | @tail w next _ hturn ih =>
      obtain ⟨h, hg, ht⟩ := ih
      obtain ⟨hpos, ⟨item, hitem, hchart, hposition, hindex⟩ |
        ⟨hnone, hchart, hposition, hindex⟩⟩ := cases_of_turns hturn
      · have hsize := h.size_eq
        obtain ⟨hnext, hg', ht'⟩ := reached_process h hitem (by omega)
        rw [hchart, hposition, hindex]
        exact ⟨hnext, hg'.trans hg, ht'.trans ht⟩
      · rw [hchart, hposition, hindex]
        exact ⟨h.turn (Array.getElem?_eq_none_iff.mp hnone), hg, ht⟩

theorem Draws.exists_before {c : Chart} {e : Edge} {s : Nat} {x : Item} (hd : c.Draws e s x) :
    ∃ y, c.item? e.predecessor = some y ∧ x.dot = y.dot + 1 := by
  cases hd with
  | scan found _ _ advance => exact ⟨_, found, (Item.advance?_eq_some advance).2.2⟩
  | complete found _ _ _ _ advance => exact ⟨_, found, (Item.advance?_eq_some advance).2.2⟩

section Gathering

variable {c : Chart} {treesOf : Place → TreeWork (List Tree)} {b b' : TreeMemo}
  {waiting : List Pending}

theorem bind_eq_ok {work : TreeWork α} {next : α → TreeWork β} {r : β}
    (h : (work >>= next) b = (.ok r, b')) :
    ∃ a middle, work b = (.ok a, middle) ∧ next a middle = (.ok r, b') := by
  rw [bind_apply] at h
  split at h
  · rename_i a middle hwork
    exact ⟨a, middle, hwork, h⟩
  · nomatch h

theorem pure_eq_ok {a r : α} (h : (pure a : TreeWork α) b = (.ok r, b')) : r = a ∧ b' = b := by
  obtain ⟨h₁, h₂⟩ := Prod.mk.inj h
  exact ⟨(Except.ok.inj h₁).symm, h₂.symm⟩

theorem mapM_cons_eq_ok {f : α → TreeWork β} {a : α} {items : List α} {rs : List β}
    (h : (a :: items).mapM f b = (.ok rs, b')) : ∃ r middle rest, f a b = (.ok r, middle) ∧
      items.mapM f middle = (.ok rest, b') ∧ rs = r :: rest := by
  rw [List.mapM_cons] at h
  obtain ⟨r, middle, hfirst, h⟩ := bind_eq_ok h
  obtain ⟨rest, last, hrest, h⟩ := bind_eq_ok h
  obtain ⟨rfl, rfl⟩ := pure_eq_ok h
  exact ⟨r, middle, rest, hfirst, hrest, rfl⟩

theorem mapM_nil_eq_ok {f : α → TreeWork β} {rs : List β}
    (h : ([] : List α).mapM f b = (.ok rs, b')) : rs = [] ∧ b' = b := by
  rw [List.mapM_nil] at h
  exact pure_eq_ok h

theorem not_gathers_of_stop {s : Gathering} {result : Except ChartFault (List Tree × TreeMemo)}
    (hstop : c.gather s = .stop result) (next : Gathering) : ¬ c.Gathers s next := by
  simp [Gathers, hstop]

theorem gathers_end (call : Call) {place : Place} (after : List Tree)
    (hnil : c.edgesOf place = []) :
    c.Gathers (.walking { call with ways := (place, after) :: call.ways } waiting b)
      (.walking { call with found := call.found ++ [after] } waiting b) := by
  simp only [Gathers, gather, hnil]

theorem gathers_back (call : Call) {place : Place} (after : List Tree)
    (hne : c.edgesOf place ≠ []) :
    c.Gathers (.walking { call with ways := (place, after) :: call.ways } waiting b)
      (.following call after (c.edgesOf place) waiting b) := by
  simp only [Gathers, gather]

-- Whenever the work gives the trees of an item, the calls come to give them.
def Gives (c : Chart) (treesOf : Place → TreeWork (List Tree)) : Prop :=
  ∀ place b trees b' waiting, treesOf place b = (.ok trees, b') →
    Relation.ReflTransGen c.Gathers (.asking place waiting b) (.answering trees waiting b')

-- The way back over an edge is put in front of the ways of the call.
theorem gathers_edge (hgives : c.Gives treesOf) (call : Call) {after : List Tree} {e : Edge}
    (edges : List Edge) {ways : List (Place × List Tree)}
    (h : c.stepBack treesOf after e b = (.ok ways, b')) :
    (∀ way ∈ ways, way.1 = e.predecessor) ∧
      Relation.ReflTransGen c.Gathers (.following call after (e :: edges) waiting b)
        (.following { call with ways := ways.reverse ++ call.ways } after edges waiting b') := by
  cases e with
  | scan predecessor =>
      rcases hsymbol : (c.item? predecessor).bind Item.next? with - | ⟨name⟩ | ⟨name⟩
      all_goals simp only [stepBack, hsymbol] at h
      · cases h
      · obtain ⟨rfl, rfl⟩ := pure_eq_ok h
        refine ⟨by simp [Edge.predecessor], .single ?_⟩
        simp only [Gathers, gather, hsymbol]
        rfl
      · cases h
  | complete predecessor child =>
      obtain ⟨trees, middle, hchild, h⟩ := bind_eq_ok h
      obtain ⟨rfl, rfl⟩ := pure_eq_ok h
      exact ⟨by simp [Edge.predecessor], .head rfl ((hgives child b trees b' _ hchild).tail rfl)⟩

theorem gathers_edges (hgives : c.Gives treesOf) (call : Call) {after : List Tree}
    (waiting : List Pending) (edges : List Edge) {ways : List (List (Place × List Tree))}
    (h : edges.mapM (c.stepBack treesOf after) b = (.ok ways, b')) :
    (∀ way ∈ ways.flatten, ∃ e ∈ edges, way.1 = e.predecessor) ∧
      Relation.ReflTransGen c.Gathers (.following call after edges waiting b)
        (.walking { call with ways := ways.flatten.reverse ++ call.ways } waiting b') := by
  induction edges generalizing call b ways with
  | nil =>
      obtain ⟨rfl, rfl⟩ := mapM_nil_eq_ok h
      exact ⟨by simp, .single rfl⟩
  | cons e edges ih =>
      obtain ⟨first, middle, rest, hfirst, hrest, rfl⟩ := mapM_cons_eq_ok h
      obtain ⟨hpredecessor, hedge⟩ := gathers_edge hgives call edges hfirst
      obtain ⟨hlater, hedges⟩ := ih { call with ways := first.reverse ++ call.ways } hrest
      refine ⟨fun way hm => ?_, ?_⟩
      · rcases List.mem_append.mp (List.flatten_cons ▸ hm) with hm | hm
        · exact ⟨e, by simp, hpredecessor way hm⟩
        · obtain ⟨other, ho, heq⟩ := hlater way hm
          exact ⟨other, by simp [ho], heq⟩
      · rw [List.flatten_cons, List.reverse_append, List.append_assoc]
        exact hedge.trans hedges

-- The ways are followed one after the other, and what each of them leads to is found before
-- the next one is begun.
theorem gathers_ways {walk : Place × List Tree → TreeWork (List (List Tree))} (call : Call)
    (ways : List (Place × List Tree))
    (hwalk : ∀ way ∈ ways, ∀ (call : Call) b lists b', walk way b = (.ok lists, b') →
      Relation.ReflTransGen c.Gathers
        (.walking { call with ways := way :: call.ways } waiting b)
        (.walking { call with found := call.found ++ lists } waiting b'))
    {found : List (List (List Tree))} (h : ways.mapM walk b = (.ok found, b')) :
    Relation.ReflTransGen c.Gathers
      (.walking { call with ways := ways ++ call.ways } waiting b)
      (.walking { call with found := call.found ++ found.flatten } waiting b') := by
  induction ways generalizing call b found with
  | nil =>
      obtain ⟨rfl, rfl⟩ := mapM_nil_eq_ok h
      simpa using Relation.ReflTransGen.refl
  | cons way ways ih =>
      obtain ⟨lists, middle, rest, hfirst, hrest, rfl⟩ := mapM_cons_eq_ok h
      have hway := hwalk way (by simp) { call with ways := ways ++ call.ways } b lists middle hfirst
      have hways := ih { call with found := call.found ++ lists }
        (fun way hm => hwalk way (List.mem_cons_of_mem _ hm)) hrest
      rw [List.flatten_cons, ← List.append_assoc]
      exact hway.trans hways

end Gathering

section Finished

variable {c : Chart} (h : c.Finished)

include h

-- A way back from an item ends where nothing is matched any more, and this is where there are
-- no edges.
theorem gathers_walkBack {treesOf : Place → TreeWork (List Tree)} (hgives : c.Gives treesOf)
    (dot : Nat) {place : Place} {x : Item} (hx : c.item? place = some x) (hdot : x.dot = dot)
    (after : List Tree) (call : Call) {waiting : List Pending} {b b' : TreeMemo}
    {lists : List (List Tree)} (hwork : c.walkBack treesOf dot place after b = (.ok lists, b')) :
    Relation.ReflTransGen c.Gathers
      (.walking { call with ways := (place, after) :: call.ways } waiting b)
      (.walking { call with found := call.found ++ lists } waiting b') := by
  induction dot generalizing place x after call b b' lists with
  | zero =>
      obtain ⟨rfl, rfl⟩ := pure_eq_ok hwork
      exact .single (gathers_end call after (edgesOf_eq_nil h hx hdot))
  | succ dot ih =>
      have hne := edgesOf_ne_nil h hx (by omega)
      rw [walkBack_succ hne] at hwork
      obtain ⟨ways, middle, hedges, hwork⟩ := bind_eq_ok hwork
      obtain ⟨found, last, hways, hwork⟩ := bind_eq_ok hwork
      obtain ⟨rfl, rfl⟩ := pure_eq_ok hwork
      obtain ⟨hpredecessor, hfollow⟩ :=
        gathers_edges hgives call waiting (c.edgesOf place) hedges
      refine .head (gathers_back call after hne) (hfollow.trans (gathers_ways call _ ?_ hways))
      intro way hm call b lists b' hwalk
      obtain ⟨e, he, heq⟩ := hpredecessor way (List.mem_reverse.mp hm)
      obtain ⟨y, hy, hlast⟩ := ((mem_edgesOf_iff h hx e).mp he).exists_before
      exact ih (heq ▸ hy) (by omega) way.2 call hwalk

-- A call for an item that is not known yet collects its families and gives their trees.
theorem gathers_families {treesOf : Place → TreeWork (List Tree)} (hgives : c.Gives treesOf)
    {place : Place} {x : Item} {b b' : TreeMemo} {waiting : List Pending}
    {families : List (List Tree)} (hknown : b.known? place = none) (hm : place ∉ b.active)
    (hx : c.item? place = some x) (whole : x.isComplete = true)
    (hwork : c.childrenVia treesOf place { b with active := place :: b.active } =
      (.ok families, b')) :
    Relation.ReflTransGen c.Gathers (.asking place waiting b)
      (.answering (families.map (.node x.production.lhs)) waiting
        { b' with
          active := b'.active.erase place
          known := if b'.cuts = b.cuts then
              (place, families.map (.node x.production.lhs)) :: b'.known
            else b'.known }) := by
  have hfirst : c.Gathers (.asking place waiting b)
      (.walking
        { place, lhs := x.production.lhs, cuts := b.cuts, found := [], ways := [(place, [])] }
        waiting { b with active := place :: b.active }) := by
    simp only [Gathers, gather, hknown, if_neg hm, hx, whole, if_true]
  rw [childrenVia, hx] at hwork
  exact .head hfirst ((gathers_walkBack h hgives x.dot hx rfl []
    { place, lhs := x.production.lhs, cuts := b.cuts, found := [], ways := [] } hwork).tail rfl)

-- Calls come to give the trees that are given with a bound on the calls inside each other.
theorem gives_treesAt (depth : Nat) : c.Gives (c.treesAt depth) := by
  induction depth with
  | zero => exact fun place b trees b' waiting hwork => nomatch hwork
  | succ depth ih =>
      intro place b trees b' waiting hwork
      cases hknown : b.known? place with
      | some trees =>
          rw [treesAt_of_known hknown] at hwork
          obtain ⟨rfl, rfl⟩ := pure_eq_ok hwork
          exact .single (by simp only [Gathers, gather, hknown])
      | none =>
          by_cases hm : place ∈ b.active
          · rw [treesAt_of_active hknown hm] at hwork
            obtain ⟨rfl, rfl⟩ := pure_eq_ok hwork
            exact .single (by simp only [Gathers, gather, hknown, if_pos hm])
          · cases hx : c.item? place with
            | none =>
              rw [treesAt_of_item?_none hknown hm hx] at hwork
              nomatch hwork
            | some x =>
                cases whole : x.isComplete with
                | false =>
                    rw [treesAt_of_incomplete hknown hm hx whole] at hwork
                    nomatch hwork
                | true =>
                    rw [treesAt_of_complete hknown hm hx whole] at hwork
                    split at hwork
                    · rename_i families after hfamilies
                      obtain ⟨rfl, rfl⟩ := pure_eq_ok hwork
                      exact gathers_families h ih hknown hm hx whole hfamilies
                    · nomatch hwork

-- The calls come to an end with what is given under the bound. Where no complete item is, they
-- end at once.
theorem exists_gathers {b : TreeMemo} (hb : c.Remembers b) (hactive : b.active = [])
    (place : Place) :
    ∃ last, Relation.ReflTransGen c.Gathers (.asking place [] b) last ∧
      c.gather last = .stop ((c.trees place b).1.map (·, (c.trees place b).2)) := by
  obtain ⟨after, hrun, _⟩ := exists_trees h hb hactive place
  rw [hrun]
  have hm : place ∉ b.active := by simp [hactive]
  cases hx : c.item? place with
  | none =>
      refine ⟨_, .refl, ?_⟩
      have hknown : b.known? place = none := hb.known?_eq_none (by simp [hx])
      simp only [gather, hknown, if_neg hm, hx, listed]
      rfl
  | some x =>
      cases whole : x.isComplete with
      | false =>
          refine ⟨_, .refl, ?_⟩
          have hknown : b.known? place = none := hb.known?_eq_none (by simp [hx, whole])
          simp only [gather, hknown, if_neg hm, hx, whole, listed]
          rfl
      | true =>
          simp only [listed, hx, whole, if_true] at hrun ⊢
          exact ⟨_, gives_treesAt h c.maxDepth place b _ after [] hrun, rfl⟩

end Finished

-- The loop over the sets comes to an end with the whole chart. Meanwhile no set holds more items
-- than there can be. In that chart the calls for the trees of an item come to an end, whatever
-- was asked before, and give the trees if there is a complete item at the place.
theorem chart_terminates (g : Grammar) (tokens : List String) :
    let c := build g tokens
    (∃ last, Relation.ReflTransGen Sweep.Turns (.opening g tokens) last ∧ last.next? = none ∧
      last.chart = c) ∧
    Acc (fun next w => Sweep.Turns w next) (.opening g tokens) ∧
    (∀ w, Relation.ReflTransGen Sweep.Turns (.opening g tokens) w →
      w.index ≤ (w.chart.setAt w.position).size ∧
      (w.chart.setAt w.position).size < w.chart.capacity w.position ∧ w.chart.grammar = g) ∧
    ∀ questions place,
      let memo := c.memoAfter questions
      (∃ last, Relation.ReflTransGen c.Gathers (.asking place [] memo) last ∧
        c.gather last = .stop ((c.trees place memo).1.map (·, (c.trees place memo).2))) ∧
      Acc (fun next s => c.Gathers s next) (.asking place [] memo) ∧
      (c.trees place memo).1 = c.listed place := by
  intro c
  have h : c.Finished := finished_build g tokens
  obtain ⟨last, hturns, hend, hchart⟩ := turns_build g tokens
  refine ⟨⟨last, hturns, hend, hchart⟩, ?_, fun w hw => ?_, fun questions place => ?_⟩
  · refine acc_of_reaches (fun hb hb' => Option.some.inj (hb.symm.trans hb')) hturns ?_
    exact fun next hnext => nomatch hend.symm.trans hnext
  · obtain ⟨hw, hg, _⟩ := reached_of_turns hw
    exact ⟨hw.index_le, hw.size_lt_capacity _, hg⟩
  · intro memo
    obtain ⟨hmemo, hactive⟩ : c.Remembers memo ∧ memo.active = [] :=
      remembers_foldl_ask h (remembers_initial c) rfl questions
    obtain ⟨last, hgathers, hlast⟩ := exists_gathers h hmemo hactive place
    obtain ⟨_, hrun, _⟩ := exists_trees h hmemo hactive place
    refine ⟨⟨last, hgathers, hlast⟩, ?_, by rw [hrun]⟩
    exact acc_of_reaches (fun hb hb' => Gathered.next.inj (hb.symm.trans hb')) hgathers
      (not_gathers_of_stop hlast)

end Chart

end ContextFree
