import ContextFree.Predictive.Table
import ContextFree.Proofs.Analysis.Beginnings
import ContextFree.Proofs.Analysis.Follow

namespace ContextFree

namespace Grammar

-- In some form that `origin` derives, `name` stands right in front of the token.
def Precedes (g : Grammar) (origin name token : String) : Prop :=
  ∃ before after,
    Derives g [.nonterminal origin] (before ++ .nonterminal name :: .terminal token :: after)

-- Some form that the start symbol derives ends in the nonterminal.
def CanEnd (g : Grammar) (name : String) : Prop :=
  ∃ before, Derives g [.nonterminal g.start] (before ++ [.nonterminal name])

-- The nonterminal occurs in some form that the start symbol derives.
def Reaches (g : Grammar) (name : String) : Prop :=
  ∃ before after, Derives g [.nonterminal g.start] (before ++ .nonterminal name :: after)

variable {g : Grammar} {p : Production} {before rest : List Symbol} {name : String}

theorem derives_of_rhs_eq (mem : p ∈ g.productions) (hrhs : p.rhs = before ++ .nonterminal name :: rest) :
    Derives g [.nonterminal p.lhs] (before ++ .nonterminal name :: rest) :=
  hrhs ▸ .of_production mem

-- If the rest behind a nonterminal can vanish, what comes behind the left side comes behind it.
theorem derives_before_of_vanishes (mem : p ∈ g.productions)
    (hrhs : p.rhs = before ++ .nonterminal name :: rest) (hrest : Derives g rest [])
    {form front behind : List Symbol} (h : Derives g form (front ++ .nonterminal p.lhs :: behind)) :
    Derives g form (front ++ before ++ .nonterminal name :: behind) := by
  have hbody := (derives_of_rhs_eq mem hrhs).append front behind
  have hvanish := hrest.append (front ++ before ++ [.nonterminal name]) behind
  simp only [List.append_assoc, List.cons_append, List.nil_append, List.append_nil]
    at hbody hvanish ⊢
  exact (h.trans hbody).trans hvanish

theorem ne_endMarker_of_derives {form before after : List Symbol} {token : String}
    (hform : ∀ s ∈ form, g.Declares s)
    (h : Derives g form (before ++ .terminal token :: after)) : token ≠ endMarker := by
  have htoken : token ∈ g.terminals := h.declares hform (.terminal token) (by simp)
  rintro rfl
  exact g.endMarker_not_mem.2 htoken

theorem Precedes.ne_endMarker {origin token : String} (horigin : origin ∈ g.nonterminals)
    (h : g.Precedes origin name token) : token ≠ endMarker := by
  obtain ⟨before, after, hd⟩ := h
  have hform : ∀ s ∈ [Symbol.nonterminal origin], g.Declares s := by
    intro s hs
    rw [List.mem_singleton.mp hs]
    exact horigin
  rw [List.append_cons] at hd
  exact ne_endMarker_of_derives hform hd

theorem Precedes.of_begins (mem : p ∈ g.productions)
    (hrhs : p.rhs = before ++ .nonterminal name :: rest) {token : String} {after : List Symbol}
    (h : Derives g rest (.terminal token :: after)) : g.Precedes p.lhs name token := by
  have hafter := h.append (before ++ [.nonterminal name]) []
  simp only [List.append_assoc, List.cons_append, List.nil_append, List.append_nil] at hafter
  exact ⟨before, after, (derives_of_rhs_eq mem hrhs).trans hafter⟩

theorem Precedes.of_vanishes (mem : p ∈ g.productions)
    (hrhs : p.rhs = before ++ .nonterminal name :: rest) (hrest : Derives g rest [])
    {origin token : String} (h : g.Precedes origin p.lhs token) : g.Precedes origin name token := by
  obtain ⟨front, behind, hd⟩ := h
  exact ⟨front ++ before, behind, derives_before_of_vanishes mem hrhs hrest hd⟩

theorem CanEnd.of_vanishes (mem : p ∈ g.productions)
    (hrhs : p.rhs = before ++ .nonterminal name :: rest) (hrest : Derives g rest [])
    (h : g.CanEnd p.lhs) : g.CanEnd name := by
  obtain ⟨front, hd⟩ := h
  exact ⟨front ++ before, derives_before_of_vanishes mem hrhs hrest hd⟩

-- What a nonterminal that the start symbol leads to puts together, the start symbol does.
theorem Reaches.precedes {origin token : String} (hreach : g.Reaches origin)
    (h : g.Precedes origin name token) : g.Precedes g.start name token := by
  obtain ⟨front, behind, hstart⟩ := hreach
  obtain ⟨before, after, hd⟩ := h
  have hinner := hd.append front behind
  refine ⟨front ++ before, after ++ behind, ?_⟩
  simp only [List.append_assoc, List.cons_append, List.nil_append] at hinner ⊢
  exact hstart.trans hinner

end Grammar

-- What stands in a list of two parts stands in the first one or in the second one.
theorem append_eq_append_cons {xs ys before after : List α} {a : α}
    (h : xs ++ ys = before ++ a :: after) :
    (∃ rest, xs = before ++ a :: rest ∧ after = rest ++ ys) ∨
      ∃ front, ys = front ++ a :: after ∧ before = xs ++ front := by
  rcases List.append_eq_append_iff.mp h with ⟨front, hbefore, hys⟩ | ⟨gap, hxs, hcons⟩
  · exact .inr ⟨front, hys, hbefore⟩
  · rcases List.cons_eq_append_iff.mp hcons with ⟨rfl, rfl⟩ | ⟨rest, rfl, hafter⟩
    · exact .inr ⟨[], rfl, by simp [hxs]⟩
    · exact .inl ⟨rest, hxs, hafter⟩

namespace FollowSets

-- Wherever a nonterminal stands in the form, its set has all that can begin what is behind it.
def Covers (g : Grammar) (follows : FollowSets) (form : List Symbol) : Prop :=
  ∀ before name after, form = before ++ .nonterminal name :: after →
    ∀ token, BeginsSequence g token after → token ∈ follows.of name

section Covering

variable {g : Grammar} {firsts : FirstSets} {follows : FollowSets} {form last : List Symbol}

theorem Covers.rewrites (hexact : FirstSets.Exact g firsts) (hclosed : Closed g firsts follows)
    (h : Covers g follows form) (rewrites : Rewrites g form last) : Covers g follows last := by
  cases rewrites with
  | replace left right p mem =>
      intro before name after heq token hbegins
      rcases append_eq_append_cons heq with ⟨behind, hfront, rfl⟩ | ⟨front, rfl, rfl⟩
      · rcases append_eq_append_cons hfront with ⟨gap, rfl, rfl⟩ | ⟨inner, hrhs, rfl⟩
        · -- in front of the right-hand side: behind it there, its left side stood before
          obtain ⟨tail, hd⟩ := beginsSequence_iff.mp hbegins
          have hback := (Derives.refl (gap ++ .nonterminal p.lhs :: right)).step
            (.replace gap right p mem)
          refine h before name (gap ++ .nonterminal p.lhs :: right) (by simp) token ?_
          exact beginsSequence_iff.mpr ⟨tail, hback.trans hd⟩
        · rcases beginsSequence_append.mp hbegins with hinside | ⟨hnull, hbehind⟩
          · exact hclosed.next p mem inner name behind hrhs ((hexact.mem_iff _ _).mpr hinside)
          · have hlhs := h left p.lhs right rfl token hbehind
            exact hclosed.last p mem inner name behind hrhs ((hexact.nullable_iff _).mpr hnull) hlhs
      · exact h (left ++ .nonterminal p.lhs :: front) name after (by simp) token hbegins

theorem Covers.derives (hexact : FirstSets.Exact g firsts) (hclosed : Closed g firsts follows)
    (h : Covers g follows form) (hd : Derives g form last) : Covers g follows last := by
  induction hd with
  | refl => exact h
  | step _ rewrites ih => exact ih.rewrites hexact hclosed rewrites

theorem covers_singleton (g : Grammar) (follows : FollowSets) (s : Symbol) :
    Covers g follows [s] := by
  intro before name after heq token hbegins
  have hafter : after = [] := by
    cases before <;> simp_all
  subst hafter
  simp [BeginsSequence] at hbegins

-- Behind the start symbol comes the end of the input.
theorem covers_start (hclosed : Closed g firsts follows) :
    Covers g follows [.nonterminal g.start, .terminal endMarker] := by
  intro before name after heq token hbegins
  match before with
  | [] =>
      simp only [List.nil_append, List.cons.injEq, Symbol.nonterminal.injEq] at heq
      obtain ⟨rfl, rfl⟩ := heq
      simp only [beginsSequence_cons, begins_terminal_iff] at hbegins
      rcases hbegins with rfl | ⟨hnull, _⟩
      · exact hclosed.start
      · nomatch hnull
  | [_] => simp at heq
  | _ :: _ :: _ => simp at heq

end Covering

section Meaning

variable {g : Grammar} {name token : String}

-- What a member of a set tells: the end marker, of forms of the start symbol, and a token, of
-- forms of any nonterminal.
theorem obeys_precedes (g : Grammar) :
    (ofGrammar g (FirstSets.ofGrammar g)).Obeys fun name token =>
      token = endMarker ∧ g.CanEnd name ∨ ∃ origin ∈ g.nonterminals, g.Precedes origin name token := by
  apply obeys_ofGrammar
  · exact .inl ⟨rfl, [], .refl _⟩
  · intro p mem before name rest hrhs token htoken
    obtain ⟨after, hrest⟩ := (FirstSets.mem_ofSequence_iff_derives g rest token).mp htoken
    exact .inr ⟨p.lhs, g.lhs_mem p mem, .of_begins mem hrhs hrest⟩
  · intro p mem before name rest hrhs hnull token hlhs
    have hrest := (FirstSets.nullable_ofSequence_iff_derives g rest).mp hnull
    rcases hlhs with ⟨rfl, hend⟩ | ⟨origin, horigin, hprecedes⟩
    · exact .inl ⟨rfl, hend.of_vanishes mem hrhs hrest⟩
    · exact .inr ⟨origin, horigin, hprecedes.of_vanishes mem hrhs hrest⟩

-- What can begin the rest of a form behind a nonterminal follows the nonterminal.
theorem mem_of_begins_behind {origin : String} {before after : List Symbol}
    (hform : Derives g [.nonterminal origin] (before ++ .nonterminal name :: after))
    (hafter : BeginsSequence g token after) :
    token ∈ (ofGrammar g (FirstSets.ofGrammar g)).of name := by
  have hcovers := (covers_singleton g _ _).derives (FirstSets.exact_ofGrammar g)
    (closed_ofGrammar g _) hform
  exact hcovers before name after rfl token hafter

theorem mem_of_precedes {origin : String} (h : g.Precedes origin name token) :
    token ∈ (ofGrammar g (FirstSets.ofGrammar g)).of name := by
  obtain ⟨before, after, hd⟩ := h
  exact mem_of_begins_behind hd (beginsSequence_cons.mpr (.inl .self))

theorem mem_of_canEnd (h : g.CanEnd name) :
    endMarker ∈ (ofGrammar g (FirstSets.ofGrammar g)).of name := by
  obtain ⟨before, hd⟩ := h
  have hd' := hd.append [] [.terminal endMarker]
  have hcovers := (covers_start (closed_ofGrammar g _)).derives (FirstSets.exact_ofGrammar g)
    (closed_ofGrammar g _) hd'
  exact hcovers before name [.terminal endMarker] (by simp) endMarker
    (beginsSequence_cons.mpr (.inl .self))

theorem mem_and_ne_iff (g : Grammar) (name token : String) :
    token ∈ (ofGrammar g (FirstSets.ofGrammar g)).of name ∧ token ≠ endMarker ↔
      ∃ origin ∈ g.nonterminals, g.Precedes origin name token := by
  constructor
  · rintro ⟨hm, hne⟩
    exact (obeys_precedes g name token hm).resolve_left fun h => hne h.1
  · rintro ⟨origin, horigin, h⟩
    exact ⟨mem_of_precedes h, h.ne_endMarker horigin⟩

theorem endMarker_mem_iff (g : Grammar) (name : String) :
    endMarker ∈ (ofGrammar g (FirstSets.ofGrammar g)).of name ↔ g.CanEnd name := by
  constructor
  · intro hm
    rcases obeys_precedes g name endMarker hm with ⟨_, hend⟩ | ⟨origin, horigin, h⟩
    · exact hend
    · exact absurd rfl (h.ne_endMarker horigin)
  · exact mem_of_canEnd

-- Of tokens FOLLOW says which come right behind the nonterminal in the forms of any nonterminal,
-- whether the start symbol leads there or not. Of the end it says whether a form of the start
-- symbol ends in the nonterminal.
theorem mem_iff_precedes (g : Grammar) (name : String) :
    (∀ token, token ∈ (ofGrammar g (FirstSets.ofGrammar g)).of name ∧ token ≠ endMarker ↔
      ∃ origin ∈ g.nonterminals, g.Precedes origin name token) ∧
    (endMarker ∈ (ofGrammar g (FirstSets.ofGrammar g)).of name ↔ g.CanEnd name) :=
  ⟨mem_and_ne_iff g name, endMarker_mem_iff g name⟩

-- A token of FOLLOW comes right behind the nonterminal in a form of the start symbol, or in one
-- of a nonterminal that the start symbol does not lead to. So FOLLOW is about the forms of the
-- start symbol if that leads to every nonterminal. They are forms, not sentences: some of them may
-- lead to no sentence.
theorem mem_iff_start_precedes (g : Grammar) (name token : String) :
    (token ∈ (ofGrammar g (FirstSets.ofGrammar g)).of name ∧ token ≠ endMarker ↔
      g.Precedes g.start name token ∨
        ∃ origin ∈ g.nonterminals, ¬ g.Reaches origin ∧ g.Precedes origin name token) ∧
    ((∀ origin ∈ g.nonterminals, g.Reaches origin) →
      (token ∈ (ofGrammar g (FirstSets.ofGrammar g)).of name ∧ token ≠ endMarker ↔
        g.Precedes g.start name token)) := by
  rw [mem_and_ne_iff]
  refine ⟨⟨?_, ?_⟩, fun hall => ⟨?_, fun h => ⟨g.start, g.start_mem, h⟩⟩⟩
  · rintro ⟨origin, horigin, h⟩
    by_cases hreach : g.Reaches origin
    · exact .inl (hreach.precedes h)
    · exact .inr ⟨origin, horigin, hreach, h⟩
  · rintro (h | ⟨origin, horigin, _, h⟩)
    · exact ⟨g.start, g.start_mem, h⟩
    · exact ⟨origin, horigin, h⟩
  · rintro ⟨origin, horigin, h⟩
    exact (hall origin horigin).precedes h

end Meaning

-- The start symbol `S` does not lead to `U`, and only `U` puts a `b` behind `A`.
def sideline : Grammar where
  nonterminals := ["S", "A", "U"]
  terminals := ["b"]
  productions := [
    { lhs := "S", rhs := [.nonterminal "A"] },
    { lhs := "A", rhs := [.terminal "b"] },
    { lhs := "A", rhs := [] },
    { lhs := "U", rhs := [.nonterminal "A", .terminal "b"] }]
  start := "S"
  problems_eq := by decide +kernel

-- The same without the production of `U`.
def mainline : Grammar where
  toDeclaration :=
    { sideline.toDeclaration with productions := sideline.productions.filter (·.lhs ≠ "U") }
  problems_eq := by decide +kernel

-- Without `U` no form is longer than one symbol.
theorem length_le_of_sideline {form : List Symbol}
    (h : Derives sideline [.nonterminal sideline.start] form) :
    form.length ≤ 1 ∧ .nonterminal "U" ∉ form := by
  induction h with
  | refl => simp [sideline]
  | step _ rewrites ih =>
      cases rewrites with
      | replace before after p mem =>
          obtain ⟨hlength, hU⟩ := ih
          simp only [List.length_append, List.length_cons, List.mem_append, List.mem_cons,
            not_or] at hlength hU
          obtain rfl := List.length_eq_zero_iff.mp (show before.length = 0 by omega)
          obtain rfl := List.length_eq_zero_iff.mp (show after.length = 0 by omega)
          simp only [sideline, List.mem_cons, List.not_mem_nil, or_false] at mem
          rcases mem with rfl | rfl | rfl | rfl <;> simp at hU ⊢

-- A production that the start symbol does not lead to adds a token to FOLLOW that no form of the
-- start symbol has there, and it makes a conflict in a table that has none without it.
theorem sideline_spurious :
    "b" ∈ (ofGrammar sideline (FirstSets.ofGrammar sideline)).of "A" ∧
      ¬ sideline.Precedes sideline.start "A" "b" ∧
      (Table.ofGrammar sideline).conflicts ≠ [] ∧ (Table.ofGrammar mainline).conflicts = [] := by
  have hno : ¬ sideline.Precedes sideline.start "A" "b" := by
    rintro ⟨before, after, h⟩
    have hlength := (length_le_of_sideline h).1
    simp only [List.length_append, List.length_cons] at hlength
    omega
  have hnames : sideline.sortedNonterminals = ["A", "S", "U"] :=
    Names.sortedSet_eq_of_perm (by decide) (by decide)
  have hterminals : sideline.sortedTerminals = ["b"] :=
    Names.sortedSet_eq_of_perm (by decide) (by decide)
  have hnames' : mainline.sortedNonterminals = ["A", "S", "U"] := hnames
  have hterminals' : mainline.sortedTerminals = ["b"] := hterminals
  -- with the names in order the sets and the tables can be evaluated
  refine ⟨?_, hno, ?_, ?_⟩ <;>
    simp only [Table.ofGrammar, Table.ofSets, FirstSets.ofGrammar, FirstSets.analyze,
      FirstSets.initial, FirstSets.maxRounds, ofGrammar, analyze, initial, maxRounds, hnames,
      hterminals, hnames', hterminals'] <;>
    decide +kernel

end FollowSets

end ContextFree
