import ContextFree.Proofs.Predictive.Termination

namespace ContextFree

namespace Table

-- A machine that does not look out for circles comes from the configuration to this verdict.
def Arrives (t : Table) (c : Config) (verdict : Verdict) : Prop :=
  ∃ last, Relation.ReflTransGen t.Moves c last ∧ t.step last.forget = .stop (.ok verdict)

variable {t : Table} {c : Config} {token : String}

theorem Moves.eq {next other : Config} (h : t.Moves c next) (h' : t.Moves c other) :
    next = other := Step.next.inj (h.symm.trans h')

-- A machine that stops somewhere cannot go on forever.
theorem Arrives.acc {verdict : Verdict} (h : t.Arrives c verdict) :
    Acc (fun next c => t.Moves c next) c := by
  obtain ⟨last, hreaches, hlast⟩ := h
  exact acc_of_reaches (fun hb hb' => hb.eq hb') hreaches fun next hmoves =>
    nomatch hlast.symm.trans hmoves

theorem moves_expand {name : String} {rest : List Symbol} {p : Production}
    (hs : c.symbols = .nonterminal name :: rest) (hp : t.productionsAt name c.lookahead = [p]) :
    ∃ next, t.Moves c next ∧ next.symbols = p.rhs ++ rest ∧ next.input = c.input := by
  obtain ⟨goal, goals, hstack, hsym, rfl⟩ := List.map_eq_cons_iff.mp hs
  have hforget := Config.stack_forget hstack
  refine ⟨_, step_expand hforget hsym hp ?_, ?_, rfl⟩
  · simp only [Goal.enclosing, ite_self, List.not_mem_nil, not_false_eq_true]
  · simp [Config.symbols, stack_expand, Function.comp_def, goalFor]

-- With this token next, the machine takes the symbol from the stack without reading it.
def Passes (t : Table) (token : String) (s : Symbol) : Prop :=
  ∀ (c : Config) (rest : List Symbol), c.lookahead = token → c.symbols = s :: rest →
    ∃ last, Relation.ReflTransGen t.Moves c last ∧ last.symbols = rest ∧ last.input = c.input

theorem exists_moves_past {before : List Symbol} (h : ∀ s ∈ before, t.Passes token s)
    {rest : List Symbol} (hlook : c.lookahead = token) (hs : c.symbols = before ++ rest) :
    ∃ last, Relation.ReflTransGen t.Moves c last ∧ last.symbols = rest ∧ last.input = c.input := by
  induction before generalizing c with
  | nil => exact ⟨c, .refl, hs, rfl⟩
  | cons s before ih =>
      obtain ⟨next, hfirst, hnext, hinput⟩ := h s (by simp) c _ hlook hs
      have hlook' : next.lookahead = token := by rw [Config.lookahead, hinput]; exact hlook
      obtain ⟨last, hrest, hlast, hinput'⟩ := ih (fun u hu => h u (by simp [hu])) hlook' hnext
      exact ⟨last, hfirst.trans hrest, hlast, hinput'.trans hinput⟩

theorem Fades.passes {s : Symbol} (h : t.Fades token s) : t.Passes token s := by
  induction h with
  | expand name p cell _ ih =>
      rintro c rest rfl hs
      obtain ⟨next, hmoves, hnext, hinput⟩ := moves_expand hs cell
      have hlook : next.lookahead = c.lookahead := by rw [Config.lookahead, hinput]; rfl
      obtain ⟨last, hrest, hlast, hinput'⟩ := exists_moves_past ih hlook hnext
      exact ⟨last, .head hmoves hrest, hlast, hinput'.trans hinput⟩

-- The machine follows what leads from one nonterminal to another.
theorem Leads.exists_moves {inner outer : String} (h : t.Leads token inner outer)
    {rest : List Symbol} (hlook : c.lookahead = token)
    (hs : c.symbols = .nonterminal outer :: rest) :
    ∃ last others, Relation.TransGen t.Moves c last ∧
      last.symbols = .nonterminal inner :: others ∧ last.input = c.input := by
  obtain ⟨p, before, after, hp, hrhs, hfades⟩ := h
  subst hlook
  obtain ⟨next, hmoves, hnext, hinput⟩ := moves_expand hs hp
  rw [hrhs, List.append_assoc] at hnext
  have hlook : next.lookahead = c.lookahead := by rw [Config.lookahead, hinput]; rfl
  obtain ⟨last, hrest, hlast, hinput'⟩ :=
    exists_moves_past (fun s hs => (hfades s hs).passes) hlook hnext
  exact ⟨last, after ++ rest, .head' hmoves hrest, hlast, hinput'.trans hinput⟩

theorem exists_moves_of_leads {inner outer : String}
    (h : Relation.TransGen (t.Leads token) inner outer) {rest : List Symbol}
    (hlook : c.lookahead = token) (hs : c.symbols = .nonterminal outer :: rest) :
    ∃ last others, Relation.TransGen t.Moves c last ∧
      last.symbols = .nonterminal inner :: others ∧ last.input = c.input := by
  induction h generalizing c rest with
  | single hleads => exact hleads.exists_moves hlook hs
  | tail _ hleads ih =>
      obtain ⟨middle, others, hfirst, hmiddle, hinput⟩ := hleads.exists_moves hlook hs
      have hlook' : middle.lookahead = token := by rw [Config.lookahead, hinput]; exact hlook
      obtain ⟨last, others, hrest, hlast, hinput'⟩ := ih hlook' hmiddle
      exact ⟨last, others, hfirst.trans hrest, hlast, hinput'.trans hinput⟩

-- Where a nonterminal leads back to itself, the machine comes back to it again and again.
theorem not_acc_of_leads {name : String} (hcircle : Relation.TransGen (t.Leads token) name name)
    {rest : List Symbol} (hlook : c.lookahead = token)
    (hs : c.symbols = .nonterminal name :: rest) :
    ¬ Acc (fun next c => t.Moves c next) c := by
  intro hacc
  have htrans := hacc.transGen
  clear hacc
  induction htrans generalizing rest with
  | intro c _ ih =>
      obtain ⟨last, others, hmoves, hlast, hinput⟩ := exists_moves_of_leads hcircle hlook hs
      have hlook' : last.lookahead = token := by rw [Config.lookahead, hinput]; exact hlook
      exact ih last (Relation.transGen_swap.mpr hmoves) hlook' hlast

theorem step_forget_of_error {fault : MachineFault} (h : t.step c = .stop (.error fault))
    (hne : fault ≠ .endless) : t.step c.forget = .stop (.error fault) := by
  rcases step_eq_error h with ⟨rfl, hs⟩ | ⟨goal, rest, name, hs, hsym, ⟨hendless, _⟩ | ⟨rfl, hlong⟩⟩
  · simp [step, Config.forget, hs]
  · exact absurd hendless hne
  · simp only [step, Config.stack_forget hs, hsym, Config.lookahead_forget]
    split
    · rename_i hnil
      simp [hnil] at hlong
    · rename_i hone
      simp [hone] at hlong
    · rfl

-- A goal that lies inside of itself came up on the way around a circle.
theorem not_arrives_of_endless (hnested : Nested t c) (h : t.step c = .stop (.error .endless))
    (verdict : Verdict) : ¬ t.Arrives c verdict := by
  rcases step_eq_error h with ⟨hfault, _⟩ | ⟨goal, rest, name, hs, hsym, ⟨_, hm⟩ | ⟨hfault, _⟩⟩
  · simp at hfault
  · have hcircle := hnested.led [] goal rest name hs hsym (by simp) name hm
    have hsymbols : c.symbols = .nonterminal name :: rest.map Goal.symbol := by
      rw [Config.symbols, hs, List.map_cons, hsym]
    exact fun harrives => not_acc_of_leads hcircle rfl hsymbols harrives.acc
  · simp at hfault

theorem Arrives.congr {verdict : Verdict} {other : Config} (h : t.Arrives c verdict)
    (hsame : other.forget = c.forget) : t.Arrives other verdict := by
  obtain ⟨last, hreaches, hlast⟩ := h
  rcases hreaches.cases_head with rfl | ⟨next, hmoves, hrest⟩
  · exact ⟨other, .refl, hsame ▸ hlast⟩
  · exact ⟨last, .head (hmoves.congr hsame) hrest, hlast⟩

-- A machine that looks out for circles misses no verdict.
theorem run_of_arrives {verdict : Verdict} (hnested : Nested t c) (h : t.Arrives c verdict) :
    t.run c = .ok verdict := by
  induction c using run.induct t with
  | case1 c result hstep =>
      rw [run_of_stop hstep]
      obtain ⟨last, hreaches, hlast⟩ := id h
      cases result with
      | ok other =>
          have hother := step_forget_of_stop hstep
          rcases hreaches.cases_head with rfl | ⟨next, hmoves, _⟩
          · simpa using hother.symm.trans hlast
          · simp [Moves, hother] at hmoves
      | error fault =>
          by_cases hfault : fault = .endless
          · exact absurd h (not_arrives_of_endless hnested (hfault ▸ hstep) verdict)
          · have herror := step_forget_of_error hstep hfault
            rcases hreaches.cases_head with rfl | ⟨next, hmoves, _⟩
            · simp [herror] at hlast
            · simp [Moves, herror] at hmoves
  | case2 c next hstep ih =>
      rw [run_of_next hstep]
      obtain ⟨other, hother, hsame⟩ := step_forget_of_next hstep
      obtain ⟨last, hreaches, hlast⟩ := h
      refine ih ((Reaches.step hstep (.refl next)).nested hnested) ?_
      rcases hreaches.cases_head with rfl | ⟨following, hmoves, hrest⟩
      · have := hlast.symm.trans hother
        simp at this
      · exact Arrives.congr ⟨last, hmoves.eq hother ▸ hrest, hlast⟩ hsame.symm

-- With any table, looking out for circles changes no verdict.
theorem run_eq_ok_iff (hnested : Nested t c) (verdict : Verdict) :
    t.run c = .ok verdict ↔ t.Arrives c verdict :=
  ⟨fun h => exists_moves_of_run h c rfl, run_of_arrives hnested⟩

end Table

end ContextFree
