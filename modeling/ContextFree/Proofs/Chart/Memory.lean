import ContextFree.Proofs.Chart.Listing

namespace ContextFree

theorem TreeWork.fresh_eq (work : TreeWork α) : work.fresh = (work .initial).1 := rfl

namespace Chart

-- What is remembered does not depend on where it was asked for.
def Remembers (c : Chart) (b : TreeMemo) : Prop :=
  ∀ place trees, (place, trees) ∈ b.known → c.Grounded place ∧
    (∃ x, c.item? place = some x ∧ x.isComplete = true) ∧
    trees = c.listTrees c.maxDepth [] place

-- The work gives the result while these items are being collected, what is remembered stays
-- as it should be, and more is true if nothing had to be cut.
def Collects (c : Chart) (active : List Place) (work : TreeWork α) (result : α) (Uncut : Prop) :
    Prop :=
  ∀ b, c.Remembers b → b.active = active → ∃ after, work b = (.ok result, after) ∧
    c.Remembers after ∧ after.active = active ∧ b.cuts ≤ after.cuts ∧
    (after.cuts = b.cuts → Uncut)

section Work

variable {c : Chart} {active : List Place} {Uncut : Prop} {b after : TreeMemo}

theorem remembers_initial (c : Chart) : c.Remembers .initial := nofun

theorem Remembers.of_known? {place : Place} {trees : List Tree} (hb : c.Remembers b)
    (hknown : b.known? place = some trees) : c.Grounded place ∧
      (∃ x, c.item? place = some x ∧ x.isComplete = true) ∧
      trees = c.listTrees c.maxDepth [] place := by
  obtain ⟨before, after, hsplit, _⟩ := List.lookup_eq_some_iff.mp hknown
  exact hb place trees (by rw [hsplit]; simp)

theorem Collects.pure (result : α) (hu : Uncut) :
    c.Collects active (Pure.pure result : TreeWork α) result Uncut :=
  fun b hb ha => ⟨b, rfl, hb, ha, Nat.le_refl _, fun _ => hu⟩

theorem bind_apply (work : TreeWork α) (next : α → TreeWork β) (b : TreeMemo) :
    (work >>= next) b = match work b with
      | (.ok r, after) => next r after
      | (.error fault, after) => (.error fault, after) := by
  simp only [bind, ExceptT.bind, ExceptT.mk, StateT.bind]
  rcases work b with ⟨_ | _, _⟩ <;> rfl

theorem get_apply (b : TreeMemo) : (get : TreeWork TreeMemo) b = (.ok b, b) := rfl

theorem set_apply (next b : TreeMemo) : (set next : TreeWork PUnit) b = (.ok ⟨⟩, next) := rfl

theorem finally_apply (work : TreeWork α) (f : TreeMemo → TreeMemo) (b : TreeMemo) :
    (tryFinally work (modify f) : TreeWork α) b = ((work b).1, f (work b).2) := by
  simp only [tryFinally, tryFinally', ExceptT.mk, bind, Functor.map, ExceptT.map, StateT.bind]
  rcases work b with ⟨_ | _, _⟩ <;> rfl

theorem Collects.bind {work : TreeWork α} {next : α → TreeWork β} {r : α} {r' : β} {Uncut' : Prop}
    (h : c.Collects active work r Uncut)
    (hnext : c.Collects active (next r) r' (Uncut → Uncut')) :
    c.Collects active (work >>= next) r' Uncut' := by
  intro b hb ha
  obtain ⟨middle, hwork, hmiddle, hma, hle, hu⟩ := h b hb ha
  obtain ⟨after, hn, hafter, haa, hle', hu'⟩ := hnext middle hmiddle hma
  refine ⟨after, by rw [bind_apply, hwork]; exact hn, hafter, haa, Nat.le_trans hle hle',
    fun heq => ?_⟩
  exact hu' (by omega) (hu (by omega))

theorem Collects.mapM {f : α → TreeWork β} {g : α → β} {Each : α → Prop} (items : List α)
    (h : ∀ a ∈ items, c.Collects active (f a) (g a) (Each a)) :
    c.Collects active (items.mapM f) (items.map g) (∀ a ∈ items, Each a) := by
  induction items with
  | nil => exact .pure [] (by simp)
  | cons a items ih =>
      rw [List.mapM_cons, List.map_cons]
      refine .bind (h a (by simp)) ?_
      refine .bind (ih fun a ha => h a (by simp [ha])) ?_
      refine .pure _ fun hrest hfirst => ?_
      simpa only [List.mem_cons, forall_eq_or_imp] using ⟨hfirst, hrest⟩

theorem walkBack_succ {treesOf : Place → TreeWork (List Tree)} {dot : Nat} {place : Place}
    {after : List Tree} (hne : c.edgesOf place ≠ []) :
    c.walkBack treesOf (dot + 1) place after = do
      let ways ← (c.edgesOf place).mapM (c.stepBack treesOf after)
      let found ← ways.flatten.reverse.mapM fun way => c.walkBack treesOf dot way.1 way.2
      return found.flatten := by
  rw [walkBack]
  split
  · exact absurd ‹_› hne
  · rfl

end Work

section TreesAt

variable {c : Chart} {depth : Nat} {place : Place} {b after : TreeMemo} {trees : List Tree}

theorem treesAt_of_known (h : b.known? place = some trees) :
    c.treesAt (depth + 1) place b = (.ok trees, b) := by
  rw [treesAt, bind_apply, get_apply]
  simp only [h]
  rfl

theorem treesAt_of_active (h : b.known? place = none) (hactive : place ∈ b.active) :
    c.treesAt (depth + 1) place b = (.ok [], { b with cuts := b.cuts + 1 }) := by
  rw [treesAt, bind_apply, get_apply]
  simp only [h, hactive, if_true]
  rfl

theorem treesAt_of_item?_none (h : b.known? place = none) (hactive : place ∉ b.active)
    (hx : c.item? place = none) : c.treesAt (depth + 1) place b = (.error .noItem, b) := by
  rw [treesAt, bind_apply, get_apply]
  simp only [h, hactive, if_false, hx]
  rfl

theorem treesAt_of_incomplete (h : b.known? place = none) (hactive : place ∉ b.active) {x : Item}
    (hx : c.item? place = some x) (hpart : x.isComplete = false) :
    c.treesAt (depth + 1) place b = (.error .incompleteItem, b) := by
  rw [treesAt, bind_apply, get_apply]
  simp only [h, hactive, if_false, hx, hpart]
  rfl

-- The families of a complete item are collected while it is marked. The mark goes, whether or
-- not they were found.
theorem treesAt_of_complete (h : b.known? place = none) (hactive : place ∉ b.active) {x : Item}
    (hx : c.item? place = some x) (whole : x.isComplete = true) :
    c.treesAt (depth + 1) place b =
      match c.childrenVia (c.treesAt depth) place { b with active := place :: b.active } with
      | (.ok families, after) =>
        (.ok (families.map (.node x.production.lhs)),
          { after with
            active := after.active.erase place
            known := if after.cuts = b.cuts then
                (place, families.map (.node x.production.lhs)) :: after.known
              else after.known })
      | (.error fault, after) =>
        (.error fault, { after with active := after.active.erase place }) := by
  rw [treesAt, bind_apply, get_apply]
  simp only [h, hactive, if_false, hx, whole, if_true]
  simp only [bind_apply, set_apply, finally_apply]
  rcases c.childrenVia (c.treesAt depth) place { b with active := place :: b.active } with
    ⟨fault | families, after⟩
  · rfl
  · rfl

end TreesAt

section Finished

variable {c : Chart} (h : c.Finished) {active : List Place} {place : Place} {x : Item}

include h

theorem collects_stepBack {treesOf : Place → TreeWork (List Tree)} {listOf : Place → List Tree}
    (hx : c.item? place = some x) (after : List Tree)
    (hchild : ∀ child, c.Asks child place →
      c.Collects active (treesOf child) (listOf child) (c.Grounded child))
    {e : Edge} (he : e ∈ c.edgesOf place) :
    c.Collects active (c.stepBack treesOf after e) (c.waysOver listOf after e)
      (∀ parent child, e = .complete parent child → c.Grounded child) := by
  have hd := (mem_edgesOf_iff h hx e).mp he
  cases e with
  | scan predecessor =>
      obtain ⟨y, name, _, found, symbol, _⟩ := (draws_scan_iff c _ _ _).mp hd
      rw [stepBack, waysOver, found, Option.bind_some, symbol]
      exact .pure _ (by simp)
  | complete predecessor child =>
      refine .bind (hchild child (.here he)) (.pure _ ?_)
      rintro hgrounded _ _ ⟨⟩
      exact hgrounded

-- If nothing was cut on the way back, every item that was asked for is grounded: each edge was
-- followed, since its child has a tree.
theorem collects_walkBack {treesOf : Place → TreeWork (List Tree)} {listOf : Place → List Tree}
    (dot : Nat) (hx : c.item? place = some x) (hdot : x.dot = dot) (after : List Tree)
    (hunder : ∀ child, c.Asks child place → c.Underway active child)
    (hlist : ∀ child, c.Asks child place → Enumerates (c.Admits active child) (listOf child))
    (hchild : ∀ child, c.Asks child place →
      c.Collects active (treesOf child) (listOf child) (c.Grounded child)) :
    c.Collects active (c.walkBack treesOf dot place after) (c.listBehind listOf dot place after)
      (∀ child, c.Asks child place → c.Grounded child) := by
  induction dot generalizing place x after with
  | zero =>
      have hnil := edgesOf_eq_nil h hx hdot
      refine .pure [after] fun child hasks => ?_
      cases hasks with
      | here edge => simp [hnil] at edge
      | back edge _ => simp [hnil] at edge
  | succ dot ih =>
      have hne := edgesOf_ne_nil h hx (by omega)
      have hall := enumerates_ways h hx after hlist
      rw [walkBack_succ hne, listBehind_succ hne]
      refine .bind (.mapM _ fun e he => collects_stepBack h hx after hchild he) ?_
      have hlater : c.Collects active
          (((c.edgesOf place).map (c.waysOver listOf after)).flatten.reverse.mapM fun way =>
            c.walkBack treesOf dot way.1 way.2)
          (((c.edgesOf place).map (c.waysOver listOf after)).flatten.reverse.map fun way =>
            c.listBehind listOf dot way.1 way.2)
          (∀ way ∈ ((c.edgesOf place).map (c.waysOver listOf after)).flatten.reverse,
            ∀ child, c.Asks child way.1 → c.Grounded child) := by
        refine .mapM _ fun way hway => ?_
        obtain ⟨e, he, t, _, hadds, _⟩ := (hall.mem_iff way).mp hway
        obtain ⟨y, hy, _, _, hydot, _⟩ := matches_of_adds h hx he hadds
        have hback : ∀ child, c.Asks child way.1 → c.Asks child place := fun child hasks =>
          .back he (eq_predecessor_of_adds hadds ▸ hasks)
        exact ih hy (by omega) way.2 (fun child hasks => hunder child (hback child hasks))
          (fun child hasks => hlist child (hback child hasks))
          fun child hasks => hchild child (hback child hasks)
      refine .bind hlater (.pure _ fun hlater hedges child hasks => ?_)
      cases hasks with
      | here edge => exact hedges _ edge _ _ rfl
      | @back _ e edge hasks =>
          obtain ⟨t, hadds, havoids⟩ := exists_way h hx hunder edge (hedges e edge)
          have hway := (hall.mem_iff (e.predecessor, t :: after)).mpr
            ⟨e, edge, t, rfl, hadds, havoids⟩
          exact hlater _ hway child hasks

-- The families of an item, if the trees of all complete items below it are collected.
theorem collects_childrenVia {depth : Nat} (hx : c.item? place = some x)
    (hunder : ∀ child, c.Asks child place → c.Underway active child)
    (hdepth : c.maxDepth ≤ depth + active.length)
    (hchild : ∀ child, c.Asks child place →
      c.Collects active (c.treesAt depth child) (c.listTrees depth active child)
        (c.Grounded child)) :
    c.Collects active (c.childrenVia (c.treesAt depth) place)
      (c.listFamilies (c.listTrees depth active) place)
      (∀ child, c.Asks child place → c.Grounded child) := by
  rw [childrenVia, listFamilies, hx]
  refine collects_walkBack h x.dot hx rfl [] hunder (fun child hasks => ?_) hchild
  obtain ⟨y, hy, hywhole⟩ := item_of_asks h hasks hx
  exact enumerates_listTrees h depth (hunder child hasks) hy hywhole hdepth

omit h in
-- The families of an item that is not known yet are collected while it is marked. Its trees are
-- remembered if nothing was cut on the way, and then they are the same wherever they are asked for.
theorem exists_treesAt_of_families {depth : Nat} (hx : c.item? place = some x)
    (whole : x.isComplete = true) (hm : place ∉ active)
    (hsame : c.Grounded place →
      c.listTrees (depth + 1) active place = c.listTrees c.maxDepth [] place)
    (hfamilies : c.Collects (place :: active) (c.childrenVia (c.treesAt depth) place)
      (c.listFamilies (c.listTrees depth (place :: active)) place)
      (∀ child, c.Asks child place → c.Grounded child))
    {b : TreeMemo} (hb : c.Remembers b) (hba : b.active = active)
    (hknown : b.known? place = none) :
    ∃ after, c.treesAt (depth + 1) place b =
      (.ok (c.listTrees (depth + 1) active place), after) ∧ c.Remembers after ∧
      after.active = active ∧ b.cuts ≤ after.cuts ∧ (after.cuts = b.cuts → c.Grounded place) := by
  obtain ⟨after, hrun, hafter, haa, hle, hcut⟩ :=
    hfamilies { b with active := place :: b.active } hb (by rw [hba])
  have hgrounded (heq : after.cuts = b.cuts) : c.Grounded place := ⟨_, hcut heq⟩
  rw [listTrees_succ hm hx] at hsame ⊢
  rw [treesAt_of_complete hknown (hba ▸ hm) hx whole, hrun]
  refine ⟨_, rfl, ?_, by simp [haa], hle, hgrounded⟩
  intro other trees hmem
  simp only at hmem
  split at hmem
  · rcases List.mem_cons.mp hmem with heq | hmem
    · obtain ⟨rfl, rfl⟩ := Prod.mk.inj heq
      exact ⟨hgrounded ‹_›, ⟨x, hx, whole⟩, hsame (hgrounded ‹_›)⟩
    · exact hafter other trees hmem
  · exact hafter other trees hmem

-- The trees of an item do not depend on what is remembered. If nothing was cut from them, the
-- item is grounded.
theorem collects_treesAt (depth : Nat) (hu : c.Underway active place)
    (hx : c.item? place = some x) (whole : x.isComplete = true)
    (hdepth : c.maxDepth ≤ depth + active.length) :
    c.Collects active (c.treesAt depth place) (c.listTrees depth active place)
      (c.Grounded place) := by
  induction depth generalizing active place x with
  | zero =>
      have := hu.length_lt h
      omega
  | succ depth ih =>
      intro b hb hba
      have hsame (hg : c.Grounded place) :
          c.listTrees (depth + 1) active place = c.listTrees c.maxDepth [] place :=
        hg.listTrees_eq h hx whole hu hdepth (.initial c place) (Nat.le_add_right _ _)
      cases hknown : b.known? place with
      | some trees =>
          obtain ⟨hg, _, rfl⟩ := hb.of_known? hknown
          rw [hsame hg]
          exact ⟨b, treesAt_of_known hknown, hb, hba, Nat.le_refl _, fun _ => hg⟩
      | none =>
          by_cases hm : place ∈ active
          · rw [listTrees_of_mem hm]
            exact ⟨{ b with cuts := b.cuts + 1 }, treesAt_of_active hknown (hba ▸ hm), hb, hba,
              Nat.le_succ _, fun heq => by simp at heq⟩
          · have hinner : c.maxDepth ≤ depth + (place :: active).length := by
              rw [List.length_cons]
              omega
            refine exists_treesAt_of_families hx whole hm hsame ?_ hb hba hknown
            refine collects_childrenVia h hx (fun child hasks => hu.child hm hx whole hasks)
              hinner fun child hasks => ?_
            obtain ⟨y, hy, hywhole⟩ := item_of_asks h hasks hx
            exact ih (hu.child hm hx whole hasks) hy hywhole hinner

theorem collects_trees (hx : c.item? place = some x) (whole : x.isComplete = true) :
    c.Collects [] (c.trees place) (c.listTrees c.maxDepth [] place) (c.Grounded place) :=
  collects_treesAt h c.maxDepth (.initial c place) hx whole (Nat.le_add_right _ _)

end Finished

end Chart

end ContextFree
