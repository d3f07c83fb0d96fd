import ContextFree.Proofs.Derivation.Trees

namespace ContextFree

-- A line of an outline: the column where it begins, and the symbol that is on it.
@[ext]
structure Row where
  column : Nat
  symbol : Symbol

-- How a symbol is written on its line. Apostrophes mark a terminal.
def Symbol.mark : Symbol → String
  | .terminal name => "'" ++ name ++ "'"
  | .nonterminal name => name

def Row.text (r : Row) : String := blanks r.column ++ r.symbol.mark

-- Neither a blank nor an apostrophe stands first in the name.
def PlainName (name : String) : Prop :=
  name.toList.head? ≠ some ' ' ∧ name.toList.head? ≠ some '\''

instance (name : String) : Decidable (PlainName name) := inferInstanceAs (Decidable (_ ∧ _))

-- Terminals may have any name.
def Symbol.Plain : Symbol → Prop
  | .terminal _ => True
  | .nonterminal name => PlainName name

section Lines

variable {s s' : Symbol} {r r' : Row}

theorem Symbol.Plain.head?_mark_ne (h : s.Plain) : s.mark.toList.head? ≠ some ' ' := by
  cases s with
  | terminal name => simp [mark]
  | nonterminal name => exact h.1

-- The kind of a symbol shows in what is written.
theorem Symbol.Plain.eq_of_mark (hs : s.Plain) (hs' : s'.Plain) (h : s.mark = s'.mark) :
    s = s' := by
  have hchars := congrArg String.toList h
  cases s with
  | terminal name =>
      cases s' with
      | terminal name' =>
          simp only [mark, String.toList_append, List.append_cancel_right_eq,
            List.append_cancel_left_eq] at hchars
          exact congrArg Symbol.terminal (String.toList_inj.mp hchars)
      | nonterminal name' =>
          simp only [mark, String.toList_append] at hchars
          exact absurd (congrArg List.head? hchars.symm) (by simpa using hs'.2)
  | nonterminal name =>
      cases s' with
      | terminal name' =>
          simp only [mark, String.toList_append] at hchars
          exact absurd (congrArg List.head? hchars) (by simpa using hs.2)
      | nonterminal name' => exact congrArg Symbol.nonterminal h

-- The blanks in front of a text that does not begin with one can be counted.
theorem length_takeWhile_blanks {count : Nat} {text : String}
    (h : text.toList.head? ≠ some ' ') :
    ((blanks count ++ text).toList.takeWhile (· = ' ')).length = count := by
  have hstop : text.toList.takeWhile (· = ' ') = [] := by
    cases hchars : text.toList with
    | nil => rfl
    | cons c rest =>
        rw [hchars] at h
        exact List.takeWhile_cons_of_neg (by simpa using h)
  rw [blanks, String.toList_append, String.toList_ofList, List.takeWhile_append_of_pos, hstop]
  · simp
  · simp

-- A line tells where it begins and what is on it.
theorem Row.eq_of_text (hr : r.symbol.Plain) (hr' : r'.symbol.Plain) (h : r.text = r'.text) :
    r = r' := by
  have hcolumn : r.column = r'.column := by
    have hlength := congrArg (fun text => (text.toList.takeWhile (· = ' ')).length) h
    simpa only [text, length_takeWhile_blanks hr.head?_mark_ne,
      length_takeWhile_blanks hr'.head?_mark_ne] using hlength
  have hmark : r.symbol.mark = r'.symbol.mark := by
    have hchars := congrArg String.toList h
    simp only [text, hcolumn, String.toList_append, List.append_cancel_left_eq] at hchars
    exact String.toList_inj.mp hchars
  exact Row.ext hcolumn (hr.eq_of_mark hr' hmark)

theorem eq_of_map_text {rows others : List Row} (hrows : ∀ r ∈ rows, r.symbol.Plain)
    (hothers : ∀ r ∈ others, r.symbol.Plain) (h : rows.map Row.text = others.map Row.text) :
    rows = others := by
  induction rows generalizing others with
  | nil => exact (List.map_eq_nil_iff.mp h.symm).symm
  | cons r rows ih =>
      obtain ⟨r', rest, rfl, htext, hrest⟩ := List.map_eq_cons_iff.mp h.symm
      have heq := Row.eq_of_text (hrows r (by simp)) (hothers r' (by simp)) htext.symm
      have hsame := ih (fun r hr => hrows r (by simp [hr])) (fun r hr => hothers r (by simp [hr]))
        hrest.symm
      rw [heq, hsame]

end Lines

namespace Tree

mutual

-- What the lines of the outline tell, from the top.
def rowsAt (column : Nat) : Tree → List Row
  | .leaf terminal => [{ column, symbol := .terminal terminal }]
  | .node symbol children =>
    { column, symbol := .nonterminal symbol } :: rowsListAt (column + 2) children

def rowsListAt (column : Nat) : List Tree → List Row
  | [] => []
  | t :: ts => rowsAt column t ++ rowsListAt column ts

end

@[simp] theorem rowsAt_leaf (column : Nat) (terminal : String) :
    (Tree.leaf terminal).rowsAt column = [{ column, symbol := .terminal terminal }] := rfl

@[simp] theorem rowsAt_node (column : Nat) (symbol : String) (children : List Tree) :
    (Tree.node symbol children).rowsAt column =
      { column, symbol := .nonterminal symbol } :: rowsListAt (column + 2) children := rfl

@[simp] theorem rowsListAt_nil (column : Nat) : rowsListAt column [] = [] := rfl

@[simp] theorem rowsListAt_cons (column : Nat) (t : Tree) (ts : List Tree) :
    rowsListAt column (t :: ts) = t.rowsAt column ++ rowsListAt column ts := rfl

theorem mem_rowsListAt {column : Nat} {ts : List Tree} {r : Row} :
    r ∈ rowsListAt column ts ↔ ∃ t ∈ ts, r ∈ t.rowsAt column := by
  induction ts with
  | nil => simp
  | cons t ts ih => simp [ih]

theorem outlineAt_eq (t : Tree) (column : Nat) :
    t.outlineAt column = (t.rowsAt column).map Row.text := by
  have hlist (ts : List Tree) (column : Nat)
      (h : ∀ t ∈ ts, t.outlineAt column = (t.rowsAt column).map Row.text) :
      outlineListAt column ts = (rowsListAt column ts).map Row.text := by
    induction ts with
    | nil => rfl
    | cons t ts ih =>
        rw [outlineListAt, h t (by simp), ih fun u hu => h u (by simp [hu]), rowsListAt_cons,
          List.map_append]
  induction t generalizing column with
  | leaf terminal => simp [outlineAt, Row.text, Symbol.mark, String.append_assoc]
  | node symbol children ih =>
      rw [outlineAt, hlist children (column + 2) fun t ht => ih t ht (column + 2)]
      rfl

-- The first row of a tree is that of its root.
theorem exists_rowsAt_eq (t : Tree) (column : Nat) :
    ∃ rest, t.rowsAt column = { column, symbol := t.root } :: rest := by
  cases t <;> exact ⟨_, rfl⟩

-- The rows, if there are any, go on further to the left. So they are no part of what is there.
def LeftOf (column : Nat) (rows : List Row) : Prop := ∀ r ∈ rows.head?, r.column < column

theorem leftOf_nil (column : Nat) : LeftOf column [] := fun _ hr => by simp at hr

theorem LeftOf.mono {column other : Nat} {rows : List Row} (h : LeftOf column rows)
    (hle : column ≤ other) : LeftOf other rows :=
  fun r hr => Nat.lt_of_lt_of_le (h r hr) hle

theorem not_leftOf_rowsAt (t : Tree) (column : Nat) (rows : List Row) :
    ¬ LeftOf column (t.rowsAt column ++ rows) := by
  obtain ⟨rest, hrest⟩ := t.exists_rowsAt_eq column
  intro h
  exact absurd (h { column, symbol := t.root } (by simp [hrest])) (Nat.lt_irrefl column)

-- Behind a tree its next sibling comes, or what is behind the last one.
theorem LeftOf.rowsListAt_append {column : Nat} {rows : List Row} (h : LeftOf column rows)
    (ts : List Tree) : LeftOf (column + 1) (rowsListAt column ts ++ rows) := by
  cases ts with
  | nil => exact h.mono (Nat.le_succ column)
  | cons t ts =>
      obtain ⟨rest, hrest⟩ := t.exists_rowsAt_eq column
      intro r hr
      simp only [rowsListAt_cons, hrest, List.cons_append, List.head?_cons, Option.mem_some_iff] at hr
      subst hr
      exact Nat.lt_succ_self column

theorem eq_of_rowsListAt {column : Nat} {ts us : List Tree} {after others : List Row}
    (ih : ∀ t ∈ ts, ∀ (u : Tree) (after others : List Row), LeftOf (column + 1) after →
      LeftOf (column + 1) others → t.rowsAt column ++ after = u.rowsAt column ++ others →
      t = u ∧ after = others)
    (hafter : LeftOf column after) (hothers : LeftOf column others)
    (h : rowsListAt column ts ++ after = rowsListAt column us ++ others) :
    ts = us ∧ after = others := by
  induction ts generalizing us with
  | nil =>
      cases us with
      | nil => exact ⟨rfl, h⟩
      -- another tree would begin in the column that the rows behind do not reach
      | cons u us =>
          simp only [rowsListAt_nil, List.nil_append, rowsListAt_cons, List.append_assoc] at h
          exact absurd (h ▸ hafter) (not_leftOf_rowsAt u column _)
  | cons t ts ihr =>
      cases us with
      | nil =>
          simp only [rowsListAt_nil, List.nil_append, rowsListAt_cons, List.append_assoc] at h
          exact absurd (h ▸ hothers) (not_leftOf_rowsAt t column _)
      | cons u us =>
          simp only [rowsListAt_cons, List.append_assoc] at h
          obtain ⟨rfl, hrest⟩ := ih t (by simp) u _ _ (hafter.rowsListAt_append ts)
            (hothers.rowsListAt_append us) h
          obtain ⟨rfl, hsame⟩ := ihr (fun v hv => ih v (by simp [hv])) hrest
          exact ⟨rfl, hsame⟩

-- The rows of a tree end where others go on further to the left, so they tell the whole tree.
theorem eq_of_rowsAt {t u : Tree} {column : Nat} {after others : List Row}
    (hafter : LeftOf (column + 1) after) (hothers : LeftOf (column + 1) others)
    (h : t.rowsAt column ++ after = u.rowsAt column ++ others) : t = u ∧ after = others := by
  induction t generalizing u column after others with
  | leaf terminal =>
      cases u with
      | leaf name => simpa using h
      | node symbol children => simp at h
  | node symbol children ih =>
      cases u with
      | leaf name => simp at h
      | node name us =>
          simp only [rowsAt_node, List.cons_append, List.cons.injEq, Row.mk.injEq, true_and,
            Symbol.nonterminal.injEq] at h
          obtain ⟨rfl, hrest⟩ := h
          obtain ⟨rfl, hsame⟩ := eq_of_rowsListAt
            (fun t ht u after others ha ho heq => ih t ht ha ho heq)
            (hafter.mono (Nat.le_succ _)) (hothers.mono (Nat.le_succ _)) hrest
          exact ⟨rfl, hsame⟩

-- The names of all nonterminals in the tree are plain.
inductive Plain : Tree → Prop where
  | leaf (terminal : String) : Plain (.leaf terminal)
  | node (symbol : String) (children : List Tree) (name : PlainName symbol)
      (plain : ∀ child ∈ children, Plain child) : Plain (.node symbol children)

@[simp] theorem plain_leaf (terminal : String) : (Tree.leaf terminal).Plain := .leaf terminal

@[simp] theorem plain_node (symbol : String) (children : List Tree) :
    (Tree.node symbol children).Plain ↔ PlainName symbol ∧ ∀ child ∈ children, child.Plain := by
  constructor
  · intro h
    cases h with
    | node _ _ name plain => exact ⟨name, plain⟩
  · intro h
    exact .node symbol children h.1 h.2

theorem Plain.symbol_of_mem {t : Tree} (h : t.Plain) {column : Nat} {r : Row}
    (hr : r ∈ t.rowsAt column) : r.symbol.Plain := by
  induction h generalizing column with
  | leaf terminal =>
      rw [rowsAt_leaf, List.mem_singleton] at hr
      subst hr
      trivial
  | node symbol children name plain ih =>
      rw [rowsAt_node, List.mem_cons, mem_rowsListAt] at hr
      rcases hr with rfl | ⟨t, ht, hr⟩
      · exact name
      · exact ih t ht hr

-- Different trees are written as different lines, if the names of nonterminals cannot be taken
-- for more indentation or for terminals.
theorem outline_eq_iff {t u : Tree} (ht : t.Plain) (hu : u.Plain) : t.outline = u.outline ↔ t = u := by
  constructor
  · intro h
    rw [outline, outline, outlineAt_eq, outlineAt_eq] at h
    have hrows := eq_of_map_text (fun r => ht.symbol_of_mem) (fun r => hu.symbol_of_mem) h
    have hwhole : t.rowsAt 0 ++ [] = u.rowsAt 0 ++ [] := by rw [hrows]
    exact (eq_of_rowsAt (leftOf_nil 1) (leftOf_nil 1) hwhole).1
  · exact congrArg outline

-- It shows to which node the last leaf belongs, whatever the leaves are called.
theorem outline_ne_of_nested :
    ∃ t u : Tree, t.Plain ∧ u.Plain ∧ t.yield = u.yield ∧ t ≠ u ∧ t.outline ≠ u.outline := by
  have ht : (node "S" [node "" [leaf "  'b"], leaf ""]).Plain := by
    simp only [plain_node, List.forall_mem_cons, plain_leaf]
    exact ⟨by decide, ⟨by decide, trivial, nofun⟩, trivial, nofun⟩
  have hu : (node "S" [node "" [leaf "  'b", leaf ""]]).Plain := by
    simp only [plain_node, List.forall_mem_cons, plain_leaf]
    exact ⟨by decide, ⟨by decide, trivial, trivial, nofun⟩, nofun⟩
  have hne : node "S" [node "" [leaf "  'b"], leaf ""] ≠
      node "S" [node "" [leaf "  'b", leaf ""]] := by
    decide
  exact ⟨_, _, ht, hu, rfl, hne, fun h => hne ((outline_eq_iff ht hu).mp h)⟩

-- A name with an apostrophe in front can be taken for a terminal.
example : (node "S" [node "'b'" []]).outline = (node "S" [leaf "b"]).outline := by decide

end Tree

end ContextFree
