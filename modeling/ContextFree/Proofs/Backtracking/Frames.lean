import ContextFree.Proofs.Derivation.Paths

namespace ContextFree

-- An expansion in progress: the nonterminal that was expanded, and where in the input, the
-- trees that are done, and the symbols that remain. The virtual root has no nonterminal.
-- Inside of other frames there is one more symbol between the trees and the rest, the one
-- that the next frame expands.
structure Frame where
  label : Option String
  origin : Nat
  done : List Tree
  rest : List Symbol

namespace Frame

def tree (f : Frame) : Tree := .node (f.label.getD "") f.done

def add (f : Frame) (t : Tree) : Frame := { f with done := f.done ++ [t] }

-- A frame with nothing left becomes a tree of the frame around it. The innermost frame
-- comes first, and the root is never left.
def close (f : Frame) : List Frame → List Frame
  | [] => [f]
  | g :: outer => if f.rest = [] then close (g.add f.tree) outer else f :: g :: outer

-- The frames after the next terminal was matched.
def matched (f : Frame) (outer : List Frame) (rest : List Symbol) (name : String) : List Frame :=
  close (add { f with rest } (.leaf name)) outer

-- The frames after the next nonterminal was expanded.
def expanded (f : Frame) (outer : List Frame) (rest : List Symbol) (p : Production)
    (position : Nat) : List Frame :=
  close { label := some p.lhs, origin := position, done := [], rest := p.rhs }
    ({ f with rest } :: outer)

-- The tree of the outermost frame, with the trees `inner` for what is being expanded in the
-- innermost frame and the trees `us` for what remains in all of them.
def plug : List Frame → (inner us : List Tree) → List Tree
  | [], inner, us => inner ++ us
  | f :: outer, inner, us =>
    plug outer [.node (f.label.getD "") (f.done ++ inner ++ us.take f.rest.length)]
      (us.drop f.rest.length)

-- The symbols that remain in all frames.
def remaining : List Frame → List Symbol
  | [] => []
  | f :: outer => f.rest ++ remaining outer

-- The nonterminals that are being expanded, with the positions.
def keys : List Frame → List (String × Nat)
  | [] => []
  | f :: outer =>
    match f.label with
    | none => keys outer
    | some name => (name, f.origin) :: keys outer

-- The frames come from the productions of the grammar: in each of them the trees, the
-- symbols that are being expanded and the rest make up a right-hand side.
inductive Proper (g : Grammar) : List Symbol → List Frame → Prop where
  | root {done : List Tree} {inner rest : List Symbol}
      (roots : done.map Tree.root ++ inner ++ rest = [.nonterminal g.start]) :
      Proper g inner [{ label := none, origin := 0, done, rest }]
  | inside {name : String} {origin : Nat} {done : List Tree} {inner rest : List Symbol}
      {outer : List Frame}
      (mem : { lhs := name, rhs := done.map Tree.root ++ inner ++ rest } ∈ g.productions)
      (around : Proper g [.nonterminal name] outer) :
      Proper g inner ({ label := some name, origin, done, rest } :: outer)

theorem Proper.ne_nil {g : Grammar} {inner : List Symbol} {frames : List Frame}
    (h : Proper g inner frames) : frames ≠ [] := by
  cases h <;> simp

-- Symbols go over from the rest to the trees by way of being expanded.
theorem Proper.descend {g : Grammar} {f : Frame} {outer : List Frame} {s : Symbol}
    {rest : List Symbol} (h : Proper g [] (f :: outer)) (hrest : f.rest = s :: rest) :
    Proper g [s] ({ f with rest } :: outer) := by
  cases h with
  | root roots =>
      simp only at hrest
      subst hrest
      exact .root (by simpa using roots)
  | inside mem around =>
      simp only at hrest
      subst hrest
      exact .inside (by simpa using mem) around

theorem Proper.add {g : Grammar} {f : Frame} {outer : List Frame} {t : Tree}
    (h : Proper g [t.root] (f :: outer)) : Proper g [] (f.add t :: outer) := by
  cases h with
  | root roots => exact .root (by simpa using roots)
  | inside mem around => exact .inside (by simpa using mem) around

theorem Proper.expand {g : Grammar} {f : Frame} {outer : List Frame} {p : Production}
    (h : Proper g [.nonterminal p.lhs] (f :: outer)) (mem : p ∈ g.productions) (origin : Nat) :
    Proper g [] ({ label := some p.lhs, origin, done := [], rest := p.rhs } :: f :: outer) :=
  .inside mem h

theorem Proper.closed {g : Grammar} {f : Frame} {outer : List Frame}
    (h : Proper g [] (f :: outer)) : Proper g [] (close f outer) := by
  induction outer generalizing f with
  | nil => exact h
  | cons next outer ih =>
      rw [close]
      split
      · cases h with
        | inside mem around => exact ih around.add
      · exact h

@[simp] theorem remaining_close (f : Frame) (outer : List Frame) :
    remaining (close f outer) = remaining (f :: outer) := by
  induction outer generalizing f with
  | nil => rfl
  | cons next outer ih =>
      rw [close]
      split
      · rename_i hrest
        rw [ih]
        simp [remaining, add, hrest]
      · rfl

@[simp] theorem plug_close (f : Frame) (outer : List Frame) (us : List Tree) :
    plug (close f outer) [] us = plug (f :: outer) [] us := by
  induction outer generalizing f with
  | nil => rfl
  | cons next outer ih =>
      rw [close]
      split
      · rename_i hrest
        rw [ih]
        simp [plug, add, tree, hrest]
      · rfl

section Plugging

variable {f : Frame} {outer : List Frame} {s : Symbol} {rest : List Symbol}

-- The first of the trees goes over to those that are done.
theorem plug_matched (hrest : f.rest = s :: rest) (name : String) (us : List Tree) :
    plug (matched f outer rest name) [] us = plug (f :: outer) [] (.leaf name :: us) := by
  rw [matched, plug_close]
  simp [plug, add, hrest]

-- Or it is put together from trees for the right-hand side.
theorem plug_expanded (hrest : f.rest = s :: rest) (name : String) (position : Nat)
    (children us : List Tree) :
    plug (expanded f outer rest { lhs := name, rhs := children.map Tree.root } position) []
        (children ++ us) =
      plug (f :: outer) [] (.node name children :: us) := by
  have htake : (children ++ us).take (children.map Tree.root).length = children := by simp
  have hdrop : (children ++ us).drop (children.map Tree.root).length = us := by simp
  rw [expanded, plug_close, plug, htake, hdrop]
  simp [plug, hrest]

end Plugging

end Frame

end ContextFree
