import ContextFree.Names
import ContextFree.Text.Layout

namespace ContextFree

-- One value for each of finitely many names.
abbrev Family (α : Type) := List (String × α)

namespace Family

def names (family : Family α) : List String := family.map Prod.fst

def value? (family : Family α) (name : String) : Option α := family.lookup name

-- The family with another value for one name, which it has at most once. A name it
-- does not have is not added.
def change : Family α → String → (α → α) → Family α
  | [], _, _ => []
  | (other, value) :: rest, name, f =>
    if other = name then (other, f value) :: rest else (other, value) :: change rest name f

-- The members in order of their names.
def sorted (family : Family α) : Family α :=
  (Names.sort family.names).filterMap fun name => (family.value? name).map (name, ·)

-- One line for each member, in order of the names.
def text (values : α → List String) (family : Family α) : String :=
  joinLines (family.sorted.map fun (name, value) =>
    name ++ ": " ++ ", ".intercalate (Names.sort (values value)))

-- A family that is made from its names.
theorem value?_map (names : List String) (value : String → α) (name : String) :
    value? (names.map fun name => (name, value name)) name =
      if name ∈ names then some (value name) else none := by
  induction names with
  | nil => rfl
  | cons other rest ih =>
    simp only [value?] at ih
    by_cases h : name = other
    · simp [value?, h]
    · have hb : (name == other) = false := by simpa using h
      simp [value?, List.lookup_cons, hb, h, ih]

@[simp] theorem names_change (family : Family α) (name : String) (f : α → α) :
    (family.change name f).names = family.names := by
  induction family with
  | nil => rfl
  | cons entry rest ih =>
    simp only [names] at ih ⊢
    by_cases h : entry.1 = name <;> simp [change, h, ih]

theorem value?_change_self (family : Family α) (name : String) (f : α → α) :
    (family.change name f).value? name = (family.value? name).map f := by
  induction family with
  | nil => rfl
  | cons entry rest ih =>
    obtain ⟨other, value⟩ := entry
    by_cases h : other = name
    · subst h; simp [change, value?]
    · have hb : (name == other) = false := by simpa using Ne.symm h
      simpa only [change, value?, h, if_false, List.lookup_cons, hb] using ih

theorem value?_change_of_ne (family : Family α) (name other : String) (f : α → α)
    (hne : other ≠ name) : (family.change name f).value? other = family.value? other := by
  induction family with
  | nil => rfl
  | cons entry rest ih =>
    obtain ⟨key, value⟩ := entry
    simp only [value?] at ih
    by_cases h : key = name
    · have hb : (other == key) = false := by subst h; simpa using hne
      simp only [change, value?, h, if_true, List.lookup_cons]
      simp [h ▸ hb]
    · simp only [change, value?, h, if_false, List.lookup_cons, ih]

end Family

end ContextFree
