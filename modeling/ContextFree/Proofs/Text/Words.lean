import ContextFree.Text.Words
import Mathlib.Data.List.TakeWhile

namespace ContextFree

theorem stretches_eq_splitOnP (stop : Char → Bool) (chars : List Char) :
    stretches stop chars = chars.splitOnP stop := by
  induction chars with
  | nil => rfl
  | cons c rest ih =>
      rw [stretches, List.splitOnP_cons_eq_if_modifyHead, ih]
      split
      · rfl
      · cases h : rest.splitOnP stop with
        | nil => exact absurd h (List.splitOnP_ne_nil stop rest)
        | cons first more => rfl

section Marks

variable {mark : Char} {text : String} {pieces : List String}

-- The text is the pieces with a mark between each of them and the next one, and there is no
-- mark in any of them.
structure Pieces (mark : Char) (text : String) (pieces : List String) : Prop where
  ne : pieces ≠ []
  free : ∀ piece ∈ pieces, mark ∉ piece.toList
  joined : [mark].intercalate (pieces.map String.toList) = text.toList

theorem map_toList_splitAtMark (mark : Char) (text : String) :
    (splitAtMark mark text).map String.toList = text.toList.splitOn mark := by
  simp [splitAtMark, stretches_eq_splitOnP, Function.comp_def, List.splitOn]

theorem pieces_splitAtMark (mark : Char) (text : String) :
    Pieces mark text (splitAtMark mark text) := by
  constructor
  case ne => simpa [splitAtMark] using stretches_ne_nil _ _
  case free =>
    intro piece hpiece hmark
    obtain ⟨chars, hchars, rfl⟩ := List.mem_map.mp hpiece
    rw [String.toList_ofList] at hmark
    simpa using not_stop_of_mem_stretches _ _ chars hchars mark hmark
  case joined => rw [map_toList_splitAtMark, List.intercalate_splitOn]

theorem Pieces.eq (h : Pieces mark text pieces) : splitAtMark mark text = pieces := by
  have hfree : ∀ chars ∈ pieces.map String.toList, mark ∉ chars := by simpa using h.free
  have hsplit := List.splitOn_intercalate mark hfree (by simpa using h.ne)
  rw [h.joined, ← map_toList_splitAtMark] at hsplit
  exact (List.map_inj_right fun _ _ => String.toList_inj.mp).mp hsplit

theorem pieces_iff : Pieces mark text pieces ↔ splitAtMark mark text = pieces :=
  ⟨Pieces.eq, fun h => h ▸ pieces_splitAtMark mark text⟩

end Marks

section Blanks

-- The labels stand in the text in this order, each as long as it can be, and there is nothing
-- else in the text than blanks.
inductive Labelled : List Char → List String → Prop where
  | none : Labelled [] []
  | blank {c : Char} {rest : List Char} {labels : List String} (blank : isBlank c = true)
      (labelled : Labelled rest labels) : Labelled (c :: rest) labels
  | label {label rest : List Char} {labels : List String} (ne : label ≠ [])
      (solid : ∀ c ∈ label, isBlank c = false) (ends : ∀ c ∈ rest.head?, isBlank c = true)
      (labelled : Labelled rest labels) :
      Labelled (label ++ rest) (String.ofList label :: labels)

variable {c : Char} {label rest chars : List Char} {labels : List String}

theorem words_eq (text : String) :
    words text =
      ((text.toList.splitOnP isBlank).filter (!·.isEmpty)).map String.ofList := by
  rw [words, stretches_eq_splitOnP]

theorem words_blank (h : isBlank c = true) :
    words (String.ofList (c :: rest)) = words (String.ofList rest) := by
  simp [words_eq, List.splitOnP_cons_eq_if_modifyHead, h]

theorem words_label (hne : label ≠ []) (hsolid : ∀ c ∈ label, isBlank c = false)
    (hends : ∀ c ∈ rest.head?, isBlank c = true) :
    words (String.ofList (label ++ rest)) = String.ofList label :: words (String.ofList rest) := by
  have hlabel : label.splitOnP isBlank = [label] :=
    List.splitOnP_eq_singleton (by simpa using hsolid)
  cases rest with
  | nil => simp [words_eq, hlabel, hne, List.splitOnP_nil]
  | cons c rest =>
      have hblank : isBlank c = true := hends c rfl
      rw [words_blank hblank]
      simp [words_eq, List.splitOnP_append_cons _ _ hblank, hlabel, hne]

theorem Labelled.eq (h : Labelled chars labels) : words (String.ofList chars) = labels := by
  induction h with
  | none => rfl
  | blank blank _ ih => rw [words_blank blank, ih]
  | label ne solid ends _ ih => rw [words_label ne solid ends, ih]

-- Read from the left, with the label that is not at its end yet kept in front.
theorem labelled_words_append (hsolid : ∀ c ∈ label, isBlank c = false) :
    Labelled (label ++ rest) (words (String.ofList (label ++ rest))) := by
  have hnil : ∀ c ∈ ([] : List Char), isBlank c = false := by simp
  induction rest generalizing label with
  | nil =>
      by_cases hne : label = []
      · subst hne
        exact .none
      · have hends : ∀ c ∈ ([] : List Char).head?, isBlank c = true := by simp
        rw [words_label hne hsolid hends]
        exact .label hne hsolid hends .none
  | cons c rest ih =>
      by_cases hblank : isBlank c = true
      · have hrest : Labelled (c :: rest) (words (String.ofList (c :: rest))) := by
          rw [words_blank hblank]
          exact .blank hblank (ih hnil)
        by_cases hne : label = []
        · subst hne
          exact hrest
        · have hends : ∀ d ∈ (c :: rest).head?, isBlank d = true := by simpa using hblank
          rw [words_label hne hsolid hends]
          exact .label hne hsolid hends hrest
      · have hlonger : ∀ d ∈ label ++ [c], isBlank d = false := by
          intro d hd
          rcases List.mem_append.mp hd with hd | hd
          · exact hsolid d hd
          · rw [List.mem_singleton.mp hd]
            simpa using hblank
        have h := ih hlonger
        rwa [List.append_assoc, List.singleton_append] at h

theorem labelled_iff {text : String} : Labelled text.toList labels ↔ words text = labels := by
  constructor
  · intro h
    rw [← h.eq, String.ofList_toList]
  · rintro rfl
    have h : Labelled ([] ++ text.toList) (words (String.ofList ([] ++ text.toList))) :=
      labelled_words_append (by simp)
    rwa [List.nil_append, String.ofList_toList] at h

-- There are only blanks around what is left of the text, and it begins and ends with none.
structure Trimmed (text trimmed : String) : Prop where
  around : ∃ before after, text.toList = before ++ trimmed.toList ++ after ∧
    (∀ c ∈ before, isBlank c = true) ∧ ∀ c ∈ after, isBlank c = true
  first : ∀ c ∈ trimmed.toList.head?, isBlank c = false
  last : ∀ c ∈ trimmed.toList.getLast?, isBlank c = false

theorem dropWhile_isBlank_of_head? (h : ∀ c ∈ chars.head?, isBlank c = false) :
    chars.dropWhile isBlank = chars := by
  cases chars with
  | nil => rfl
  | cons c rest => exact List.dropWhile_cons_of_neg (by simpa using h c rfl)

theorem head?_dropWhile_isBlank (chars : List Char) :
    ∀ c ∈ (chars.dropWhile isBlank).head?, isBlank c = false := by
  intro c hc
  have h := List.head?_dropWhile_not isBlank chars
  rw [hc] at h
  simpa using h

theorem Trimmed.eq {text trimmed : String} (h : Trimmed text trimmed) :
    trimBlanks text = trimmed := by
  obtain ⟨before, after, htext, hbefore, hafter⟩ := h.around
  have hlast : ∀ c ∈ trimmed.toList.reverse.head?, isBlank c = false := by
    simpa using h.last
  rw [trimBlanks, htext, List.append_assoc, List.dropWhile_append_of_pos hbefore]
  cases hchars : trimmed.toList with
  | nil =>
      have hnone : after.dropWhile isBlank = [] := List.dropWhile_eq_nil_iff.mpr hafter
      simp [hnone, String.toList_eq_nil_iff.mp hchars]
  | cons c rest =>
      have hfirst : ∀ d ∈ (trimmed.toList ++ after).head?, isBlank d = false := by
        have := h.first
        rw [hchars] at this ⊢
        exact this
      rw [← hchars, dropWhile_isBlank_of_head? hfirst, List.reverse_append,
        List.dropWhile_append_of_pos (by simpa using hafter), dropWhile_isBlank_of_head? hlast,
        List.reverse_reverse, String.ofList_toList]

-- The end of a text is where its reverse begins.
theorem reverse_dropWhile_append (chars : List Char) :
    (chars.reverse.dropWhile isBlank).reverse ++ (chars.reverse.takeWhile isBlank).reverse =
      chars := by
  rw [← List.reverse_append, List.takeWhile_append_dropWhile, List.reverse_reverse]

theorem trimmed_trimBlanks (text : String) : Trimmed text (trimBlanks text) := by
  have hrest := reverse_dropWhile_append (text.toList.dropWhile isBlank)
  constructor <;> rw [trimBlanks, String.toList_ofList]
  case around =>
    refine ⟨text.toList.takeWhile isBlank,
      ((text.toList.dropWhile isBlank).reverse.takeWhile isBlank).reverse, ?_, ?_, ?_⟩
    · rw [List.append_assoc, hrest, List.takeWhile_append_dropWhile]
    · intro c hc
      exact List.mem_takeWhile_imp hc
    · intro c hc
      exact List.mem_takeWhile_imp (List.mem_reverse.mp hc)
  case first =>
    intro c hc
    apply head?_dropWhile_isBlank text.toList c
    rw [← hrest, List.head?_append, Option.mem_def.mp hc, Option.some_or]
    rfl
  case last =>
    rw [List.getLast?_reverse]
    exact head?_dropWhile_isBlank _

theorem trimmed_iff {text trimmed : String} :
    Trimmed text trimmed ↔ trimBlanks text = trimmed :=
  ⟨Trimmed.eq, fun h => h ▸ trimmed_trimBlanks text⟩

end Blanks

end ContextFree
