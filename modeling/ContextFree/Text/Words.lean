namespace ContextFree

-- The characters that separate words: the white space of Unicode and the four
-- information separators U+001C to U+001F.
def isBlank (c : Char) : Bool :=
  let n := c.toNat
  (0x09 ≤ n && n ≤ 0x0D) || (0x1C ≤ n && n ≤ 0x20) || n == 0x85 || n == 0xA0 || n == 0x1680 ||
    (0x2000 ≤ n && n ≤ 0x200A) || n == 0x2028 || n == 0x2029 || n == 0x202F || n == 0x205F ||
    n == 0x3000

-- The stretches between the characters that satisfy `stop`. There is one more
-- of them than there are such characters, and each may be empty.
def stretches (stop : Char → Bool) : List Char → List (List Char)
  | [] => [[]]
  | c :: rest =>
    if stop c then [] :: stretches stop rest
    else match stretches stop rest with
      | [] => [[c]]
      | first :: more => (c :: first) :: more

-- The text cut at every occurrence of `mark`.
def splitAtMark (mark : Char) (text : String) : List String :=
  (stretches (· == mark) text.toList).map String.ofList

-- The longest parts of the text without a blank.
def words (text : String) : List String :=
  ((stretches isBlank text.toList).filter (!·.isEmpty)).map String.ofList

-- The text without the blanks at its two ends.
def trimBlanks (text : String) : String :=
  String.ofList ((text.toList.dropWhile isBlank).reverse.dropWhile isBlank).reverse

theorem stretches_ne_nil (stop : Char → Bool) (cs : List Char) : stretches stop cs ≠ [] := by
  cases cs with
  | nil => simp [stretches]
  | cons c rest =>
    rw [stretches]
    split
    · simp
    · split <;> simp

theorem not_stop_of_mem_stretches (stop : Char → Bool) (cs : List Char) :
    ∀ piece ∈ stretches stop cs, ∀ c ∈ piece, stop c = false := by
  induction cs with
  | nil => simp [stretches]
  | cons c rest ih =>
    rw [stretches]
    split
    · intro piece hp
      rcases List.mem_cons.mp hp with rfl | hp
      · simp
      · exact ih piece hp
    · rename_i hc
      split
      · rename_i hs
        exact absurd hs (stretches_ne_nil stop rest)
      · rename_i first more hs
        rw [hs] at ih
        intro piece hp
        rcases List.mem_cons.mp hp with rfl | hp
        · intro d hd
          rcases List.mem_cons.mp hd with rfl | hd
          · simpa using hc
          · exact ih first (by simp) d hd
        · exact ih piece (by simp [hp])

end ContextFree
