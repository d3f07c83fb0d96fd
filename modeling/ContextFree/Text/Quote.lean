import ContextFree.Text.Visible

namespace ContextFree

-- A number in base 16, with zeros in front up to `width` digits.
def hexDigits (width number : Nat) : List Char :=
  let digits := Nat.toDigits 16 number
  List.replicate (width - digits.length) '0' ++ digits

-- The mark around a quoted text: an apostrophe, or a double quote if that is not
-- in the text and an apostrophe is.
def quoteMark (text : String) : Char :=
  if '\'' ∈ text.toList ∧ '"' ∉ text.toList then '"' else '\''

-- A character between the marks. The backslash and the mark itself get a backslash
-- in front, and a character that cannot be seen is written as its number.
def quoteChar (mark c : Char) : List Char :=
  if c = mark ∨ c = '\\' then ['\\', c]
  else if c = '\n' then ['\\', 'n']
  else if c = '\r' then ['\\', 'r']
  else if c = '\t' then ['\\', 't']
  else if isVisible c then [c]
  else if c.toNat < 0x100 then '\\' :: 'x' :: hexDigits 2 c.toNat
  else if c.toNat < 0x10000 then '\\' :: 'u' :: hexDigits 4 c.toNat
  else '\\' :: 'U' :: hexDigits 8 c.toNat

def quoted (text : String) : String :=
  let mark := quoteMark text
  String.ofList (mark :: text.toList.flatMap (quoteChar mark) ++ [mark])

end ContextFree
