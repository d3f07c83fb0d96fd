namespace ContextFree

def blanks (count : Nat) : String := String.ofList (List.replicate count ' ')

-- The text, then blanks up to `width` characters. A longer text stays whole.
def padTo (width : Nat) (text : String) : String := text ++ blanks (width - text.length)

def joinLines (texts : List String) : String := "\n".intercalate texts

end ContextFree
