import Grammers.Text

namespace Grammers

open TextSearch

namespace TlParser

/-- One sign for some others. -/
def replaceChar (c : Char) (new text : Text) : Text :=
  text.flatMap fun c' => if c' = c then new else [c']

def isSpace (c : Char) : Bool := c = ' '

def trueFlag : Text := "?true".toList

/-- The loop removes what is from the last space before the first such type on. -/
def removeTrue (representation : Text) : Text :=
  match _h : representation.dropInfix? trueFlag with
  | none => representation
  | some (before, after) =>
    removeTrue (((rsplitOnce isSpace before).map Prod.fst).getD [] ++ after)
termination_by representation.length
decreasing_by
  obtain ⟨⟨i, rfl, hi⟩, -⟩ := List.dropInfix?_eq_some_iff.mp _h
  have hi' := congrArg List.length (eq_of_beq hi)
  have hlength : (((rsplitOnce isSpace before).map Prod.fst).getD []).length ≤ before.length := by
    cases hsplit : rsplitOnce isSpace before with
    | none => exact Nat.zero_le _
    | some parts =>
      obtain ⟨s, -, hbefore, -⟩ := rsplitOnce_eq_some hsplit
      rw [hbefore]
      simp
  simp only [List.length_append, hi'] at hlength ⊢
  exact Nat.lt_of_lt_of_le (Nat.add_lt_add_right (Nat.lt_succ_of_le hlength) _) (by simp [trueFlag])

def replaceBytes (definition : Text) : Text :=
  replaceAll '?' "bytes ".toList "? string".toList
    (replaceAll ':' "bytes ".toList ": string".toList definition)

def replaceBrackets (text : Text) : Text :=
  replaceChar '}' [] (replaceChar '{' [] (replaceChar '>' [] (replaceChar '<' [' '] text)))

def representation (definition : Text) : Text :=
  removeTrue (replaceBrackets (replaceBytes definition))

/-- The identifier of a definition, for a checksum of bytes. -/
def inferId (crc32 : Bytes → UInt32) (definition : Text) : UInt32 :=
  crc32 (asBytes (representation definition))

end TlParser

end Grammers
