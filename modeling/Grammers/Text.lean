import Grammers.TextSearch
import Grammers.Transport

namespace Grammers

abbrev Text : Type := List Char

def isWhiteSpace (c : Char) : Bool :=
  let n := c.toNat
  9 ≤ n && n ≤ 13 || n = 0x20 || n = 0x85 || n = 0xa0 || n = 0x1680 || 0x2000 ≤ n && n ≤ 0x200a ||
    n = 0x2028 || n = 0x2029 || n = 0x202f || n = 0x205f || n = 0x3000

def trimStart (text : List Char) : List Char := text.dropWhile isWhiteSpace

def trim (text : List Char) : List Char := (trimStart (trimStart text).reverse).reverse

def trimEnd (text : Text) : Text := (trimStart text.reverse).reverse

def splitWhitespace (text : Text) : List Text := (text.splitOnP isWhiteSpace).filter (· ≠ [])

/-- The tokens with one space between each two. -/
def unwords : List Text → Text
  | [] => []
  | token :: tokens => token ++ tokens.flatMap (' ' :: ·)

/-- The bytes of a text. -/
def asBytes (text : Text) : Bytes := text.flatMap String.utf8EncodeChar

theorem asBytes_injective {a b : Text} (h : asBytes a = asBytes b) : a = b := by
  have hbytes : a.utf8Encode = b.utf8Encode := congrArg List.toByteArray h
  rw [← String.toByteArray_ofList, ← String.toByteArray_ofList] at hbytes
  exact String.ofList_injective (String.toByteArray_inj.mp hbytes)

/-! Texts whose signs are known. -/

/-- A letter, a digit or an underscore. -/
def isWordChar (c : Char) : Bool := c.isAlphanum || c = '_'

theorem isWordChar_range {c : Char} (h : isWordChar c = true) : 48 ≤ c.toNat ∧ c.toNat ≤ 122 := by
  change (decide (c.val ≥ 65 ∧ c.val ≤ 90) || (c.val ≥ 97 && c.val ≤ 122) ||
    (c.val ≥ 48 && c.val ≤ 57) || c = '_') = true at h
  simp only [Bool.or_eq_true, Bool.and_eq_true, decide_eq_true_eq, ge_iff_le,
    UInt32.le_iff_toNat_le] at h
  rcases h with ((h | h) | h) | rfl
  · exact ⟨le_trans (by decide) h.1, le_trans h.2 (by decide)⟩
  · exact ⟨le_trans (by decide) h.1, le_trans h.2 (by decide)⟩
  · exact ⟨h.1, le_trans h.2 (by decide)⟩
  · decide

theorem isWhiteSpace_of_range {c : Char} (h : 33 ≤ c.toNat ∧ c.toNat ≤ 132) :
    isWhiteSpace c = false := by
  simp only [isWhiteSpace, Bool.or_eq_false_iff, Bool.and_eq_false_iff, decide_eq_false_iff_not]
  omega

theorem trimStart_eq {text : Text} (h : ∀ c, text.head? = some c → isWhiteSpace c = false) :
    trimStart text = text := by
  cases text with
  | nil => rfl
  | cons c text => exact List.dropWhile_cons_of_neg (by rw [h c rfl]; decide)

theorem trimEnd_eq {text : Text} (h : ∀ c, text.getLast? = some c → isWhiteSpace c = false) :
    trimEnd text = text := by
  rw [trimEnd, trimStart_eq (by simpa using h), List.reverse_reverse]

theorem mem_trimStart {text : Text} {c : Char} (hc : c ∈ text) (hsign : isWhiteSpace c = false) :
    c ∈ trimStart text := by
  induction text with
  | nil => cases hc
  | cons d text ih =>
    rw [trimStart, List.dropWhile_cons]
    split
    next hd =>
      refine ih ((List.mem_cons.mp hc).resolve_left ?_)
      rintro rfl
      rw [hd] at hsign
      cases hsign
    next => exact hc

theorem trimEnd_append_of_white {a b : Text} (h : ∀ c ∈ b, isWhiteSpace c = true) :
    trimEnd (a ++ b) = trimEnd a := by
  have hskip : trimStart (b.reverse ++ a.reverse) = trimStart a.reverse :=
    List.dropWhile_append_of_pos fun c hc => h c (List.mem_reverse.mp hc)
  rw [trimEnd, trimEnd, List.reverse_append, hskip]

theorem trimEnd_append_of_sign {a b : Text} (h : ∃ c ∈ b, isWhiteSpace c = false) :
    trimEnd (a ++ b) = a ++ trimEnd b := by
  obtain ⟨c, hc, hsign⟩ := h
  have hmem : c ∈ trimStart b.reverse := mem_trimStart (List.mem_reverse.mpr hc) hsign
  have hstop : trimStart (b.reverse ++ a.reverse) = trimStart b.reverse ++ a.reverse := by
    rw [trimStart, List.dropWhile_append, if_neg]
    · rfl
    · intro hempty
      exact List.ne_nil_of_mem hmem (List.isEmpty_iff.mp hempty)
  rw [trimEnd, List.reverse_append, hstop, List.reverse_append, List.reverse_reverse, trimEnd]

/-- A text is cut at its end only when it ends in white space. -/
theorem trimEnd_append_singleton (a : Text) (c : Char) :
    trimEnd (a ++ [c]) = if isWhiteSpace c = true then trimEnd a else a ++ [c] := by
  by_cases hc : isWhiteSpace c = true
  · rw [if_pos hc, trimEnd_append_of_white (by simpa using hc)]
  · rw [if_neg hc, trimEnd_eq fun d hd => ?_]
    rw [List.getLast?_concat] at hd
    cases hd
    simpa using hc

theorem trimEnd_sublist (text : Text) : (trimEnd text).Sublist text := by
  have hsub := (List.dropWhile_sublist isWhiteSpace (l := text.reverse)).reverse
  rwa [List.reverse_reverse] at hsub

theorem trim_ne_nil {text : Text} {c : Char} (hc : c ∈ text) (hsign : isWhiteSpace c = false) :
    trim text ≠ [] := by
  have hmem : c ∈ trimStart (trimStart text).reverse :=
    mem_trimStart (List.mem_reverse.mpr (mem_trimStart hc hsign)) hsign
  exact List.ne_nil_of_mem (List.mem_reverse.mpr hmem)

/-- Spaces around a text are removed. -/
theorem trim_eq {text : Text} (hhead : ∀ c, text.head? = some c → isWhiteSpace c = false)
    (hlast : ∀ c, text.getLast? = some c → isWhiteSpace c = false) (hne : text ≠ []) :
    trim (text ++ [' ']) = text ∧ trim (' ' :: text) = text := by
  have hboth : trimEnd (trimStart text) = text := by
    rw [trimStart_eq hhead, trimEnd_eq hlast]
  constructor
  · have hstart : trimStart (text ++ [' ']) = text ++ [' '] := by
      refine trimStart_eq fun c hc => hhead c ?_
      cases text with
      | nil => exact absurd rfl hne
      | cons d text => exact hc
    have hend : trimEnd (text ++ [' ']) = trimEnd text := by
      unfold trimEnd
      rw [List.reverse_append]
      rfl
    calc trim (text ++ [' ']) = trimEnd (trimStart (text ++ [' '])) := rfl
      _ = text := by rw [hstart, hend, trimEnd_eq hlast]
  · exact hboth

theorem splitWhitespace_unwords {tokens : List Text} (hne : ∀ token ∈ tokens, token ≠ [])
    (h : ∀ token ∈ tokens, ∀ c ∈ token, isWhiteSpace c = false) :
    splitWhitespace (unwords tokens) = tokens := by
  cases tokens with
  | nil => rfl
  | cons token tokens =>
    induction tokens generalizing token with
    | nil =>
      have htoken := h token (by simp)
      simp [splitWhitespace, unwords, List.splitOnP_eq_singleton htoken, hne token (by simp)]
    | cons next tokens ih =>
      rw [List.forall_mem_cons] at hne h
      have hsplit : unwords (token :: next :: tokens) = token ++ ' ' :: unwords (next :: tokens) := by
        simp [unwords]
      have hrest := ih next hne.2 h.2
      unfold splitWhitespace at hrest ⊢
      rw [hsplit, List.splitOnP_append_cons_of_forall_mem h.1 ' ' rfl,
        List.filter_cons_of_pos (by simpa using hne.1), hrest]

end Grammers
